/-
Runs of translations.

A run interleaves translations of any kind with `tlbie` and with whatever changes
the MSR, the segment registers and the BATs; software leaves the table itself
alone. Started from flushed TLBs, every translation of it answers what the
architected walk answers, no side of the TLB ever holds a page twice, and storage
differs from where it started in R and C only, each recorded exactly where the
accesses of the run say.
-/
import OpenPowerMac.TlbWalk

set_option autoImplicit false

namespace OpenPowerMac

open Hierarchy

namespace Cpu

variable {c : Cpu PlainBus}

/-! ## The steps of a run -/

/-- What software may set between two translations without the TLBs seeing it. -/
structure Context where
  msr : U32
  pc : U32
  sr : BitVec 4 → U32
  ibatu : BitVec 2 → U32
  ibatl : BitVec 2 → U32
  dbatu : BitVec 2 → U32
  dbatl : BitVec 2 → U32

/-- The processor in another context. -/
def setContext (c : Cpu PlainBus) (k : Context) : Cpu PlainBus :=
  { c with st := { c.st with
      msr := k.msr, pc := k.pc, sr := k.sr, ibatu := k.ibatu, ibatl := k.ibatl,
      dbatu := k.dbatu, dbatl := k.dbatl } }

/-- One step: a fetch, load or store translated, a `tlbie`, or another context. -/
inductive XlOp where
  | access (ea : U32) (write fetch : Bool)
  | tlbie (ea : U32)
  | context (k : Context)

namespace XlOp

def exec (c : Cpu PlainBus) : XlOp → Cpu PlainBus
  | .access ea write fetch => (c.translate ea write fetch).2
  | .tlbie ea => c.tlbInvalidateClass ea
  | .context k => c.setContext k

end XlOp

def runXl (c : Cpu PlainBus) (ops : List XlOp) : Cpu PlainBus := ops.foldl XlOp.exec c

/-- A translation as it was asked for: the registers it saw, and the access. -/
structure Access where
  s : CpuState
  inhibitBase : U32
  ea : U32
  write : Bool
  fetch : Bool

/-- The translations of a run. -/
def accesses (c : Cpu PlainBus) : List XlOp → List Access
  | [] => []
  | .access ea write fetch :: ops =>
      ⟨c.st, c.realModeInhibitBase, ea, write, fetch⟩
        :: accesses (XlOp.exec c (.access ea write fetch)) ops
  | .tlbie ea :: ops => accesses (XlOp.exec c (.tlbie ea)) ops
  | .context k :: ops => accesses (XlOp.exec c (.context k)) ops

namespace Access

/-- The page the translation goes to, when neither real mode nor a BAT nor the
segment has answered. -/
def request (x : Access) : Option PageReq :=
  match toPage x.s x.inhibitBase x.ea x.write x.fetch with
  | .inl _ => none
  | .inr q => some q

/-- The translation finds the entry at `a`, and is not the fetch of a guarded
page. -/
def References (x : Access) (m : U32 → U8) (a : U32) : Prop :=
  ∃ q, x.request = some q ∧ findPte x.s.sdr1 m q.page = some a
    ∧ (q.fetch && pteGuarded (wordAt m (a + 4#32))) = false

/-- The translation is a permitted store through the entry at `a`. -/
def Changes (x : Access) (m : U32 → U8) (a : U32) : Prop :=
  ∃ q, x.request = some q ∧ findPte x.s.sdr1 m q.page = some a
    ∧ (q.fetch && pteGuarded (wordAt m (a + 4#32))) = false ∧ q.write = true
    ∧ ppAllows (wordAt m (a + 4#32) &&& 3#32) q.key true = true

end Access

open Classical in
/-- The bits some accesses leave in the entry at `a`: R if one of them found it,
C if one of them is a permitted store through it. -/
noncomputable def rcBits (m : U32 → U8) (l : List Access) (a : U32) : U32 :=
  (if ∃ x ∈ l, x.References m a then kPteR else 0#32)
    ||| (if ∃ x ∈ l, x.Changes m a then kPteC else 0#32)

/-! ## One step keeps the invariant -/

theorem tlbDir_tlbie (c : Cpu PlainBus) (ea : U32) (i : Bool × BitVec 6 × Fin 2) :
    (c.tlbInvalidateClass ea).tlbDir i
      = if i.2.1 = ea.extractLsb' 12 6 then none else c.tlbDir i := by
  obtain ⟨fetch, s, w⟩ := i
  by_cases hs : s = ea.extractLsb' 12 6
  · cases fetch <;> simp [tlbDir, tlbOf, tlbInvalidateClass, hs]
  · cases fetch <;> simp [tlbDir, tlbOf, tlbInvalidateClass, hs]

theorem tlbie_same (c : Cpu PlainBus) (ea : U32) : SameMem c (c.tlbInvalidateClass ea) :=
  ⟨rfl, rfl, rfl, rfl, rfl, rfl, rfl, rfl, rfl⟩

theorem XlOk.tlbie (h : XlOk c) (ea : U32) : XlOk (c.tlbInvalidateClass ea) := by
  have hleft : ∀ i k e, (c.tlbInvalidateClass ea).tlbDir i = some (k, e) →
      c.tlbDir i = some (k, e) := by
    intro i k e hi
    rw [tlbDir_tlbie] at hi
    by_cases hs : i.2.1 = ea.extractLsb' 12 6
    · rw [if_pos hs] at hi
      exact absurd hi (by simp)
    · rw [if_neg hs] at hi
      exact hi
  have hsame := tlbie_same c ea
  refine ⟨hsame.seenOk h.mem, h.probe, ?_, ?_, ?_⟩
  · intro i j k v v' hi hj
    exact h.tlb.once i j k v v' (hleft i k v hi) (hleft j k v' hj)
  · intro i k e hi
    exact h.tlb.home i k e (hleft i k e hi)
  · intro i k e hi
    rw [hsame.seen]
    exact h.tlb.mirrors i k e (hleft i k e hi)

theorem context_same (c : Cpu PlainBus) (k : Context) : SameMem c (c.setContext k) :=
  ⟨rfl, rfl, rfl, rfl, rfl, rfl, rfl, rfl, rfl⟩

theorem XlOk.context (h : XlOk c) (k : Context) : XlOk (c.setContext k) := by
  have hsame := context_same c k
  refine ⟨hsame.seenOk h.mem, h.probe, ?_⟩
  exact h.tlb.marked rfl rfl (by rw [hsame.seen]; exact Marked.refl _)

/-- What one step keeps: the invariant, the table's base and the table but for R
and C. -/
structure Steps (c c' : Cpu PlainBus) : Prop where
  ok : XlOk c'
  sdr1 : c'.st.sdr1 = c.st.sdr1
  inhibitBase : c'.realModeInhibitBase = c.realModeInhibitBase
  marked : Marked c.seen c'.seen

theorem Steps.refl (h : XlOk c) : Steps c c := ⟨h, rfl, rfl, Marked.refl _⟩

theorem Steps.trans {c₁ c₂ c₃ : Cpu PlainBus} (h₁₂ : Steps c₁ c₂) (h₂₃ : Steps c₂ c₃) :
    Steps c₁ c₃ :=
  ⟨h₂₃.ok, h₂₃.sdr1.trans h₁₂.sdr1, h₂₃.inhibitBase.trans h₁₂.inhibitBase,
    h₁₂.marked.trans h₂₃.marked⟩

theorem answered_sdr1 (c : Cpu PlainBus) (a : Answer) (ea cia : U32) (write : Bool) :
    (c.answered a ea cia write).st.sdr1 = c.st.sdr1 := by
  cases a <;> rfl

theorem SameFront.inhibitBase {c c' : Cpu PlainBus} (h : SameFront c c') :
    c'.realModeInhibitBase = c.realModeInhibitBase := by
  have heq : c' = c.withFront c' := h
  rw [heq]
  rfl

theorem answered_inhibitBase (c : Cpu PlainBus) (a : Answer) (ea cia : U32) (write : Bool) :
    (c.answered a ea cia write).realModeInhibitBase = c.realModeInhibitBase := by
  cases a <;> rfl

theorem XlOk.steps (h : XlOk c) (op : XlOp) : Steps c (op.exec c) := by
  cases op with
  | access ea write fetch =>
      have hspec := translate_spec h ea write fetch
      refine ⟨hspec.ok, ?_, ?_, ?_⟩
      · show (c.translate ea write fetch).2.st.sdr1 = c.st.sdr1
        rw [hspec.front.st, answered_sdr1]
      · show (c.translate ea write fetch).2.realModeInhibitBase = _
        rw [hspec.front.inhibitBase, answered_inhibitBase]
      · show Marked c.seen (c.translate ea write fetch).2.seen
        rw [hspec.seen]
        exact walk_record_marked _ _ _ _ _ _
  | tlbie ea =>
      refine ⟨h.tlbie ea, rfl, rfl, ?_⟩
      show Marked c.seen (c.tlbInvalidateClass ea).seen
      rw [(tlbie_same c ea).seen]
      exact Marked.refl _
  | context k =>
      refine ⟨h.context k, rfl, rfl, ?_⟩
      show Marked c.seen (c.setContext k).seen
      rw [(context_same c k).seen]
      exact Marked.refl _

/-- **Every step of a run** keeps the invariant. -/
theorem XlOk.run (ops : List XlOp) : ∀ c : Cpu PlainBus, XlOk c → Steps c (runXl c ops) := by
  induction ops with
  | nil => exact fun c h => Steps.refl h
  | cons op ops ih =>
      intro c h
      exact (h.steps op).trans (ih _ (h.steps op).ok)

/-! ## What a run leaves in storage -/

theorem references_marked {m m' : U32 → U8} (h : Marked m m') (x : Access) (a : U32) :
    x.References m' a ↔ x.References m a := by
  unfold Access.References
  apply exists_congr
  intro q
  rw [findPte_marked h]
  refine and_congr_right fun _ => and_congr_right fun hfound => ?_
  rw [(h.second a (findPte_aligned hfound)).guarded]

theorem changes_marked {m m' : U32 → U8} (h : Marked m m') (x : Access) (a : U32) :
    x.Changes m' a ↔ x.Changes m a := by
  unfold Access.Changes
  apply exists_congr
  intro q
  rw [findPte_marked h]
  refine and_congr_right fun _ => and_congr_right fun hfound => ?_
  have hgains := h.second a (findPte_aligned hfound)
  rw [hgains.guarded, hgains.pp]

theorem rcBits_marked {m m' : U32 → U8} (h : Marked m m') (l : List Access) (a : U32) :
    rcBits m' l a = rcBits m l a := by
  classical
  unfold rcBits
  simp only [references_marked h, changes_marked h]

theorem rcBits_nil (m : U32 → U8) (a : U32) : rcBits m [] a = 0#32 := by
  simp [rcBits]

theorem rcBits_cons (m : U32 → U8) (x : Access) (l : List Access) (a : U32) :
    rcBits m (x :: l) a = rcBits m [x] a ||| rcBits m l a := by
  classical
  unfold rcBits
  simp only [List.mem_cons, List.not_mem_nil, or_false, exists_eq_left, exists_eq_or_imp]
  by_cases hr : x.References m a <;> by_cases hc : x.Changes m a <;>
    by_cases hr' : ∃ y ∈ l, y.References m a <;> by_cases hc' : ∃ y ∈ l, y.Changes m a <;>
    simp only [hr, hc, hr', hc', if_true, if_false, true_or, false_or] <;> decide

/-- An access that goes to no entry at `a` leaves nothing there. -/
theorem rcBits_of_not_found {m : U32 → U8} {x : Access} {a : U32}
    (h : ∀ q, x.request = some q → findPte x.s.sdr1 m q.page ≠ some a) : rcBits m [x] a = 0#32 := by
  have hr : ¬ x.References m a := fun ⟨q, hq, hfound, _⟩ => h q hq hfound
  have hc : ¬ x.Changes m a := fun ⟨q, hq, hfound, _⟩ => h q hq hfound
  simp [rcBits, hr, hc]

/-- An access leaves the walk's bits in the entry it finds. -/
theorem rcBits_of_found {m : U32 → U8} {x : Access} {q : PageReq} {a : U32}
    (hq : x.request = some q) (hfound : findPte x.s.sdr1 m q.page = some a) :
    rcBits m [x] a = pteBits (wordAt m (a + 4#32)) q := by
  have hr : x.References m a ↔ (q.fetch && pteGuarded (wordAt m (a + 4#32))) = false := by
    constructor
    · rintro ⟨q', hq', -, hg⟩
      rw [hq, Option.some.injEq] at hq'
      rw [hq']
      exact hg
    · intro hg
      exact ⟨q, hq, hfound, hg⟩
  have hc : x.Changes m a ↔ (q.fetch && pteGuarded (wordAt m (a + 4#32))) = false
      ∧ (q.write && ppAllows (wordAt m (a + 4#32) &&& 3#32) q.key q.write) = true := by
    constructor
    · rintro ⟨q', hq', -, hg, hwrite, hallow⟩
      rw [hq, Option.some.injEq] at hq'
      rw [hq', hwrite, Bool.true_and]
      exact ⟨hg, hallow⟩
    · rintro ⟨hg, hboth⟩
      rw [Bool.and_eq_true] at hboth
      obtain ⟨hwrite, hallow⟩ := hboth
      rw [hwrite] at hallow
      exact ⟨q, hq, hfound, hg, hwrite, hallow⟩
  classical
  unfold rcBits pteBits
  simp only [List.mem_cons, List.not_mem_nil, or_false, exists_eq_left, hr, hc]
  cases (q.fetch && pteGuarded (wordAt m (a + 4#32))) <;>
    cases (q.write && ppAllows (wordAt m (a + 4#32) &&& 3#32) q.key q.write) <;> decide

/-- **One translation's mark**, word by word. -/
theorem walk_record_word (x : Access) (m : U32 → U8) {b : U32} (hb : Aligned b) :
    wordAt ((walk x.s x.inhibitBase m x.ea x.write x.fetch).record m) b
      = wordAt m b ||| rcBits m [x] (b - 4#32) := by
  cases hpage : toPage x.s x.inhibitBase x.ea x.write x.fetch with
  | inl answer =>
      have hnone : x.request = none := by rw [Access.request, hpage]
      rw [rcBits_of_not_found fun q hq => by rw [hnone] at hq; exact absurd hq (by simp),
        BitVec.or_zero, walk, hpage]
      rfl
  | inr q =>
      have hq : x.request = some q := by rw [Access.request, hpage]
      rw [walk, hpage]
      show wordAt ((walkPage x.s.sdr1 m q).record m) b = _
      rw [walkPage]
      cases hfound : findPte x.s.sdr1 m q.page with
      | none =>
          rw [rcBits_of_not_found fun q' hq' => by
            rw [hq, Option.some.injEq] at hq'
            rw [← hq', hfound]
            simp, BitVec.or_zero]
          rfl
      | some a =>
          have ha := findPte_aligned hfound
          show wordAt (orWord m (a + 4#32) (pteBits (wordAt m (a + 4#32)) q)) b = _
          by_cases hba : b = a + 4#32
          · rw [hba, wordAt_orWord_self, BitVec.add_sub_cancel, rcBits_of_found hq hfound]
          · rw [wordAt_orWord_ne _ ha.second hb hba, rcBits_of_not_found fun q' hq' => by
              rw [hq, Option.some.injEq] at hq'
              rw [← hq', hfound]
              intro h
              apply hba
              rw [Option.some.injEq] at h
              rw [h, BitVec.sub_add_cancel], BitVec.or_zero]

/-- **Storage after a run**: each word has gained what the run's accesses leave in
its entry, and nothing else. -/
theorem XlOk.run_storage {b : U32} (hb : Aligned b) (ops : List XlOp) : ∀ c : Cpu PlainBus, XlOk c →
    wordAt (runXl c ops).seen b = wordAt c.seen b ||| rcBits c.seen (accesses c ops) (b - 4#32) := by
  induction ops with
  | nil =>
      intro c h
      rw [accesses, rcBits_nil, BitVec.or_zero]
      rfl
  | cons op ops ih =>
      intro c h
      have hstep := h.steps op
      have hrest := ih (op.exec c) hstep.ok
      rw [rcBits_marked hstep.marked] at hrest
      cases op with
      | access ea write fetch =>
          have hword : wordAt (XlOp.exec c (.access ea write fetch)).seen b
              = wordAt c.seen b
                ||| rcBits c.seen [⟨c.st, c.realModeInhibitBase, ea, write, fetch⟩] (b - 4#32) := by
            rw [← walk_record_word _ _ hb]
            exact congrArg (fun m => wordAt m b) (translate_spec h ea write fetch).seen
          rw [accesses, rcBits_cons, ← BitVec.or_assoc, ← hword]
          exact hrest
      | tlbie ea =>
          rw [show (XlOp.exec c (.tlbie ea)).seen = c.seen from (tlbie_same c ea).seen] at hrest
          exact hrest
      | context k =>
          rw [show (XlOp.exec c (.context k)).seen = c.seen from (context_same c k).seen] at hrest
          exact hrest

/-! ## The refinement -/

/-- What a run of translations owes the page table. -/
structure RefinesWalk (c : Cpu PlainBus) (ops : List XlOp) : Prop where
  answers : ∀ ea write fetch, ((runXl c ops).translate ea write fetch).1
    = (walk (runXl c ops).st c.realModeInhibitBase (runXl c ops).seen ea write fetch).answer.value
  once : ∀ fetch s, ((runXl c ops).tlbOf fetch s 0).v = true →
    ((runXl c ops).tlbOf fetch s 1).v = true →
    ¬ (((runXl c ops).tlbOf fetch s 0).vsid = ((runXl c ops).tlbOf fetch s 1).vsid
      ∧ ((runXl c ops).tlbOf fetch s 0).pi = ((runXl c ops).tlbOf fetch s 1).pi)
  storage : ∀ b, Aligned b → wordAt (runXl c ops).seen b
    = wordAt c.seen b ||| rcBits c.seen (accesses c ops) (b - 4#32)

theorem TlbOk.once_in_set (h : TlbOk c) {fetch : Bool} {s : BitVec 6}
    (h0 : (c.tlbOf fetch s 0).v = true) (h1 : (c.tlbOf fetch s 1).v = true) :
    ¬ ((c.tlbOf fetch s 0).vsid = (c.tlbOf fetch s 1).vsid
      ∧ (c.tlbOf fetch s 0).pi = (c.tlbOf fetch s 1).pi) := by
  rintro ⟨hvsid, hpi⟩
  have hdir0 : c.tlbDir (fetch, s, 0) = some ((fetch, ⟨_, _⟩), _) := if_pos h0
  have hdir1 : c.tlbDir (fetch, s, 1) = some ((fetch, ⟨_, _⟩), _) := if_pos h1
  rw [hvsid, hpi] at hdir0
  have hsame := h.once _ _ _ _ _ hdir0 hdir1
  exact absurd (congrArg (fun i => i.2.2) hsame) (by simp)

theorem xlOk_flushed (hmem : SeenOk c) (hprobe : c.mmuProbe = false)
    (hflushed : ∀ fetch s w, (c.tlbOf fetch s w).v = false) : XlOk c := by
  have hnone : ∀ i k e, c.tlbDir i ≠ some (k, e) := by
    intro i k e hi
    have : c.tlbDir i = none := if_neg (by rw [hflushed]; simp)
    rw [this] at hi
    exact absurd hi (by simp)
  exact ⟨hmem, hprobe, fun i j k v v' hi => absurd hi (hnone i k v),
    fun i k e hi => absurd hi (hnone i k e), fun i k e hi => absurd hi (hnone i k e)⟩

/-- **The TLBs refine the walk.** -/
theorem tlb_refines_walk (c : Cpu PlainBus) (hmem : SeenOk c) (hprobe : c.mmuProbe = false)
    (hflushed : ∀ fetch s w, (c.tlbOf fetch s w).v = false) (ops : List XlOp) :
    RefinesWalk c ops := by
  have hok := xlOk_flushed hmem hprobe hflushed
  have hrun := XlOk.run ops c hok
  refine ⟨fun ea write fetch => ?_, fun fetch s => hrun.ok.tlb.once_in_set,
    fun b hb => XlOk.run_storage hb ops c hok⟩
  rw [(translate_spec hrun.ok ea write fetch).value, hrun.inhibitBase]

/-- A table at address zero with one entry: page 1 of segment 0 is the physical
page 5, read and write. -/
def onePte : U32 → U8 := fun a =>
  if a = 0x40#32 then 0x80#8 else if a = 0x46#32 then 0x50#8 else if a = 0x47#32 then 0x02#8 else 0#8

/-- A processor with translation on over that table, its caches empty. -/
def tabled : Cpu PlainBus :=
  { bus := { mem := onePte }, st := { hid0 := 0x00004000#32, msr := 0x00000030#32 } }

example : (walk tabled.st 0#32 onePte 0x1234#32 true false).answer.value
    = some (0x5234#32, 0#32) := by decide +kernel

/-- A load, a store through the entry it left, and the page invalidated. -/
theorem tlb_refines_walk_tabled :
    RefinesWalk tabled [.access 0x1234#32 false false, .access 0x1238#32 true false,
      .tlbie 0x1000#32] :=
  tlb_refines_walk tabled
    (fun _ => (EmptyCaches.cacheOk ⟨fun _ _ => rfl, fun _ => rfl, rfl⟩).1) rfl
    (fun fetch s w => by cases fetch <;> rfl) _

end Cpu

end OpenPowerMac
