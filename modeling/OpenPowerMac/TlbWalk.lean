/-
The TLBs refine the walk.

`translate` is compared with `walk`, which has no TLB. The invariant is that a
valid TLB entry mirrors the page table's entry for its page as it is in storage
now (`MirrorsAt`), and that no side holds a page twice. A hit is then
indistinguishable from a search: the frame, the attributes and the protection are
the entry's own, R is already in storage because a reload put it there, and an
entry that says C has C in storage, while one that does not sends a store back to
the search.

Storage is `Cpu.seen`, what the processor finds at each address: the search goes
through the data cache like any other access, so a step here may fill and cast
out lines, and which lines the caches hold is no part of what is compared.
-/
import OpenPowerMac.PageTable

set_option autoImplicit false

namespace OpenPowerMac

open Hierarchy

namespace Cpu

/-! ## Frames -/

section Frames

variable {β : Type}

/-- `c` with the memory system and the TLBs of `m`. -/
def withFront (c m : Cpu β) : Cpu β :=
  { c.withMem m with
    itlb := m.itlb, dtlb := m.dtlb, itlbLru := m.itlbLru, dtlbLru := m.dtlbLru }

/-- Nothing outside the memory system and the TLBs differs. -/
def SameFront (c c' : Cpu β) : Prop := c' = c.withFront c'

theorem SameFront.refl (c : Cpu β) : SameFront c c := rfl

theorem SameFront.trans {c₁ c₂ c₃ : Cpu β} (h₁₂ : SameFront c₁ c₂) (h₂₃ : SameFront c₂ c₃) :
    SameFront c₁ c₃ := by
  calc c₃ = c₂.withFront c₃ := h₂₃
    _ = (c₁.withFront c₂).withFront c₃ := congrArg (fun c => c.withFront c₃) h₁₂
    _ = c₁.withFront c₃ := rfl

theorem SameCore.front {c c' : Cpu β} (h : SameCore c c') : SameFront c c' := by
  calc c' = c.withMem c' := h
    _ = (c.withMem c').withFront (c.withMem c') := rfl
    _ = (c.withMem c').withFront c' := congrArg _ h.symm
    _ = c.withFront c' := rfl

theorem SameFront.st {c c' : Cpu β} (h : SameFront c c') : c'.st = c.st := by
  have heq : c' = c.withFront c' := h
  rw [heq]
  rfl

theorem SameFront.mmuProbe {c c' : Cpu β} (h : SameFront c c') : c'.mmuProbe = c.mmuProbe := by
  have heq : c' = c.withFront c' := h
  rw [heq]
  rfl

theorem setTlb_front (c : Cpu β) (fetch : Bool) (s : BitVec 6) (w : Fin 2) (e : TlbEntry) :
    SameFront c (c.setTlb fetch s w e) := by
  cases fetch <;> rfl

theorem setTlbLru_front (c : Cpu β) (fetch : Bool) (s : BitVec 6) (w : Fin 2) :
    SameFront c (c.setTlbLru fetch s w) := by
  cases fetch <;> rfl

/-- The processor once a translation has answered: a refusal has raised its
exception. -/
def answered (c : Cpu β) (a : Answer) (ea cia : U32) (write : Bool) : Cpu β :=
  match a with
  | .ok _ => c
  | .isi bits => c.raiseExc Exc.Isi cia bits
  | .dsi bits => c.dsi ea cia bits write

theorem SameFront.answered {c c' : Cpu β} (h : SameFront c c') (a : Answer) (ea cia : U32)
    (write : Bool) : SameFront (c.answered a ea cia write) (c'.answered a ea cia write) := by
  have hcomm : ∀ m : Cpu β, (c.withFront m).answered a ea cia write
      = (c.answered a ea cia write).withFront m := by
    intro m
    cases a <;> rfl
  calc c'.answered a ea cia write
      = (c.withFront c').answered a ea cia write := congrArg (fun c => c.answered a ea cia write) h
    _ = (c.answered a ea cia write).withFront c' := hcomm c'
    _ = (c.answered a ea cia write).withFront (c'.answered a ea cia write) := by cases a <;> rfl

theorem xlFault_eq (c : Cpu β) (ea cia : U32) (write fetch : Bool) (isiBits dsiBits : U32) :
    c.xlFault ea cia write fetch isiBits dsiBits
      = c.answered (refuse fetch isiBits dsiBits) ea cia write := by
  cases fetch <;> rfl

theorem refuse_value (fetch : Bool) (isiBits dsiBits : U32) :
    (refuse fetch isiBits dsiBits).value = none := by
  cases fetch <;> rfl

end Frames

variable {c : Cpu PlainBus}

/-! ## The memory system -/

/-- Storage as the processor sees it: what the caches show, or with HID0[DCE]
clear what is behind them. -/
noncomputable def seen (c : Cpu PlainBus) : U32 → U8 := if c.dceOn then c.flat else c.bus.mem

/-- The caches, if they are looked into, hold their invariant. -/
def SeenOk (c : Cpu PlainBus) : Prop := c.dceOn = true → CacheOk c

theorem seen_on (hdce : c.dceOn = true) : c.seen = c.flat := if_pos hdce

theorem seen_off (hdce : c.dceOn = false) : c.seen = c.bus.mem := if_neg (by rw [hdce]; simp)

/-- A step of the memory system alone, after which storage is `m`. -/
structure MemStep (c c' : Cpu PlainBus) (m : U32 → U8) : Prop where
  core : SameCore c c'
  ok : SeenOk c'
  seen : c'.seen = m

theorem MemStep.refl (h : SeenOk c) : MemStep c c c.seen := ⟨SameCore.refl c, h, rfl⟩

theorem MemStep.trans {c₁ c₂ c₃ : Cpu PlainBus} {m₂ m₃ : U32 → U8} (h₁₂ : MemStep c₁ c₂ m₂)
    (h₂₃ : MemStep c₂ c₃ m₃) : MemStep c₁ c₃ m₃ :=
  ⟨h₁₂.core.trans h₂₃.core, h₂₃.ok, h₂₃.seen⟩

/-- With the data cache on, the caches' own account of a step is enough. -/
theorem MemStep.of_on (hdce : c.dceOn = true) {c' : Cpu PlainBus} {m : U32 → U8}
    (hcore : SameCore c c') (hok : CacheOk c') (hflat : c'.flat = m) : MemStep c c' m := by
  refine ⟨hcore, fun _ => hok, ?_⟩
  rw [seen_on (by rw [hcore.dceOn, hdce]), hflat]

theorem fetchDropRange_core (c : Cpu PlainBus) (pa : U32) (len : ℕ) :
    SameCore c (c.fetchDropRange pa len) ∧ (c.fetchDropRange pa len).bus = c.bus := by
  have hdrop : ∀ (d : Cpu PlainBus) (a : U32),
      SameCore d (d.fetchDropAt a) ∧ (d.fetchDropAt a).bus = d.bus := by
    intro d a
    unfold fetchDropAt
    simp only
    split <;> exact ⟨rfl, rfl⟩
  unfold fetchDropRange
  simp only
  split
  · exact ⟨(hdrop _ _).1.trans (hdrop _ _).1, (hdrop _ _).2.trans (hdrop _ _).2⟩
  · exact hdrop _ _

/-- **A word read** answers the word in storage, cached or not. -/
theorem memRead_word (h : SeenOk c) (a : U32) :
    MemStep c (c.memRead a 4 2#32).2 c.seen
      ∧ (c.memRead a 4 2#32).1.setWidth 32 = wordAt c.seen a := by
  cases hdce : c.dceOn with
  | true =>
      have hcached : Cached c 2#32 := ⟨hdce, by decide, by decide⟩
      obtain ⟨hquiet, hval⟩ := memRead_spec (h hdce) a 4 hcached
      rw [seen_on hdce, hval]
      exact ⟨MemStep.of_on hdce hquiet.core hquiet.ok hquiet.flat, rfl⟩
  | false =>
      have heq : c.memRead a 4 2#32 = c.busRead a 4 := by
        unfold memRead
        rw [bypasses_eq c (by decide), hdce, Bool.not_false, if_pos rfl]
      have hval : (c.busRead a 4).1 = ((loadBytes c.bus.mem a 4).setWidth 32).setWidth 64 := rfl
      rw [heq, busRead_snd, hval]
      refine ⟨MemStep.refl h, ?_⟩
      rw [seen_off hdce]
      exact BitVec.setWidth_setWidth_of_le _ (by decide)

/-- **A write** of an access length stores it, cached or not. -/
theorem memWrite_step (h : SeenOk c) (pa : U32) {len : ℕ} (hlen : AccessLen len) (v : U64)
    {wimg : U32} (hw : wimg &&& kWimgW = 0#32) (hi : wimg &&& kWimgI = 0#32) :
    MemStep c (c.memWrite pa len v wimg) (storeBytes c.seen pa len v) := by
  cases hdce : c.dceOn with
  | true =>
      have hspec := memWrite_spec (h hdce) pa len v ⟨hdce, hw, hi⟩
      rw [seen_on hdce]
      exact MemStep.of_on hdce hspec.core hspec.ok hspec.flat
  | false =>
      obtain ⟨hcore, hbus⟩ := fetchDropRange_core c pa len
      obtain ⟨d, hd⟩ : ∃ d, c.fetchDropRange pa len = d := ⟨_, rfl⟩
      rw [hd] at hcore hbus
      have hoff : d.dceOn = false := by rw [hcore.dceOn, hdce]
      have heq : c.memWrite pa len v wimg
          = d.setBus { c.bus with mem := storeBytes c.bus.mem pa len v } := by
        unfold memWrite
        simp only [hd, bypasses_eq d hi, hoff, Bool.not_false, if_true, busWrite_eq d pa hlen,
          hbus]
      have hoff' : (d.setBus { c.bus with mem := storeBytes c.bus.mem pa len v }).dceOn = false :=
        hoff
      rw [heq, seen_off hdce]
      refine ⟨hcore.trans rfl, fun hon => ?_, seen_off hoff'⟩
      rw [hoff'] at hon
      exact absurd hon (by simp)

theorem pteRead_step (h : SeenOk c) (hprobe : c.mmuProbe = false) (a : U32) :
    MemStep c (c.pteRead a).2 c.seen ∧ (c.pteRead a).1 = wordAt c.seen a := by
  unfold pteRead
  rw [if_neg (by rw [hprobe]; simp)]
  exact memRead_word h a

/-- R and C written back. -/
theorem pteUpdate_step (h : SeenOk c) (hprobe : c.mmuProbe = false) (a x : U32) :
    MemStep c (c.pteUpdate a (wordAt c.seen a) (wordAt c.seen a ||| x)) (orWord c.seen a x) := by
  unfold pteUpdate
  by_cases hsame : wordAt c.seen a ||| x = wordAt c.seen a
  · rw [if_neg (fun hne => hne.1 hsame), orWord_of_mem hsame]
    exact MemStep.refl h
  · rw [if_pos ⟨hsame, hprobe⟩]
    exact memWrite_step h a (by unfold AccessLen; omega) _ (by decide) (by decide)

/-! ## The invariant -/

section Directory

variable {β : Type}

/-- The two TLBs as one directory: a slot is a side, a set and a way, and a key
is a side and a page. -/
def tlbDir (c : Cpu β) (i : Bool × BitVec 6 × Fin 2) : Option ((Bool × Page) × TlbEntry) :=
  let e := c.tlbOf i.1 i.2.1 i.2.2
  if e.v then some ((i.1, ⟨e.vsid, e.pi⟩), e) else none

theorem tlbOf_setTlb (c : Cpu β) (fetch : Bool) (s : BitVec 6) (w : Fin 2) (e : TlbEntry)
    (i : Bool × BitVec 6 × Fin 2) :
    (c.setTlb fetch s w e).tlbOf i.1 i.2.1 i.2.2
      = if i = (fetch, s, w) then e else c.tlbOf i.1 i.2.1 i.2.2 := by
  obtain ⟨g, s', w'⟩ := i
  by_cases hs : s' = s
  · by_cases hw : w' = w
    · cases fetch <;> cases g <;> simp [tlbOf, setTlb, hs, hw]
    · cases fetch <;> cases g <;> simp [tlbOf, setTlb, hs, hw]
  · cases fetch <;> cases g <;> simp [tlbOf, setTlb, hs]

theorem tlbDir_setTlb (c : Cpu β) (fetch : Bool) (s : BitVec 6) (w : Fin 2) (e : TlbEntry) :
    (c.setTlb fetch s w e).tlbDir
      = Function.update c.tlbDir (fetch, s, w)
          (if e.v then some ((fetch, ⟨e.vsid, e.pi⟩), e) else none) := by
  funext i
  unfold tlbDir
  rw [tlbOf_setTlb]
  by_cases hi : i = (fetch, s, w)
  · rw [hi, if_pos rfl, Function.update_self]
  · rw [if_neg hi, Function.update_of_ne hi]

theorem tlbDir_setTlbLru (c : Cpu β) (fetch : Bool) (s : BitVec 6) (w : Fin 2) :
    (c.setTlbLru fetch s w).tlbDir = c.tlbDir := by
  cases fetch <;> rfl

theorem SameCore.tlbDir {c c' : Cpu β} (h : SameCore c c') : c'.tlbDir = c.tlbDir := by
  have heq : c' = c.withMem c' := h
  rw [heq]
  rfl

theorem answered_tlbDir (c : Cpu β) (a : Answer) (ea cia : U32) (write : Bool) :
    (c.answered a ea cia write).tlbDir = c.tlbDir := by
  cases a <;> rfl

/-- Nothing in the TLBs holds the page of the request. -/
def Free (c : Cpu β) (q : PageReq) : Prop := ∀ i e, c.tlbDir i ≠ some ((q.fetch, q.page), e)

/-- A TLB entry as a copy of the page table's, whose second word is `w1`. -/
structure Mirrors (w1 : U32) (fetch : Bool) (e : TlbEntry) : Prop where
  rpn : e.rpn = w1 &&& 0xFFFFF000#32
  wimg : e.wimg = (w1 >>> 3) &&& 0xF#32
  pp : e.pp = w1 &&& 3#32
  referenced : w1 ||| kPteR = w1
  changed : e.c = true → w1 ||| kPteC = w1
  plain : fetch = true → pteGuarded w1 = false

end Directory

theorem Mirrors.gains {w w' : U32} (hw : Gains w w') {fetch : Bool} {e : TlbEntry}
    (h : Mirrors w fetch e) : Mirrors w' fetch e where
  rpn := by rw [hw.field (by decide)]; exact h.rpn
  wimg := by rw [hw.wimg]; exact h.wimg
  pp := by rw [hw.pp]; exact h.pp
  referenced := hw.recorded h.referenced
  changed := fun hc => hw.recorded (h.changed hc)
  plain := fun hf => by rw [hw.guarded]; exact h.plain hf

/-- The invariant of the TLBs. -/
structure TlbOk (c : Cpu PlainBus) : Prop where
  once : Distinct c.tlbDir
  home : ∀ i k e, c.tlbDir i = some (k, e) → i.2.1 = k.2.index.setWidth 6
  mirrors : ∀ i k e, c.tlbDir i = some (k, e) →
    ∃ a, findPte c.st.sdr1 c.seen k.2 = some a ∧ Mirrors (wordAt c.seen (a + 4#32)) k.1 e

/-- The TLBs are as they were, and storage has at most been marked. -/
theorem TlbOk.marked (h : TlbOk c) {c' : Cpu PlainBus} (hdir : c'.tlbDir = c.tlbDir)
    (hsdr1 : c'.st.sdr1 = c.st.sdr1) (hm : Marked c.seen c'.seen) : TlbOk c' := by
  refine ⟨by rw [hdir]; exact h.once, by rw [hdir]; exact h.home, ?_⟩
  rw [hdir, hsdr1]
  intro i k e hi
  obtain ⟨a, hfound, hmirror⟩ := h.mirrors i k e hi
  exact ⟨a, by rw [findPte_marked hm]; exact hfound,
    hmirror.gains (hm.second a (findPte_aligned hfound))⟩

/-- What a translation relies on. -/
structure XlOk (c : Cpu PlainBus) : Prop where
  mem : SeenOk c
  probe : c.mmuProbe = false
  tlb : TlbOk c

/-- A step of the memory system that at most marks the table. -/
theorem XlOk.memStep (h : XlOk c) {c' : Cpu PlainBus} {m : U32 → U8} (hs : MemStep c c' m)
    (hm : Marked c.seen m) : XlOk c' := by
  refine ⟨hs.ok, by rw [hs.core.front.mmuProbe, h.probe], ?_⟩
  exact h.tlb.marked hs.core.tlbDir (by rw [hs.core.st]) (by rw [hs.seen]; exact hm)

theorem SameMem.seen {c' : Cpu PlainBus} (h : SameMem c c') : c'.seen = c.seen := by
  have hdce : c'.dceOn = c.dceOn := by rw [Cpu.dceOn, h.hid0, Cpu.dceOn]
  unfold Cpu.seen Cpu.flat
  rw [hdce, h.levels, h.bus]

theorem SameMem.seenOk {c' : Cpu PlainBus} (h : SameMem c c') (hok : SeenOk c) : SeenOk c' := by
  intro hdce
  have hdce' : c.dceOn = true := by rw [← hdce, Cpu.dceOn, Cpu.dceOn, h.hid0]
  refine ⟨h.shape (hok hdce').shape, ?_⟩
  rw [h.levels]
  exact (hok hdce').coherent

theorem answered_same (c : Cpu PlainBus) (a : Answer) (ea cia : U32) (write : Bool) :
    SameMem c (c.answered a ea cia write) := by
  cases a with
  | ok x => exact ⟨rfl, rfl, rfl, rfl, rfl, rfl, rfl, rfl, rfl⟩
  | isi bits => exact raiseExc_same c _ _ _
  | dsi bits => exact dsi_same c _ _ _ _

theorem XlOk.answered (h : XlOk c) (a : Answer) (ea cia : U32) (write : Bool) :
    XlOk (c.answered a ea cia write) := by
  have hsame := answered_same c a ea cia write
  have hprobe : (c.answered a ea cia write).mmuProbe = c.mmuProbe := by cases a <;> rfl
  have hsdr1 : (c.answered a ea cia write).st.sdr1 = c.st.sdr1 := by cases a <;> rfl
  refine ⟨hsame.seenOk h.mem, by rw [hprobe, h.probe], ?_⟩
  exact h.tlb.marked (answered_tlbDir c a ea cia write) hsdr1
    (by rw [hsame.seen]; exact Marked.refl _)

/-! ## The search -/

/-- The outcome of a translation is the walk's: its value or its exception, its
mark in storage, and the invariant again. -/
structure Answers (c : Cpu PlainBus) (ea cia : U32) (write : Bool) (w : Walked)
    (r : Option Xlated × Cpu PlainBus) : Prop where
  value : r.1 = w.answer.value
  front : SameFront (c.answered w.answer ea cia write) r.2
  seen : r.2.seen = w.record c.seen
  ok : XlOk r.2

/-- An answer that leaves storage alone. -/
theorem Answers.of_answer (h : XlOk c) (a : Answer) (ea cia : U32) (write : Bool) :
    Answers c ea cia write { answer := a } (a.value, c.answered a ea cia write) :=
  ⟨rfl, SameFront.refl _, (answered_same c a ea cia write).seen, h.answered a ea cia write⟩

/-- What comes before the answer may move lines about and mark the entry. -/
theorem Answers.after {c₁ : Cpu PlainBus} {ea cia : U32} {write : Bool} {w₁ w : Walked}
    {r : Option Xlated × Cpu PlainBus} (hfront : SameFront c c₁)
    (h : Answers c₁ ea cia write w₁ r) (ha : w₁.answer = w.answer)
    (hrecord : w₁.record c₁.seen = w.record c.seen) : Answers c ea cia write w r where
  value := by rw [h.value, ha]
  front := by
    have hanswered := hfront.answered w.answer ea cia write
    rw [← ha] at hanswered ⊢
    exact hanswered.trans h.front
  seen := by rw [h.seen, hrecord]
  ok := h.ok

/-- The reload: the entry found becomes the least recently used way's. -/
theorem XlOk.reload (h : XlOk c) {q : PageReq} (hfree : Free c q) {a : U32}
    (hfound : findPte c.st.sdr1 c.seen q.page = some a) (way : Fin 2) {e : TlbEntry}
    (hv : e.v = true) (hvsid : e.vsid = q.vsid) (hpi : e.pi = q.pageIndex)
    (hmirror : Mirrors (wordAt c.seen (a + 4#32)) q.fetch e) :
    XlOk ((c.setTlb q.fetch q.set way e).setTlbLru q.fetch q.set (way + 1)) := by
  obtain ⟨c', hc'⟩ : ∃ c', (c.setTlb q.fetch q.set way e).setTlbLru q.fetch q.set (way + 1) = c' :=
    ⟨_, rfl⟩
  have hsame : SameMem c c' := by
    rw [← hc']
    exact (setTlb_same c _ _ _ _).trans (setTlbLru_same _ _ _ _)
  have hfront : SameFront c c' := by
    rw [← hc']
    exact (setTlb_front c _ _ _ _).trans (setTlbLru_front _ _ _ _)
  have hdir : c'.tlbDir
      = Function.update c.tlbDir (q.fetch, q.set, way) (some ((q.fetch, q.page), e)) := by
    rw [← hc', tlbDir_setTlbLru, tlbDir_setTlb, if_pos hv, hvsid, hpi]
    rfl
  rw [hc']
  refine ⟨hsame.seenOk h.mem, by rw [hfront.mmuProbe, h.probe], ?_, ?_, ?_⟩
  · rw [hdir]
    exact h.tlb.once.place _ _ _ fun j w _ => hfree j w
  · intro i k e' hi
    rw [hdir] at hi
    by_cases heq : i = (q.fetch, q.set, way)
    · rw [heq, Function.update_self, Option.some.injEq, Prod.mk.injEq] at hi
      rw [heq, ← hi.1]
      rfl
    · rw [Function.update_of_ne heq] at hi
      exact h.tlb.home i k e' hi
  · intro i k e' hi
    rw [hdir] at hi
    rw [hfront.st, hsame.seen]
    by_cases heq : i = (q.fetch, q.set, way)
    · rw [heq, Function.update_self, Option.some.injEq, Prod.mk.injEq] at hi
      rw [← hi.1, ← hi.2]
      exact ⟨a, hfound, hmirror⟩
    · rw [Function.update_of_ne heq] at hi
      exact h.tlb.mirrors i k e' hi

/-- A single bit that is not clear is set. -/
theorem or_twoPow_of_and_ne {x : U32} {k : ℕ} (h : x &&& BitVec.twoPow 32 k ≠ 0#32) :
    x ||| BitVec.twoPow 32 k = x := by
  have hset : x.getLsbD k = true := by
    by_contra hclear
    apply h
    rw [BitVec.and_twoPow, if_neg hclear]
  apply BitVec.eq_of_getLsbD_eq
  intro i hi
  rw [BitVec.getLsbD_or, BitVec.getLsbD_twoPow]
  by_cases hik : k = i
  · rw [← hik, hset, Bool.true_or]
  · simp [hik]

/-- The entry a reload writes mirrors what the search has left in storage. -/
theorem mirrors_reload {w1 x : U32} {fetch : Bool} (hx : x &&& kPteFixed = 0#32)
    (hr : x ||| kPteR = x) (hplain : (fetch && pteGuarded w1) = false) {e : TlbEntry}
    (hrpn : e.rpn = w1 &&& 0xFFFFF000#32) (hwimg : e.wimg = (w1 >>> 3) &&& 0xF#32)
    (hpp : e.pp = w1 &&& 3#32) (hc : e.c = ((w1 ||| x) &&& 0x80#32 != 0#32)) :
    Mirrors (w1 ||| x) fetch e := by
  have hw := gains_or w1 hx
  refine ⟨?_, ?_, ?_, ?_, ?_, ?_⟩
  · rw [hw.field (by decide)]
    exact hrpn
  · rw [hw.wimg]
    exact hwimg
  · rw [hw.pp]
    exact hpp
  · rw [BitVec.or_assoc, hr]
  · rw [hc]
    intro hbit
    exact or_twoPow_of_and_ne (k := 7) (bne_iff_ne.mp hbit)
  · intro hf
    rw [hw.guarded]
    rw [hf, Bool.true_and] at hplain
    exact hplain

/-- The second word of an entry is read, at most moving lines about. -/
theorem XlOk.pteRead (h : XlOk c) (a : U32) : ∃ c₁, c.pteRead a = (wordAt c.seen a, c₁)
    ∧ MemStep c c₁ c.seen ∧ XlOk c₁ ∧ c₁.seen = c.seen := by
  obtain ⟨hread, hword⟩ := pteRead_step h.mem h.probe a
  exact ⟨_, Prod.ext hword rfl, hread, h.memStep hread (Marked.refl _), hread.seen⟩

section Entry

variable (h : XlOk c) {q : PageReq} {a : U32}
include h

/-- A guarded page is not fetched from, and not marked. -/
theorem pteUse_guarded (hg : (q.fetch && pteGuarded (wordAt c.seen (a + 4#32))) = true) :
    Answers c q.ea q.cia q.write (pteWalk c.seen q (some a)) (c.pteUse q a) := by
  obtain ⟨c₁, hr, hread, hok₁, hseen₁⟩ := h.pteRead (a + 4#32)
  have hguard : q.fetch = true ∧ wordAt c.seen (a + 4#32) &&& (kWimgG <<< 3) ≠ 0#32 := by
    unfold pteGuarded at hg
    rwa [Bool.and_eq_true, bne_iff_ne] at hg
  unfold pteUse
  simp only [hr]
  rw [if_pos hguard]
  refine (Answers.of_answer hok₁ (.isi 0x10000000#32) q.ea q.cia q.write).after
    hread.core.front ?_ ?_
  · simp only [pteWalk, pteAnswer, hg, if_true]
  · simp only [pteWalk, Walked.record, pteBits, hg, if_true, orWord_zero]
    exact hseen₁

variable (hfound : findPte c.st.sdr1 c.seen q.page = some a)
  (hg : (q.fetch && pteGuarded (wordAt c.seen (a + 4#32))) = false)
include hfound hg

/-- The page does not allow the access: R alone is recorded. -/
theorem pteUse_refused
    (hallow : ppAllows (wordAt c.seen (a + 4#32) &&& 3#32) q.key q.write = false) :
    Answers c q.ea q.cia q.write (pteWalk c.seen q (some a)) (c.pteUse q a) := by
  obtain ⟨c₁, hr, hread, hok₁, hseen₁⟩ := h.pteRead (a + 4#32)
  have hplain : ¬ (q.fetch = true ∧ wordAt c.seen (a + 4#32) &&& (kWimgG <<< 3) ≠ 0#32) := by
    unfold pteGuarded at hg
    rw [← bne_iff_ne, ← Bool.and_eq_true, hg]
    exact Bool.false_ne_true
  have hput := pteUpdate_step hok₁.mem hok₁.probe (a + 4#32) kPteR
  rw [hseen₁] at hput
  have hok₂ := hok₁.memStep hput (by
    rw [hseen₁]
    exact marked_orWord _ (findPte_aligned hfound) (by decide))
  unfold pteUse
  simp only [hr, if_neg hplain, hallow, Bool.not_false, if_true, xlFault_eq]
  rw [← refuse_value q.fetch 0x08000000#32 0x08000000#32]
  refine (Answers.of_answer hok₂ (refuse q.fetch 0x08000000#32 0x08000000#32) q.ea q.cia
    q.write).after (hread.core.front.trans hput.core.front) ?_ ?_
  · simp only [pteWalk, pteAnswer, hg, hallow, Bool.not_false, Bool.false_eq_true, if_false,
      if_true]
  · simp only [pteWalk, Walked.record, pteBits, hg, hallow, Bool.and_false, Bool.false_eq_true,
      if_false]
    exact hput.seen

/-- The page allows the access: R is recorded, and C for a store, and the entry is reloaded. -/
theorem pteUse_granted (hfree : Free c q)
    (hallow : ppAllows (wordAt c.seen (a + 4#32) &&& 3#32) q.key q.write = true) :
    Answers c q.ea q.cia q.write (pteWalk c.seen q (some a)) (c.pteUse q a) := by
  obtain ⟨c₁, hr, hread, hok₁, hseen₁⟩ := h.pteRead (a + 4#32)
  obtain ⟨w1, hw1⟩ : ∃ w1, wordAt c.seen (a + 4#32) = w1 := ⟨_, rfl⟩
  rw [hw1] at hr hg hallow
  have hplain : ¬ (q.fetch = true ∧ w1 &&& (kWimgG <<< 3) ≠ 0#32) := by
    unfold pteGuarded at hg
    rw [← bne_iff_ne, ← Bool.and_eq_true, hg]
    exact Bool.false_ne_true
  obtain ⟨x, hx⟩ : ∃ x, pteBits w1 q = x := ⟨_, rfl⟩
  have hxbits : x = if q.write then kPteR ||| kPteC else kPteR := by
    rw [← hx, pteBits, hg, hallow, Bool.and_true]
    rfl
  have hnw : (if q.write then w1 ||| 0x00000100#32 ||| 0x00000080#32
      else w1 ||| 0x00000100#32) = w1 ||| x := by
    rw [hxbits]
    cases q.write
    · rfl
    · exact BitVec.or_assoc _ _ _
  have hxfixed : x &&& kPteFixed = 0#32 := by rw [← hx]; exact pteBits_fixed w1 q
  have hput := pteUpdate_step hok₁.mem hok₁.probe (a + 4#32) x
  rw [hseen₁, hw1] at hput
  obtain ⟨c₂, hc₂⟩ : ∃ c₂, c₁.pteUpdate (a + 4#32) w1 (w1 ||| x) = c₂ := ⟨_, rfl⟩
  rw [hc₂] at hput
  have hmark : Marked c.seen (orWord c.seen (a + 4#32) x) :=
    marked_orWord _ (findPte_aligned hfound) hxfixed
  have hok₂ := hok₁.memStep hput (by rw [hseen₁]; exact hmark)
  have hfront₂ : SameFront c c₂ := hread.core.front.trans hput.core.front
  -- the marks move no entry, and the page is still in neither way
  have hfound₂ : findPte c₂.st.sdr1 c₂.seen q.page = some a := by
    rw [hfront₂.st, hput.seen, findPte_marked hmark]
    exact hfound
  have hfree₂ : Free c₂ q := by
    unfold Free
    rw [hput.core.tlbDir, hread.core.tlbDir]
    exact hfree
  have hreload := hok₂.reload hfree₂ hfound₂ (c₂.tlbLruOf q.fetch q.set)
    (e := { v := true, c := (w1 ||| x) &&& 0x80#32 != 0#32, vsid := q.vsid,
            pi := q.pageIndex, rpn := w1 &&& 0xFFFFF000#32, wimg := (w1 >>> 3) &&& 0xF#32,
            pp := w1 &&& 3#32 }) rfl rfl rfl (by
      rw [hput.seen, wordAt_orWord_self, hw1]
      refine mirrors_reload hxfixed ?_ hg rfl rfl rfl rfl
      rw [hxbits]
      cases q.write <;> decide)
  have hanswer : (pteWalk c.seen q (some a)).answer
      = .ok ((w1 &&& 0xFFFFF000#32) ||| (q.ea &&& 0xFFF#32), (w1 >>> 3) &&& 0xF#32) := by
    simp only [pteWalk, pteAnswer, hw1, hg, hallow, Bool.not_true, Bool.false_eq_true, if_false]
  unfold pteUse
  simp only [hr, if_neg hplain, hallow, Bool.not_true, Bool.false_eq_true, if_false, hnw, hc₂,
    hok₂.probe]
  refine ⟨by rw [hanswer]; rfl, ?_, ?_, hreload⟩
  · rw [hanswer]
    exact hfront₂.trans ((setTlb_front _ _ _ _ _).trans (setTlbLru_front _ _ _ _))
  · rw [SameMem.seen ((setTlb_same c₂ _ _ _ _).trans (setTlbLru_same _ _ _ _)), hput.seen]
    simp only [pteWalk, Walked.record, hw1, hx]

end Entry

/-- **A matching entry**: protection, R and C, and the reload. -/
theorem pteUse_spec (h : XlOk c) {q : PageReq} (hfree : Free c q) {a : U32}
    (hfound : findPte c.st.sdr1 c.seen q.page = some a) :
    Answers c q.ea q.cia q.write (pteWalk c.seen q (some a)) (c.pteUse q a) := by
  by_cases hg : (q.fetch && pteGuarded (wordAt c.seen (a + 4#32))) = true
  · exact pteUse_guarded h hg
  rw [Bool.not_eq_true] at hg
  by_cases hallow : ppAllows (wordAt c.seen (a + 4#32) &&& 3#32) q.key q.write = true
  · exact pteUse_granted h hfound hg hfree hallow
  · rw [Bool.not_eq_true] at hallow
    exact pteUse_refused h hfound hg hallow

theorem ptegAddr_eq (c : Cpu PlainBus) (q : PageReq) (slot : Bool × ℕ) :
    c.ptegAddr q slot.1 + BitVec.ofNat 32 slot.2 * 8#32 = pteAddr c.st.sdr1 q.page slot := rfl

/-- **The search** answers what the table holds. Along it the slots left are
still the ones the page's entry is among, if there is one. -/
theorem pteSearch_spec (q : PageReq) (slots : List (Bool × ℕ)) : ∀ c : Cpu PlainBus, XlOk c →
    Free c q → findPteIn c.st.sdr1 c.seen q.page slots = findPte c.st.sdr1 c.seen q.page →
    Answers c q.ea q.cia q.write (walkPage c.st.sdr1 c.seen q) (pteSearch q slots c) := by
  induction slots with
  | nil =>
      intro c h hfree hslots
      have hnone : findPte c.st.sdr1 c.seen q.page = none := hslots.symm
      have hwalk : walkPage c.st.sdr1 c.seen q
          = { answer := refuse q.fetch 0x40000000#32 0x40000000#32 } := by
        rw [walkPage, hnone]
        rfl
      have hrefuse := Answers.of_answer h (refuse q.fetch 0x40000000#32 0x40000000#32) q.ea q.cia
        q.write
      rw [refuse_value] at hrefuse
      rw [hwalk, pteSearch, xlFault_eq]
      exact hrefuse
  | cons slot rest ih =>
      intro c h hfree hslots
      obtain ⟨hread, hw0⟩ := pteRead_step h.mem h.probe (pteAddr c.st.sdr1 q.page slot)
      obtain ⟨r, hr⟩ : ∃ r, c.pteRead (pteAddr c.st.sdr1 q.page slot) = r := ⟨_, rfl⟩
      obtain ⟨w0, c₁⟩ := r
      rw [hr] at hread hw0
      have hok₁ := h.memStep hread (Marked.refl _)
      have hst : c₁.st = c.st := hread.core.st
      have hseen : c₁.seen = c.seen := hread.seen
      have hfree₁ : Free c₁ q := by
        unfold Free
        rw [hread.core.tlbDir]
        exact hfree
      have hstep : pteSearch q (slot :: rest) c
          = if q.page.names w0 slot.1 then c₁.pteUse q (pteAddr c.st.sdr1 q.page slot)
            else pteSearch q rest c₁ := by
        rw [pteSearch, ptegAddr_eq, hr]
        rfl
      rw [hstep]
      simp only at hw0
      rw [hw0]
      unfold findPteIn at hslots
      rw [List.find?_cons] at hslots
      by_cases hnames : q.page.names (wordAt c.seen (pteAddr c.st.sdr1 q.page slot)) slot.1 = true
      · -- the first entry that names the page is the page's
        rw [hnames, Option.map_some] at hslots
        rw [if_pos hnames, walkPage, ← hslots]
        have huse := pteUse_spec hok₁ hfree₁ (by rw [hst, hseen]; exact hslots.symm)
        rw [hseen] at huse
        exact huse.after hread.core.front rfl (by rw [hseen])
      · rw [Bool.not_eq_true] at hnames
        rw [hnames] at hslots
        rw [if_neg (by rw [hnames]; simp)]
        have hrest := ih c₁ hok₁ hfree₁ (by rw [hst, hseen]; exact hslots)
        rw [hst, hseen] at hrest
        exact hrest.after hread.core.front rfl (by rw [hseen])

/-! ## The TLB -/

/-- Where a page can be: in the set its index selects. -/
theorem XlOk.slot (h : XlOk c) {q : PageReq} {i : Bool × BitVec 6 × Fin 2} {e : TlbEntry}
    (hi : c.tlbDir i = some ((q.fetch, q.page), e)) :
    i = (q.fetch, q.set, i.2.2) ∧ c.tlbOf q.fetch q.set i.2.2 = e ∧ e.v = true
      ∧ e.vsid = q.vsid ∧ e.pi = q.pageIndex := by
  have hset : i.2.1 = q.set := h.tlb.home i _ e hi
  have hdir := hi
  unfold tlbDir at hi
  simp only at hi
  by_cases hv : (c.tlbOf i.1 i.2.1 i.2.2).v = true
  · rw [if_pos hv, Option.some.injEq, Prod.mk.injEq, Prod.mk.injEq] at hi
    obtain ⟨⟨hside, hpage⟩, he⟩ := hi
    rw [hside, hset] at he
    have hpage' := congrArg Page.vsid hpage
    have hindex' := congrArg Page.index hpage
    simp only [hside, hset, he] at hpage' hindex'
    refine ⟨?_, he, ?_, hpage', hindex'⟩
    · exact Prod.ext hside (Prod.ext hset rfl)
    · rw [hside, hset, he] at hv
      exact hv
  · rw [if_neg hv] at hi
    exact absurd hi (by simp)

theorem fin_two (w : Fin 2) : w = 0 ∨ w = 1 := by omega

/-- The lookup misses exactly if nothing holds the page. -/
theorem XlOk.free_of_miss (h : XlOk c) {q : PageReq} (hmiss : c.tlbWay q = none) : Free c q := by
  intro i e hi
  obtain ⟨-, hslot, hv, hvsid, hpi⟩ := h.slot hi
  unfold tlbWay at hmiss
  rw [List.find?_eq_none] at hmiss
  have hmem : i.2.2 ∈ [(0 : Fin 2), 1] := by
    rcases fin_two i.2.2 with hw | hw <;> rw [hw] <;> simp
  have hno := hmiss i.2.2 hmem
  simp only [hslot, hv, hvsid, hpi, beq_self_eq_true, Bool.and_self, not_true_eq_false] at hno

/-- The lookup finds the slot that holds the page. -/
theorem tlbDir_of_hit {q : PageReq} {w : Fin 2} (hit : c.tlbWay q = some w) :
    c.tlbDir (q.fetch, q.set, w) = some ((q.fetch, q.page), c.tlbOf q.fetch q.set w) := by
  have hfound := List.find?_some hit
  simp only [Bool.and_eq_true, beq_iff_eq] at hfound
  obtain ⟨⟨hv, hvsid⟩, hpi⟩ := hfound
  unfold tlbDir
  simp only
  rw [if_pos hv, hvsid, hpi]
  rfl

/-- Dropping the entry of the page: nothing holds it then. -/
theorem XlOk.drop (h : XlOk c) {q : PageReq} {w : Fin 2} (hit : c.tlbWay q = some w)
    {e : TlbEntry} (hv : e.v = false) :
    XlOk (c.setTlb q.fetch q.set w e) ∧ Free (c.setTlb q.fetch q.set w e) q := by
  have hsame := setTlb_same c q.fetch q.set w e
  have hfront := setTlb_front c q.fetch q.set w e
  have hdir : (c.setTlb q.fetch q.set w e).tlbDir
      = Function.update c.tlbDir (q.fetch, q.set, w) none := by
    rw [tlbDir_setTlb, if_neg (by rw [hv]; simp)]
  have hleft : ∀ i k e', (c.setTlb q.fetch q.set w e).tlbDir i = some (k, e') →
      i ≠ (q.fetch, q.set, w) ∧ c.tlbDir i = some (k, e') := by
    intro i k e' hi
    rw [hdir] at hi
    by_cases heq : i = (q.fetch, q.set, w)
    · rw [heq, Function.update_self] at hi
      exact absurd hi (by simp)
    · rw [Function.update_of_ne heq] at hi
      exact ⟨heq, hi⟩
  refine ⟨⟨hsame.seenOk h.mem, by rw [hfront.mmuProbe, h.probe], ?_, ?_, ?_⟩, ?_⟩
  · rw [hdir]
    exact h.tlb.once.clear _
  · intro i k e' hi
    exact h.tlb.home i k e' (hleft i k e' hi).2
  · intro i k e' hi
    rw [hfront.st, hsame.seen]
    exact h.tlb.mirrors i k e' (hleft i k e' hi).2
  · intro i e' hi
    obtain ⟨hne, hi'⟩ := hleft i _ e' hi
    exact hne (h.tlb.once i _ _ _ _ hi' (tlbDir_of_hit hit))

theorem guarded_iff (w1 : U32) :
    ((w1 >>> 3) &&& 0xF#32) &&& kWimgG ≠ 0#32 ↔ pteGuarded w1 = true := by
  have hbit : ((w1 >>> 3) &&& 0xF#32).getLsbD 0 = w1.getLsbD 3 := by
    rw [BitVec.getLsbD_and, BitVec.getLsbD_ushiftRight]
    exact Bool.and_true _
  unfold pteGuarded
  rw [bne_iff_ne, show kWimgG = BitVec.twoPow 32 0 by decide,
    show BitVec.twoPow 32 0 <<< 3 = BitVec.twoPow 32 3 by decide, BitVec.and_twoPow,
    BitVec.and_twoPow, hbit]
  cases w1.getLsbD 3 <;> decide

section Hit

variable {q : PageReq} {a w1 : U32} {e : TlbEntry} (hmirror : Mirrors w1 q.fetch e)
include hmirror

theorem Mirrors.plain_fetch : (q.fetch && pteGuarded w1) = false := by
  cases hf : q.fetch with
  | false => rfl
  | true => exact hmirror.plain hf

variable (hw1 : wordAt c.seen (a + 4#32) = w1)
include hw1

/-- A hit that allows the access answers as the search would, -/
theorem pteWalk_hit_answer (hallow : ppAllows e.pp q.key q.write = true) :
    (pteWalk c.seen q (some a)).answer = .ok (e.rpn ||| (q.ea &&& 0xFFF#32), e.wimg) := by
  rw [hmirror.pp] at hallow
  simp only [pteWalk, pteAnswer, hw1, hmirror.plain_fetch, hallow, hmirror.rpn, hmirror.wimg,
    Bool.not_true, Bool.false_eq_true, if_false]

/-- and what that would record is recorded, unless the access is the first store. -/
theorem pteWalk_hit_record (hallow : ppAllows e.pp q.key q.write = true)
    (hfirst : ¬ (q.write && !e.c) = true) :
    (pteWalk c.seen q (some a)).record c.seen = c.seen := by
  refine orWord_of_mem ?_
  rw [pteBits, hw1, hmirror.plain_fetch, ← hmirror.pp, hallow, Bool.and_true]
  cases hwrite : q.write with
  | false => exact hmirror.referenced
  | true =>
      have hc : e.c = true := by
        rw [hwrite, Bool.true_and, Bool.not_eq_true', Bool.not_eq_false] at hfirst
        exact hfirst
      show w1 ||| (kPteR ||| kPteC) = _
      rw [← BitVec.or_assoc, hmirror.referenced, hmirror.changed hc]

end Hit

/-- **The TLB and the table behind it** answer what the table holds. -/
theorem pageXlate_spec (h : XlOk c) (q : PageReq) :
    Answers c q.ea q.cia q.write (walkPage c.st.sdr1 c.seen q) (c.pageXlate q) := by
  unfold pageXlate
  rw [if_neg (by rw [h.probe]; simp)]
  cases hway : c.tlbWay q with
  | none => exact pteSearch_spec q pteSlots c h (h.free_of_miss hway) rfl
  | some w =>
      obtain ⟨a, hfound, hmirror⟩ := h.tlb.mirrors _ _ _ (tlbDir_of_hit hway)
      obtain ⟨e, he⟩ : ∃ e, c.tlbOf q.fetch q.set w = e := ⟨_, rfl⟩
      rw [he] at hmirror
      simp only at hfound hmirror
      obtain ⟨w1, hw1⟩ : ∃ w1, wordAt c.seen (a + 4#32) = w1 := ⟨_, rfl⟩
      rw [hw1] at hmirror
      have hplain := hmirror.plain_fetch
      have hguard : ¬ (q.fetch = true ∧ e.wimg &&& kWimgG ≠ 0#32) := by
        rw [hmirror.wimg, guarded_iff, ← Bool.and_eq_true, hplain]
        simp
      have hwalk : walkPage c.st.sdr1 c.seen q = pteWalk c.seen q (some a) := by
        rw [walkPage, hfound]
      simp only [he]
      rw [if_neg hguard]
      by_cases hallow : ppAllows e.pp q.key q.write = true
      · rw [if_neg (by rw [hallow]; simp)]
        by_cases hfirst : (q.write && !e.c) = true
        · -- the first store through the entry: searched again
          rw [if_pos hfirst]
          obtain ⟨hok, hfree⟩ := h.drop (e := { e with v := false, c := e.c }) hway rfl
          have hsame := setTlb_same c q.fetch q.set w { e with v := false, c := e.c }
          have hfront := setTlb_front c q.fetch q.set w { e with v := false, c := e.c }
          have hsearch := pteSearch_spec q pteSlots _ hok hfree rfl
          rw [hfront.st, hsame.seen] at hsearch
          exact hsearch.after hfront rfl (by rw [hsame.seen])
        · rw [if_neg hfirst, hwalk]
          have hsame := setTlbLru_same c q.fetch q.set (w + 1)
          have hfront := setTlbLru_front c q.fetch q.set (w + 1)
          have hanswer := pteWalk_hit_answer hmirror hw1 hallow
          refine ⟨by rw [hanswer]; rfl, by rw [hanswer]; exact hfront, ?_,
            hsame.seenOk h.mem, by rw [hfront.mmuProbe, h.probe], ?_⟩
          · rw [pteWalk_hit_record hmirror hw1 hallow hfirst, hsame.seen]
          · exact h.tlb.marked (tlbDir_setTlbLru c _ _ _) (by rw [hfront.st])
              (by rw [hsame.seen]; exact Marked.refl _)
      · -- refused: R is already recorded
        rw [if_pos (by simpa using hallow), xlFault_eq]
        have hrefuse := Answers.of_answer h (refuse q.fetch 0x08000000#32 0x08000000#32) q.ea
          q.cia q.write
        rw [refuse_value] at hrefuse
        rw [Bool.not_eq_true, hmirror.pp] at hallow
        refine hrefuse.after (SameFront.refl c) ?_ ?_
        · simp only [hwalk, pteWalk, pteAnswer, hw1, hplain, hallow, Bool.not_false,
            Bool.false_eq_true, if_false, if_true]
        · rw [hwalk]
          symm
          refine orWord_of_mem ?_
          rw [pteBits, hw1, hplain, hallow, Bool.and_false]
          exact hmirror.referenced

/-! ## The translation -/

/-- What `translate` does before the TLB. -/
theorem translate_eq (c : Cpu PlainBus) (ea : U32) (write fetch : Bool) :
    c.translate ea write fetch
      = match toPage c.st c.realModeInhibitBase ea write fetch with
        | .inl a => (a.value, c.answered a ea (accessCia c.st ea fetch) write)
        | .inr q => c.pageXlate q := by
  unfold translate toPage
  by_cases hreal : c.st.msr &&& (if fetch then msr.IR else msr.DR) = 0#32
  · rw [if_pos hreal, if_pos hreal]
    rfl
  · rw [if_neg hreal, if_neg hreal]
    have huser : c.userMode = (c.st.msr &&& msr.PR != 0#32) := rfl
    simp only [huser]
    cases hbat : (if fetch then batLookup c.st.ibatu c.st.ibatl ea (c.st.msr &&& msr.PR != 0#32)
        else batLookup c.st.dbatu c.st.dbatl ea (c.st.msr &&& msr.PR != 0#32)) with
    | some b =>
        simp only [batXlate, batAnswer]
        by_cases hguard : fetch = true ∧ b.wimg &&& kWimgG ≠ 0#32
        · rw [if_pos hguard, if_pos hguard]
          simp only [hguard.1, if_true]
          rfl
        · rw [if_neg hguard, if_neg hguard]
          by_cases hpp : b.pp = 0#32 ∨ (write = true ∧ b.pp &&& 1#32 ≠ 0#32)
          · rw [if_pos hpp, if_pos hpp, xlFault_eq, refuse_value]
            rfl
          · rw [if_neg hpp, if_neg hpp]
            rfl
    | none =>
        simp only [segXlate, huser]
        by_cases ht : c.st.sr (ea.extractLsb' 28 4) &&& 0x80000000#32 ≠ 0#32
        · rw [if_pos ht, if_pos ht, xlFault_eq]
          simp only [refuse_value]
          rfl
        · rw [if_neg ht, if_neg ht]
          by_cases hn : fetch = true ∧ c.st.sr (ea.extractLsb' 28 4) &&& 0x10000000#32 ≠ 0#32
          · rw [if_pos hn, if_pos hn]
            rfl
          · rw [if_neg hn, if_neg hn]
            rfl

/-- The request of a page access carries the access. -/
theorem toPage_request {s : CpuState} {inhibitBase ea : U32} {write fetch : Bool} {q : PageReq}
    (h : toPage s inhibitBase ea write fetch = .inr q) :
    q.ea = ea ∧ q.cia = accessCia s ea fetch ∧ q.write = write ∧ q.fetch = fetch := by
  unfold toPage at h
  by_cases hreal : s.msr &&& (if fetch then msr.IR else msr.DR) = 0#32
  · rw [if_pos hreal] at h
    exact absurd h (by simp)
  · rw [if_neg hreal] at h
    simp only at h
    split at h
    · exact absurd h (by simp)
    · split at h
      · exact absurd h (by simp)
      · split at h
        · exact absurd h (by simp)
        · rw [Sum.inr.injEq] at h
          rw [← h]
          exact ⟨rfl, rfl, rfl, rfl⟩

/-- **A translation is the walk.** -/
theorem translate_spec (h : XlOk c) (ea : U32) (write fetch : Bool) :
    Answers c ea (accessCia c.st ea fetch) write
      (walk c.st c.realModeInhibitBase c.seen ea write fetch) (c.translate ea write fetch) := by
  rw [translate_eq]
  unfold walk
  cases hpage : toPage c.st c.realModeInhibitBase ea write fetch with
  | inl a => exact Answers.of_answer h a ea _ write
  | inr q =>
      obtain ⟨hea, hcia, hwrite, -⟩ := toPage_request hpage
      have hspec := pageXlate_spec h q
      rw [hea, hcia, hwrite] at hspec
      exact hspec

end Cpu

end OpenPowerMac
