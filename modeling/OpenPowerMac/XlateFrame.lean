/-
What a translation and an access leave alone, and what they look at.

The same argument as for the memory system, one layer up. A translation reads the
registers that make up the mapping and works on the memory system and the TLBs; an
access works on the one-page caches as well. Run on the registers of another
processor that has the same mapping, each does the same to the caches and gives
the same answer, and where it refuses, it raises the same exception from that
processor's own registers (`translate_on`, `readV_on`, `writeV_on`).
-/
import OpenPowerMac.Frame
import OpenPowerMac.TlbWalk

set_option autoImplicit false

namespace OpenPowerMac

namespace Cpu

variable {β : Type}

/-! ## The mapping -/

/-- The registers a translation looks at. -/
structure SameRegime (c d : Cpu β) : Prop extends SameSettings c d where
  msr : d.st.msr = c.st.msr
  sr : d.st.sr = c.st.sr
  ibatu : d.st.ibatu = c.st.ibatu
  ibatl : d.st.ibatl = c.st.ibatl
  dbatu : d.st.dbatu = c.st.dbatu
  dbatl : d.st.dbatl = c.st.dbatl
  sdr1 : d.st.sdr1 = c.st.sdr1
  mmuProbe : d.mmuProbe = c.mmuProbe
  inhibitBase : d.realModeInhibitBase = c.realModeInhibitBase

theorem SameRegime.refl (c : Cpu β) : SameRegime c c :=
  ⟨SameSettings.refl c, rfl, rfl, rfl, rfl, rfl, rfl, rfl, rfl, rfl⟩

/-- The settings stand through a step of the memory system and the TLBs. -/
theorem SameFront.settings {c c' d : Cpu β} (h : SameFront c c') (hs : SameSettings c d) :
    SameSettings c' d := by
  have hinert : c'.l2Inert = c.l2Inert := by
    have heq : c' = c.withFront c' := h
    rw [heq]
    rfl
  exact ⟨by rw [hs.hid0, h.st], by rw [hs.l2cr, h.st], by rw [hs.l2Inert, hinert]⟩

theorem SameFront.base {c c' : Cpu β} (h : SameFront c c') :
    c'.realModeInhibitBase = c.realModeInhibitBase := by
  have heq : c' = c.withFront c' := h
  rw [heq]
  rfl

/-- The mapping stands through a step of the memory system and the TLBs. -/
theorem SameRegime.next {c c' d : Cpu β} (hs : SameRegime c d) (h : SameFront c c') :
    SameRegime c' d where
  toSameSettings := h.settings hs.toSameSettings
  msr := by rw [hs.msr, h.st]
  sr := by rw [hs.sr, h.st]
  ibatu := by rw [hs.ibatu, h.st]
  ibatl := by rw [hs.ibatl, h.st]
  dbatu := by rw [hs.dbatu, h.st]
  dbatl := by rw [hs.dbatl, h.st]
  sdr1 := by rw [hs.sdr1, h.st]
  mmuProbe := by rw [hs.mmuProbe, h.mmuProbe]
  inhibitBase := by rw [hs.inhibitBase, h.base]

section Lift

variable {α : Type} {f : Cpu β → Cpu β} {p : Cpu β → α × Cpu β} {c d : Cpu β}

/-- An operation of the memory system, under another processor's registers. -/
theorem MemOnly.onFront (hf : MemOnly f) (hs : SameSettings c d) :
    f (d.withFront c) = d.withFront (f c) := by
  have hcore : SameCore c (f c) := hf.core c
  calc f (d.withFront c)
      = f ((d.withFront c).withMem c) := rfl
    _ = (d.withFront c).withMem (f c) := hf c (d.withFront c) ⟨hs.hid0, hs.l2cr, hs.l2Inert⟩
    _ = d.withFront (c.withMem (f c)) := rfl
    _ = d.withFront (f c) := congrArg _ hcore.symm

/-- The same with a result. -/
theorem MemOnlyV.onFront (hp : MemOnlyV p) (hs : SameSettings c d) :
    p (d.withFront c) = ((p c).1, d.withFront (p c).2) := by
  have hcore : SameCore c (p c).2 := hp.core c
  calc p (d.withFront c)
      = p ((d.withFront c).withMem c) := rfl
    _ = ((p c).1, (d.withFront c).withMem (p c).2) :=
        hp c (d.withFront c) ⟨hs.hid0, hs.l2cr, hs.l2Inert⟩
    _ = ((p c).1, d.withFront (c.withMem (p c).2)) := rfl
    _ = ((p c).1, d.withFront (p c).2) := congrArg (fun m => ((p c).1, d.withFront m)) hcore.symm

end Lift

/-! ## The translation -/

/-- The translation ends in an answer and moves the memory system and the TLBs,
the same whichever processor's registers it is run under. -/
def AnswersOn (c : Cpu β) (ea : U32) (write : Bool)
    (p : Cpu β → U32 → Option Xlated × Cpu β) : Prop :=
  ∃ (a : Answer) (m : Cpu β), SameFront c m ∧ ∀ (d : Cpu β) (cia : U32), SameRegime c d →
    p (d.withFront c) cia = (a.value, (d.answered a ea cia write).withFront m)

/-- An answer that is given at once. -/
theorem AnswersOn.of_answer {c : Cpu β} {ea : U32} {write : Bool}
    {p : Cpu β → U32 → Option Xlated × Cpu β} (a : Answer)
    (h : ∀ (d : Cpu β) (cia : U32), SameRegime c d →
      p (d.withFront c) cia = (a.value, (d.withFront c).answered a ea cia write)) :
    AnswersOn c ea write p := by
  refine ⟨a, c, SameFront.refl c, fun d cia hs => ?_⟩
  rw [h d cia hs]
  cases a <;> rfl

/-- What is done first moves the memory system and the TLBs only. -/
theorem AnswersOn.after {c c₁ : Cpu β} {ea : U32} {write : Bool}
    {p q : Cpu β → U32 → Option Xlated × Cpu β} (hfront : SameFront c c₁)
    (h : AnswersOn c₁ ea write q)
    (hp : ∀ (d : Cpu β) (cia : U32), SameRegime c d →
      p (d.withFront c) cia = q (d.withFront c₁) cia) : AnswersOn c ea write p := by
  obtain ⟨a, m, hm, hq⟩ := h
  refine ⟨a, m, hfront.trans hm, fun d cia hs => ?_⟩
  rw [hp d cia hs, hq d cia (hs.next hfront)]

/-- A fault is the refusal it raises. -/
theorem xlFault_answered (c : Cpu β) (ea cia : U32) (write fetch : Bool) (i d : U32) :
    (none, c.xlFault ea cia write fetch i d)
      = ((refuse fetch i d).value, c.answered (refuse fetch i d) ea cia write) := by
  rw [refuse_value, xlFault_eq]

/-- The request, at another instruction. -/
def PageReq.at (q : PageReq) (cia : U32) : PageReq := { q with cia := cia }

@[simp] theorem PageReq.at_ea (q : PageReq) (cia : U32) : (q.at cia).ea = q.ea := rfl
@[simp] theorem PageReq.at_cia (q : PageReq) (cia : U32) : (q.at cia).cia = cia := rfl
@[simp] theorem PageReq.at_write (q : PageReq) (cia : U32) : (q.at cia).write = q.write := rfl
@[simp] theorem PageReq.at_fetch (q : PageReq) (cia : U32) : (q.at cia).fetch = q.fetch := rfl
@[simp] theorem PageReq.at_key (q : PageReq) (cia : U32) : (q.at cia).key = q.key := rfl
@[simp] theorem PageReq.at_set (q : PageReq) (cia : U32) : (q.at cia).set = q.set := rfl

section Walk

variable [Bus β]

/-- A read of the page table keeps to the memory system, -/
theorem pteRead_front (c : Cpu β) (a : U32) : SameFront c (c.pteRead a).2 := by
  unfold pteRead
  split
  · rfl
  · exact ((memRead_memOnly a 4 2#32).core c).front

/-- and reads the same under either processor. -/
theorem pteRead_on {c d : Cpu β} (hs : SameRegime c d) (a : U32) :
    (d.withFront c).pteRead a = ((c.pteRead a).1, d.withFront (c.pteRead a).2) := by
  have hprobe : (d.withFront c).mmuProbe = c.mmuProbe := hs.mmuProbe
  have hread : (d.withFront c).memRead a 4 2#32
      = ((c.memRead a 4 2#32).1, d.withFront (c.memRead a 4 2#32).2) :=
    (memRead_memOnly a 4 2#32).onFront hs.toSameSettings
  unfold pteRead
  rw [hprobe, hread]
  split <;> rfl

/-- The write-back of an entry keeps to it as well. -/
theorem pteUpdate_front (c : Cpu β) (a w1 nw1 : U32) : SameFront c (c.pteUpdate a w1 nw1) := by
  unfold pteUpdate
  split
  · exact ((memWrite_memOnly a 4 _ 2#32).core c).front
  · rfl

theorem pteUpdate_on {c d : Cpu β} (hs : SameRegime c d) (a w1 nw1 : U32) :
    (d.withFront c).pteUpdate a w1 nw1 = d.withFront (c.pteUpdate a w1 nw1) := by
  have hprobe : (d.withFront c).mmuProbe = c.mmuProbe := hs.mmuProbe
  have hwrite : (d.withFront c).memWrite a 4 (nw1.setWidth 64) 2#32
      = d.withFront (c.memWrite a 4 (nw1.setWidth 64) 2#32) :=
    (memWrite_memOnly a 4 _ 2#32).onFront hs.toSameSettings
  unfold pteUpdate
  rw [hprobe, hwrite]
  split <;> rfl

omit [Bus β] in
/-- The reload, under either processor's registers. -/
theorem reload_on (c d : Cpu β) (fetch : Bool) (s : BitVec 6) (e : TlbEntry) :
    ((d.withFront c).setTlb fetch s ((d.withFront c).tlbLruOf fetch s) e).setTlbLru fetch s
        ((d.withFront c).tlbLruOf fetch s + 1)
      = d.withFront ((c.setTlb fetch s (c.tlbLruOf fetch s) e).setTlbLru fetch s
          (c.tlbLruOf fetch s + 1)) := by
  cases fetch <;> rfl

/-- The permitted arm of `pteUse`: the write-back and the reload. -/
theorem pteGrant_on (c : Cpu β) (q : PageReq) (a w1 nw1 : U32) :
    AnswersOn c q.ea q.write fun d _ =>
      let wimg := (w1 >>> 3) &&& 0xF#32
      let d := d.pteUpdate (a + 4#32) w1 nw1
      let d :=
        if d.mmuProbe then d
        else
          let way := d.tlbLruOf q.fetch q.set
          (d.setTlb q.fetch q.set way
            { v := true, c := nw1 &&& 0x80#32 != 0#32, vsid := q.vsid, pi := q.pageIndex,
              rpn := w1 &&& 0xFFFFF000#32, wimg := wimg, pp := w1 &&& 3#32 }).setTlbLru
            q.fetch q.set (way + 1)
      (some ((w1 &&& 0xFFFFF000#32) ||| (q.ea &&& 0xFFF#32), wimg), d) := by
  have hput := pteUpdate_front c (a + 4#32) w1 nw1
  obtain ⟨c₁, hc₁⟩ : ∃ c₁, c.pteUpdate (a + 4#32) w1 nw1 = c₁ := ⟨_, rfl⟩
  rw [hc₁] at hput
  by_cases hprobe : c₁.mmuProbe = true
  · refine ⟨.ok ((w1 &&& 0xFFFFF000#32) ||| (q.ea &&& 0xFFF#32), (w1 >>> 3) &&& 0xF#32), c₁, hput,
      fun d cia hs => ?_⟩
    have hprobe' : (d.withFront c₁).mmuProbe = true := by
      rw [← hprobe]
      exact (hs.next hput).mmuProbe
    simp only [pteUpdate_on hs, hc₁, hprobe', if_true]
    rfl
  · refine ⟨.ok ((w1 &&& 0xFFFFF000#32) ||| (q.ea &&& 0xFFF#32), (w1 >>> 3) &&& 0xF#32), _, (hput.trans (setTlb_front c₁ q.fetch q.set (c₁.tlbLruOf q.fetch q.set)
      ⟨true, nw1 &&& 0x80#32 != 0#32, q.vsid, q.pageIndex, w1 &&& 0xFFFFF000#32,
        (w1 >>> 3) &&& 0xF#32, w1 &&& 3#32⟩)).trans
      (setTlbLru_front _ q.fetch q.set (c₁.tlbLruOf q.fetch q.set + 1)), fun d cia hs => ?_⟩
    have hprobe' : ¬ (d.withFront c₁).mmuProbe = true := by
      rw [show (d.withFront c₁).mmuProbe = c₁.mmuProbe from (hs.next hput).mmuProbe]
      exact hprobe
    simp only [pteUpdate_on hs, hc₁, if_neg hprobe']
    exact congrArg (Prod.mk _) (reload_on c₁ d _ _ _)

/-- The use of an entry that was found: guarded, permitted or refused. -/
theorem pteUse_on (c : Cpu β) (q : PageReq) (a : U32) :
    AnswersOn c q.ea q.write fun d cia => d.pteUse (q.at cia) a := by
  have hfront := pteRead_front c (a + 4#32)
  have hread : ∀ d, SameRegime c d → (d.withFront c).pteRead (a + 4#32)
      = ((c.pteRead (a + 4#32)).1, d.withFront (c.pteRead (a + 4#32)).2) :=
    fun d hs => pteRead_on hs _
  obtain ⟨r, hr⟩ : ∃ r, c.pteRead (a + 4#32) = r := ⟨_, rfl⟩
  obtain ⟨w1, c₁⟩ := r
  rw [hr] at hfront hread
  by_cases hguard : q.fetch ∧ w1 &&& (kWimgG <<< 3) ≠ 0#32
  · refine (AnswersOn.of_answer (p := fun d cia => (none, d.raiseExc Exc.Isi cia 0x10000000#32))
      (.isi 0x10000000#32) fun d cia _ => rfl).after hfront fun d cia hs => ?_
    simp only [pteUse, hread d hs, PageReq.at, if_pos hguard]
  · by_cases hpp : ppAllows (w1 &&& 3#32) q.key q.write = true
    · refine (pteGrant_on c₁ q a w1 (if q.write then w1 ||| 0x00000100#32 ||| 0x00000080#32
        else w1 ||| 0x00000100#32)).after hfront fun d cia hs => ?_
      simp only [pteUse, hread d hs, PageReq.at, PageReq.set, if_neg hguard, hpp, Bool.not_true,
        Bool.false_eq_true, if_false]
    · refine ((AnswersOn.of_answer (p := fun d cia =>
          (none, d.xlFault q.ea cia q.write q.fetch 0x08000000#32 0x08000000#32))
        (refuse q.fetch 0x08000000#32 0x08000000#32) fun d cia _ =>
          xlFault_answered _ _ _ _ _ _ _).after
            (pteUpdate_front c₁ (a + 4#32) w1 (w1 ||| 0x00000100#32))
            (p := fun d cia => (none, (d.pteUpdate (a + 4#32) w1 (w1 ||| 0x00000100#32)).xlFault
              q.ea cia q.write q.fetch 0x08000000#32 0x08000000#32))
            fun d cia hs => ?_).after hfront fun d cia hs => ?_
      · simp only [pteUpdate_on hs]
      · simp only [pteUse, hread d hs, PageReq.at, if_neg hguard, hpp, Bool.not_false, if_true]

/-- The search of the slots, one after the other. -/
theorem pteSearch_on (q : PageReq) (slots : List (Bool × ℕ)) : ∀ c : Cpu β,
    AnswersOn c q.ea q.write fun d cia => pteSearch (q.at cia) slots d := by
  induction slots with
  | nil =>
      intro c
      exact AnswersOn.of_answer (refuse q.fetch 0x40000000#32 0x40000000#32) fun d cia _ =>
        xlFault_answered _ _ _ _ _ _ _
  | cons slot rest ih =>
      intro c
      obtain ⟨secondary, k⟩ := slot
      have haddr : ∀ d, SameRegime c d →
          (d.withFront c).ptegAddr q secondary = c.ptegAddr q secondary := by
        intro d hs
        unfold ptegAddr
        rw [show (d.withFront c).st.sdr1 = c.st.sdr1 from hs.sdr1]
      have hfront := pteRead_front c (c.ptegAddr q secondary + BitVec.ofNat 32 k * 8#32)
      by_cases hmatch : pteMatches
          (c.pteRead (c.ptegAddr q secondary + BitVec.ofNat 32 k * 8#32)).1 q secondary = true
      · refine (pteUse_on _ q (c.ptegAddr q secondary + BitVec.ofNat 32 k * 8#32)).after hfront
          fun d cia hs => ?_
        have hkey : (d.withFront c).ptegAddr (q.at cia) secondary = c.ptegAddr q secondary :=
          haddr d hs
        have hmatch' : pteMatches
            (c.pteRead (c.ptegAddr q secondary + BitVec.ofNat 32 k * 8#32)).1 (q.at cia) secondary
              = true := hmatch
        simp only [pteSearch, hkey, pteRead_on hs, hmatch', if_true]
      · refine (ih _).after hfront fun d cia hs => ?_
        have hkey : (d.withFront c).ptegAddr (q.at cia) secondary = c.ptegAddr q secondary :=
          haddr d hs
        have hmatch' : ¬ pteMatches
            (c.pteRead (c.ptegAddr q secondary + BitVec.ofNat 32 k * 8#32)).1 (q.at cia) secondary
              = true := hmatch
        simp only [pteSearch, hkey, pteRead_on hs, if_neg hmatch']

/-- A page translation, by the TLB or by the search. -/
theorem pageXlate_on (c : Cpu β) (q : PageReq) :
    AnswersOn c q.ea q.write fun d cia => d.pageXlate (q.at cia) := by
  have hway : ∀ d cia, SameRegime c d →
      (if (d.withFront c).mmuProbe then none else (d.withFront c).tlbWay (q.at cia))
        = (if c.mmuProbe then none else c.tlbWay q) := by
    intro d cia hs
    rw [show (d.withFront c).mmuProbe = c.mmuProbe from hs.mmuProbe]
    rfl
  obtain ⟨way, hw⟩ : ∃ way, (if c.mmuProbe then none else c.tlbWay q) = way := ⟨_, rfl⟩
  rw [hw] at hway
  cases way with
  | none =>
      refine (pteSearch_on q pteSlots c).after (SameFront.refl c) fun d cia hs => ?_
      simp only [pageXlate, hway d cia hs]
  | some w =>
      obtain ⟨e, he⟩ : ∃ e, c.tlbOf q.fetch q.set w = e := ⟨_, rfl⟩
      have hentry : ∀ d : Cpu β, (d.withFront c).tlbOf q.fetch q.set w = e := fun _ => he
      have hopen : ∀ (d : Cpu β) cia, SameRegime c d → (d.withFront c).pageXlate (q.at cia)
          = if q.fetch ∧ e.wimg &&& kWimgG ≠ 0#32 then
              (none, (d.withFront c).raiseExc Exc.Isi cia 0x10000000#32)
            else if !ppAllows e.pp q.key q.write then
              (none, (d.withFront c).xlFault q.ea cia q.write q.fetch 0x08000000#32 0x08000000#32)
            else if q.write && !e.c then
              pteSearch (q.at cia) pteSlots
                ((d.withFront c).setTlb q.fetch q.set w { e with v := false, c := e.c })
            else (some (e.rpn ||| (q.ea &&& 0xFFF#32), e.wimg),
              (d.withFront c).setTlbLru q.fetch q.set (w + 1)) := by
        intro d cia hs
        unfold pageXlate
        rw [hway d cia hs]
        simp only [PageReq.at_ea, PageReq.at_cia, PageReq.at_write, PageReq.at_fetch, PageReq.at_key,
          PageReq.at_set, hentry]
      -- the tests of a hit in the source's order: guarded fetch, protection, the changed bit
      by_cases hguard : q.fetch ∧ e.wimg &&& kWimgG ≠ 0#32
      · refine AnswersOn.of_answer (.isi 0x10000000#32) fun d cia hs => ?_
        rw [hopen d cia hs, if_pos hguard]
        rfl
      · by_cases hpp : ppAllows e.pp q.key q.write = true
        · have hpp' : ¬ (!ppAllows e.pp q.key q.write) = true := by rw [hpp]; simp
          by_cases hdrop : (q.write && !e.c) = true
          · refine (pteSearch_on q pteSlots _).after
              (setTlb_front c q.fetch q.set w { e with v := false, c := e.c }) fun d cia hs => ?_
            have hset : (d.withFront c).setTlb q.fetch q.set w { e with v := false, c := e.c }
                = d.withFront (c.setTlb q.fetch q.set w { e with v := false, c := e.c }) := by
              cases q.fetch <;> rfl
            rw [hopen d cia hs, if_neg hguard, if_neg hpp', if_pos hdrop, hset]
          · refine ⟨.ok (e.rpn ||| (q.ea &&& 0xFFF#32), e.wimg), _,
              setTlbLru_front c q.fetch q.set (w + 1), fun d cia hs => ?_⟩
            have hlru : (d.withFront c).setTlbLru q.fetch q.set (w + 1)
                = d.withFront (c.setTlbLru q.fetch q.set (w + 1)) := by
              cases q.fetch <;> rfl
            simp only
            rw [hopen d cia hs, if_neg hguard, if_neg hpp', if_neg hdrop, hlru]
            rfl
        · refine AnswersOn.of_answer (refuse q.fetch 0x08000000#32 0x08000000#32) fun d cia hs => ?_
          rw [hopen d cia hs, if_neg hguard, if_pos (by simpa using hpp)]
          exact xlFault_answered _ _ _ _ _ _ _

omit [Bus β] in
theorem userMode_on {c d : Cpu β} (hs : SameRegime c d) :
    (d.withFront c).userMode = c.userMode := by
  unfold userMode
  rw [show (d.withFront c).st.msr = c.st.msr from hs.msr]

omit [Bus β] in
/-- Real mode, which has no fault. -/
theorem realXlate_on (c : Cpu β) (ea : U32) (write : Bool) :
    AnswersOn c ea write fun d _ =>
      (some (ea, if d.realModeInhibitBase ≠ 0#32 ∧ d.realModeInhibitBase ≤ ea
        then kWimgReal ||| kWimgI else kWimgReal), d) := by
  refine AnswersOn.of_answer (.ok (ea, if c.realModeInhibitBase ≠ 0#32 ∧ c.realModeInhibitBase ≤ ea
    then kWimgReal ||| kWimgI else kWimgReal)) fun d cia hs => ?_
  rw [show (d.withFront c).realModeInhibitBase = c.realModeInhibitBase from hs.inhibitBase]
  rfl

omit [Bus β] in
/-- A BAT that matched. -/
theorem batXlate_on (c : Cpu β) (b : BatHit) (ea : U32) (write fetch : Bool) :
    AnswersOn c ea write fun d cia => d.batXlate b ea cia write fetch := by
  by_cases hguard : fetch ∧ b.wimg &&& kWimgG ≠ 0#32
  · refine AnswersOn.of_answer (.isi 0x10000000#32) fun d cia _ => ?_
    simp only [batXlate, if_pos hguard]
    rfl
  · by_cases hpp : b.pp = 0#32 ∨ (write ∧ b.pp &&& 1#32 ≠ 0#32)
    · refine AnswersOn.of_answer (refuse fetch 0x08000000#32 0x08000000#32) fun d cia _ => ?_
      simp only [batXlate, if_neg hguard, if_pos hpp]
      exact xlFault_answered _ _ _ _ _ _ _
    · refine AnswersOn.of_answer (.ok (b.pa, b.wimg)) fun d cia _ => ?_
      simp only [batXlate, if_neg hguard, if_neg hpp]
      rfl

/-- The segment register, and its pages. -/
theorem segXlate_on (c : Cpu β) (ea : U32) (write fetch : Bool) :
    AnswersOn c ea write fun d cia => d.segXlate ea cia write fetch := by
  obtain ⟨sr, hsr⟩ : ∃ sr, c.st.sr (ea.extractLsb' 28 4) = sr := ⟨_, rfl⟩
  have hseg : ∀ d, SameRegime c d → (d.withFront c).st.sr (ea.extractLsb' 28 4) = sr := by
    intro d hs
    rw [show (d.withFront c).st.sr = c.st.sr from hs.sr, hsr]
  by_cases ht : sr &&& 0x80000000#32 ≠ 0#32
  · refine AnswersOn.of_answer (refuse fetch 0x10000000#32 0x04000000#32) fun d cia hs => ?_
    simp only [segXlate, hseg d hs, if_pos ht]
    exact xlFault_answered _ _ _ _ _ _ _
  · by_cases hn : fetch ∧ sr &&& 0x10000000#32 ≠ 0#32
    · refine AnswersOn.of_answer (.isi 0x10000000#32) fun d cia hs => ?_
      simp only [segXlate, hseg d hs, if_neg ht, if_pos hn]
      rfl
    · -- the request is the same but for the instruction it is made from
      refine (pageXlate_on c
        { ea := ea, cia := 0#32, write := write, fetch := fetch,
          key := sr &&& (if c.userMode then 0x20000000#32 else 0x40000000#32) != 0#32,
          vsid := sr &&& 0x00FFFFFF#32, pageIndex := (ea >>> 12) &&& 0xFFFF#32 }).after
        (SameFront.refl c) fun d cia hs => ?_
      simp only [segXlate, hseg d hs, if_neg ht, if_neg hn, userMode_on hs]
      rfl

/-- **A translation** answers the same under either processor's registers. -/
theorem translate_on (c : Cpu β) (ea : U32) (write fetch : Bool) :
    ∃ (a : Answer) (m : Cpu β), SameFront c m ∧ ∀ d : Cpu β, SameRegime c d →
      (d.withFront c).translate ea write fetch
        = (a.value, (d.answered a ea (accessCia d.st ea fetch) write).withFront m) := by
  have hlift : ∀ p : Cpu β → U32 → Option Xlated × Cpu β, AnswersOn c ea write p →
      (∀ d, SameRegime c d → (d.withFront c).translate ea write fetch
        = p (d.withFront c) (accessCia d.st ea fetch)) →
      ∃ (a : Answer) (m : Cpu β), SameFront c m ∧ ∀ d : Cpu β, SameRegime c d →
        (d.withFront c).translate ea write fetch
          = (a.value, (d.answered a ea (accessCia d.st ea fetch) write).withFront m) := by
    rintro p ⟨a, m, hm, hp⟩ hd
    exact ⟨a, m, hm, fun d hs => (hd d hs).trans (hp d _ hs)⟩
  by_cases hreal : c.st.msr &&& (if fetch then msr.IR else msr.DR) = 0#32
  · refine hlift _ (realXlate_on c ea write) fun d hs => ?_
    unfold translate
    rw [show (d.withFront c).st.msr = c.st.msr from hs.msr, if_pos hreal]
  · have hbat : ∀ d, SameRegime c d →
        (if fetch then batLookup (d.withFront c).st.ibatu (d.withFront c).st.ibatl ea
            (d.withFront c).userMode
          else batLookup (d.withFront c).st.dbatu (d.withFront c).st.dbatl ea (d.withFront c).userMode)
        = (if fetch then batLookup c.st.ibatu c.st.ibatl ea c.userMode
          else batLookup c.st.dbatu c.st.dbatl ea c.userMode) := by
      intro d hs
      rw [userMode_on hs, show (d.withFront c).st.ibatu = c.st.ibatu from hs.ibatu,
        show (d.withFront c).st.ibatl = c.st.ibatl from hs.ibatl,
        show (d.withFront c).st.dbatu = c.st.dbatu from hs.dbatu,
        show (d.withFront c).st.dbatl = c.st.dbatl from hs.dbatl]
    obtain ⟨bat, hb⟩ : ∃ bat, (if fetch then batLookup c.st.ibatu c.st.ibatl ea c.userMode
      else batLookup c.st.dbatu c.st.dbatl ea c.userMode) = bat := ⟨_, rfl⟩
    rw [hb] at hbat
    -- a BAT that matches is asked before the segments are looked at
    cases bat with
    | some b =>
        refine hlift _ (batXlate_on c b ea write fetch) fun d hs => ?_
        unfold translate
        simp only [hbat d hs]
        rw [show (d.withFront c).st.msr = c.st.msr from hs.msr, if_neg hreal]
        rfl
    | none =>
        refine hlift _ (segXlate_on c ea write fetch) fun d hs => ?_
        unfold translate
        simp only [hbat d hs]
        rw [show (d.withFront c).st.msr = c.st.msr from hs.msr, if_neg hreal]
        rfl

end Walk

end Cpu

end OpenPowerMac
