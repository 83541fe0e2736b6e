/-
What a virtual access leaves alone, and what it looks at.

`readV` and `writeV` come down to translations and memory accesses, with three
refusals of their own (alignment in little-endian mode, the data breakpoint, the
translation's) between them. However many pieces an access is cut into, it either
ends with a value, and then only the memory system, the TLBs and the one-page
caches have moved, or with one exception raised on top of that; and which of the
two, the value, the exception and what the caches do are settled by the registers
of `SameAccess` (`AccessOn`).
-/
import OpenPowerMac.XlateFrame

set_option autoImplicit false

namespace OpenPowerMac

namespace Cpu

variable {β : Type}

/-! ## The access path -/

/-- `c` with the memory system, the TLBs and the one-page caches of `m`. -/
def withPaths (c m : Cpu β) : Cpu β :=
  { c.withFront m with
    xlGen := m.xlGen, xlPage := m.xlPage, xlPa := m.xlPa, xlMsr := m.xlMsr, xlSr := m.xlSr
    dxlGen := m.dxlGen, dxlPage := m.dxlPage, dxlPa := m.dxlPa, dxlMsr := m.dxlMsr
    dxlSr := m.dxlSr, dxlWimg := m.dxlWimg }

/-- Nothing outside the access path differs. -/
def SamePaths (c c' : Cpu β) : Prop := c' = c.withPaths c'

theorem SamePaths.refl (c : Cpu β) : SamePaths c c := rfl

theorem SamePaths.trans {c₁ c₂ c₃ : Cpu β} (h₁₂ : SamePaths c₁ c₂) (h₂₃ : SamePaths c₂ c₃) :
    SamePaths c₁ c₃ := by
  calc c₃ = c₂.withPaths c₃ := h₂₃
    _ = (c₁.withPaths c₂).withPaths c₃ := congrArg (fun c => c.withPaths c₃) h₁₂
    _ = c₁.withPaths c₃ := rfl

theorem SameFront.paths {c c' : Cpu β} (h : SameFront c c') : SamePaths c c' := by
  calc c' = c.withFront c' := h
    _ = (c.withFront c').withPaths (c.withFront c') := rfl
    _ = c.withPaths (c.withFront c') := rfl
    _ = c.withPaths c' := congrArg _ h.symm

/-- The registers and settings an access looks at. -/
structure SameAccess (c d : Cpu β) : Prop extends SameRegime c d where
  dabr : d.st.dabr = c.st.dabr
  bamr : d.st.bamr = c.st.bamr
  curInsn : d.curInsn = c.curInsn
  dxlCacheOff : d.dxlCacheOff = c.dxlCacheOff
  fetchCacheOff : d.fetchCacheOff = c.fetchCacheOff
  mmuGen : d.mmuGen = c.mmuGen

theorem SameAccess.refl (c : Cpu β) : SameAccess c c :=
  ⟨SameRegime.refl c, rfl, rfl, rfl, rfl, rfl, rfl⟩

theorem SamePaths.access {c c' : Cpu β} (h : SamePaths c c') : SameAccess c c' := by
  have heq : c' = c.withPaths c' := h
  rw [heq]
  exact ⟨⟨⟨rfl, rfl, rfl⟩, rfl, rfl, rfl, rfl, rfl, rfl, rfl, rfl, rfl⟩, rfl, rfl, rfl, rfl, rfl, rfl⟩

theorem SameAccess.trans {c₁ c₂ c₃ : Cpu β} (h₁₂ : SameAccess c₁ c₂) (h₂₃ : SameAccess c₂ c₃) :
    SameAccess c₁ c₃ where
  hid0 := h₂₃.hid0.trans h₁₂.hid0
  l2cr := h₂₃.l2cr.trans h₁₂.l2cr
  l2Inert := h₂₃.l2Inert.trans h₁₂.l2Inert
  msr := h₂₃.msr.trans h₁₂.msr
  sr := h₂₃.sr.trans h₁₂.sr
  ibatu := h₂₃.ibatu.trans h₁₂.ibatu
  ibatl := h₂₃.ibatl.trans h₁₂.ibatl
  dbatu := h₂₃.dbatu.trans h₁₂.dbatu
  dbatl := h₂₃.dbatl.trans h₁₂.dbatl
  sdr1 := h₂₃.sdr1.trans h₁₂.sdr1
  mmuProbe := h₂₃.mmuProbe.trans h₁₂.mmuProbe
  inhibitBase := h₂₃.inhibitBase.trans h₁₂.inhibitBase
  dabr := h₂₃.dabr.trans h₁₂.dabr
  bamr := h₂₃.bamr.trans h₁₂.bamr
  curInsn := h₂₃.curInsn.trans h₁₂.curInsn
  dxlCacheOff := h₂₃.dxlCacheOff.trans h₁₂.dxlCacheOff
  fetchCacheOff := h₂₃.fetchCacheOff.trans h₁₂.fetchCacheOff
  mmuGen := h₂₃.mmuGen.trans h₁₂.mmuGen

theorem SameAccess.symm {c d : Cpu β} (h : SameAccess c d) : SameAccess d c where
  hid0 := h.hid0.symm
  l2cr := h.l2cr.symm
  l2Inert := h.l2Inert.symm
  msr := h.msr.symm
  sr := h.sr.symm
  ibatu := h.ibatu.symm
  ibatl := h.ibatl.symm
  dbatu := h.dbatu.symm
  dbatl := h.dbatl.symm
  sdr1 := h.sdr1.symm
  mmuProbe := h.mmuProbe.symm
  inhibitBase := h.inhibitBase.symm
  dabr := h.dabr.symm
  bamr := h.bamr.symm
  curInsn := h.curInsn.symm
  dxlCacheOff := h.dxlCacheOff.symm
  fetchCacheOff := h.fetchCacheOff.symm
  mmuGen := h.mmuGen.symm

theorem SameAccess.next {c c' d : Cpu β} (hs : SameAccess c d) (h : SamePaths c c') :
    SameAccess c' d := h.access.symm.trans hs

section Lift

variable {α : Type} {f : Cpu β → Cpu β} {p : Cpu β → α × Cpu β} {c d : Cpu β}

theorem MemOnly.onPaths (hf : MemOnly f) (hs : SameSettings c d) :
    f (d.withPaths c) = d.withPaths (f c) := by
  have hcore : SameCore c (f c) := hf.core c
  calc f (d.withPaths c)
      = f ((d.withPaths c).withMem c) := rfl
    _ = (d.withPaths c).withMem (f c) := hf c (d.withPaths c) ⟨hs.hid0, hs.l2cr, hs.l2Inert⟩
    _ = d.withPaths (c.withMem (f c)) := rfl
    _ = d.withPaths (f c) := congrArg _ hcore.symm

theorem MemOnlyV.onPaths (hp : MemOnlyV p) (hs : SameSettings c d) :
    p (d.withPaths c) = ((p c).1, d.withPaths (p c).2) := by
  have hcore : SameCore c (p c).2 := hp.core c
  calc p (d.withPaths c)
      = p ((d.withPaths c).withMem c) := rfl
    _ = ((p c).1, (d.withPaths c).withMem (p c).2) :=
        hp c (d.withPaths c) ⟨hs.hid0, hs.l2cr, hs.l2Inert⟩
    _ = ((p c).1, d.withPaths (c.withMem (p c).2)) := rfl
    _ = ((p c).1, d.withPaths (p c).2) := congrArg (fun m => ((p c).1, d.withPaths m)) hcore.symm

end Lift

/-! ## Refusals -/

/-- An exception an access raises: its vector, DAR and DSISR where it sets them,
and its share of SRR1. -/
structure Refusal where
  exc : Exc
  regs : Option (U32 × U32) := none
  extra : U32 := 0#32

/-- The exception, raised. -/
def refused (c : Cpu β) (r : Refusal) (cia : U32) : Cpu β :=
  match r.regs with
  | none => c.raiseExc r.exc cia r.extra
  | some (dar, dsisr) =>
      ({ c with st := { c.st with dar := dar, dsisr := dsisr } }).raiseExc r.exc cia r.extra

/-- The refusal of a translation. -/
def refusalOf (a : Answer) (ea : U32) (write : Bool) : Except Refusal Xlated :=
  match a with
  | .ok x => .ok x
  | .isi bits => .error { exc := Exc.Isi, extra := bits }
  | .dsi bits =>
      .error { exc := Exc.Dsi, regs := some (ea, bits ||| (if write then 0x02000000#32 else 0#32)) }

/-- The processor at the end of an access: as it was, or with the exception. -/
def settle {α : Type} (c : Cpu β) (r : Except Refusal α) : Cpu β :=
  match r with
  | .ok _ => c
  | .error r => c.refused r (c.st.pc - 4#32)

theorem answered_eq_settle (c : Cpu β) (a : Answer) (ea : U32) (write : Bool) :
    c.answered a ea (c.st.pc - 4#32) write = c.settle (refusalOf a ea write) := by
  cases a <;> rfl

theorem answer_value (a : Answer) (ea : U32) (write : Bool) :
    a.value = (refusalOf a ea write).toOption := by
  cases a <;> rfl

theorem settle_withPaths {α : Type} (d m : Cpu β) (r : Except Refusal α) :
    (d.withPaths m).settle r = (d.settle r).withPaths m := by
  cases r with
  | ok a => rfl
  | error r =>
      show (d.withPaths m).refused r _ = (d.refused r _).withPaths m
      unfold refused
      cases r.regs <;> rfl

/-- What an access goes on to do with a value, if it has one. -/
def andThen {α γ : Type} (r : Option α × Cpu β) (k : α → Cpu β → Option γ × Cpu β) :
    Option γ × Cpu β :=
  match r with
  | (none, c) => (none, c)
  | (some a, c) => k a c

/-- The access ends in a value or in one exception, and moves the access path, the
same whichever processor's registers it is run under. -/
def AccessOn {α : Type} (c : Cpu β) (p : Cpu β → Option α × Cpu β) : Prop :=
  ∃ (r : Except Refusal α) (m : Cpu β), SamePaths c m ∧ ∀ d : Cpu β, SameAccess c d →
    p (d.withPaths c) = (r.toOption, (d.settle r).withPaths m)

section Rules

variable {α γ : Type} {c : Cpu β}

theorem AccessOn.ok {p : Cpu β → Option α × Cpu β} (a : α) {m : Cpu β} (hm : SamePaths c m)
    (h : ∀ d : Cpu β, SameAccess c d → p (d.withPaths c) = (some a, d.withPaths m)) :
    AccessOn c p := ⟨.ok a, m, hm, h⟩

theorem AccessOn.error {p : Cpu β → Option α × Cpu β} (r : Refusal)
    (h : ∀ d : Cpu β, SameAccess c d →
      p (d.withPaths c) = (none, (d.withPaths c).refused r (d.st.pc - 4#32))) : AccessOn c p := by
  refine ⟨.error r, c, SamePaths.refl c, fun d hs => ?_⟩
  rw [h d hs]
  exact congrArg (Prod.mk _) (settle_withPaths d c (.error r : Except Refusal α))

/-- What is done first moves the access path only. -/
theorem AccessOn.after {c₁ : Cpu β} {p q : Cpu β → Option α × Cpu β} (hpaths : SamePaths c c₁)
    (h : AccessOn c₁ q)
    (hp : ∀ d : Cpu β, SameAccess c d → p (d.withPaths c) = q (d.withPaths c₁)) : AccessOn c p := by
  obtain ⟨r, m, hm, hq⟩ := h
  refine ⟨r, m, hpaths.trans hm, fun d hs => ?_⟩
  rw [hp d hs, hq d (hs.next hpaths)]

theorem AccessOn.congr {p q : Cpu β → Option α × Cpu β} (h : AccessOn c q)
    (hp : ∀ d : Cpu β, SameAccess c d → p (d.withPaths c) = q (d.withPaths c)) : AccessOn c p :=
  h.after (SamePaths.refl c) hp

/-- An access, and what is done with its value. -/
theorem AccessOn.bind {p : Cpu β → Option α × Cpu β} {k : α → Cpu β → Option γ × Cpu β}
    (hp : AccessOn c p) (hk : ∀ a m, SamePaths c m → AccessOn m (k a)) :
    AccessOn c fun d => andThen (p d) k := by
  obtain ⟨r, m, hm, hp⟩ := hp
  cases r with
  | error r =>
      refine ⟨.error r, m, hm, fun d hs => ?_⟩
      simp only [hp d hs]
      rfl
  | ok a =>
      refine (hk a m hm).after hm fun d hs => ?_
      simp only [hp d hs]
      rfl

end Rules

/-! ## Data accesses -/

section Data

variable [Bus β]

theorem translate_access (c : Cpu β) (ea : U32) (write : Bool) :
    AccessOn c fun d => d.translate ea write false := by
  obtain ⟨a, m, hm, hd⟩ := translate_on c ea write false
  refine ⟨refusalOf a ea write, m, hm.paths, fun d hs => ?_⟩
  have hrun := hd (d.withPaths c) ⟨⟨hs.hid0, hs.l2cr, hs.l2Inert⟩, hs.msr, hs.sr, hs.ibatu, hs.ibatl,
    hs.dbatu, hs.dbatl, hs.sdr1, hs.mmuProbe, hs.inhibitBase⟩
  have hself : (d.withPaths c).withFront c = d.withPaths c := rfl
  rw [hself] at hrun
  have hcia : accessCia (d.withPaths c).st ea false = (d.withPaths c).st.pc - 4#32 := rfl
  show (d.withPaths c).translate ea write false = _
  rw [hrun, hcia, answered_eq_settle, settle_withPaths, answer_value a ea write]
  refine congrArg (Prod.mk _) ?_
  calc ((d.settle (refusalOf a ea write)).withPaths c).withFront m
      = (d.settle (refusalOf a ea write)).withPaths (c.withFront m) := rfl
    _ = (d.settle (refusalOf a ea write)).withPaths m := congrArg _ hm.symm

/-- A memory read, as the end of an access. -/
theorem memRead_access (c : Cpu β) (pa : U32) (len : ℕ) (wimg : U32) :
    AccessOn c fun d => (some (d.memRead pa len wimg).1, (d.memRead pa len wimg).2) := by
  refine AccessOn.ok (c.memRead pa len wimg).1 ((memRead_memOnly pa len wimg).core c).front.paths
    fun d hs => ?_
  have hrun : (d.withPaths c).memRead pa len wimg
      = ((c.memRead pa len wimg).1, d.withPaths (c.memRead pa len wimg).2) :=
    (memRead_memOnly pa len wimg).onPaths hs.toSameSettings
  simp only [hrun]

/-- A memory write, as the end of an access. -/
theorem memWrite_access (c : Cpu β) (pa : U32) (len : ℕ) (v : U64) (wimg : U32) :
    AccessOn c fun d => (some (), d.memWrite pa len v wimg) := by
  refine AccessOn.ok () ((memWrite_memOnly pa len v wimg).core c).front.paths fun d hs => ?_
  exact congrArg (Prod.mk _) ((memWrite_memOnly pa len v wimg).onPaths hs.toSameSettings)

theorem xlateData_access (c : Cpu β) (ea : U32) (write : Bool) :
    AccessOn c fun d => d.xlateData ea write := by
  by_cases hoff : c.dxlCacheOff = true
  · refine (translate_access c ea write).congr fun d hs => ?_
    unfold xlateData
    rw [if_pos (show (d.withPaths c).dxlCacheOff = true from hs.dxlCacheOff.trans hoff)]
  · have hoff' : ∀ d, SameAccess c d → ¬ (d.withPaths c).dxlCacheOff = true := by
      intro d hs
      rw [show (d.withPaths c).dxlCacheOff = c.dxlCacheOff from hs.dxlCacheOff]
      exact hoff
    have hkeys : ∀ d, SameAccess c d → (d.withPaths c).mmuGen = c.mmuGen
        ∧ (d.withPaths c).st.msr = c.st.msr ∧ (d.withPaths c).st.sr = c.st.sr :=
      fun d hs => ⟨hs.mmuGen, hs.msr, hs.sr⟩
    by_cases hhit : c.dxlGen write = c.mmuGen ∧ c.dxlPage write = ea >>> 12
        ∧ c.dxlMsr write = c.st.msr &&& (msr.DR ||| msr.PR ||| msr.LE)
        ∧ c.dxlSr write = c.st.sr (ea.extractLsb' 28 4)
    · refine AccessOn.ok (c.dxlPa write ||| (ea &&& 0xFFF#32), c.dxlWimg write) (SamePaths.refl c)
        fun d hs => ?_
      obtain ⟨hgen, hmsr, hsr⟩ := hkeys d hs
      unfold xlateData
      rw [if_neg (hoff' d hs)]
      simp only [hgen, hmsr, hsr]
      exact if_pos hhit
    -- a miss keeps what it found beside the keys it looked under
    · have hfill : ∀ (x : Xlated) m, SamePaths c m → AccessOn m fun d => (some x,
          { d with
            dxlGen := Function.update d.dxlGen write d.mmuGen
            dxlPage := Function.update d.dxlPage write (ea >>> 12)
            dxlMsr := Function.update d.dxlMsr write (c.st.msr &&& (msr.DR ||| msr.PR ||| msr.LE))
            dxlSr := Function.update d.dxlSr write (c.st.sr (ea.extractLsb' 28 4))
            dxlPa := Function.update d.dxlPa write (x.1 &&& ~~~0xFFF#32)
            dxlWimg := Function.update d.dxlWimg write x.2 }) := by
        rintro ⟨pa, wimg⟩ m hm
        refine AccessOn.ok (pa, wimg) (m := { m with
            dxlGen := Function.update m.dxlGen write m.mmuGen
            dxlPage := Function.update m.dxlPage write (ea >>> 12)
            dxlMsr := Function.update m.dxlMsr write (c.st.msr &&& (msr.DR ||| msr.PR ||| msr.LE))
            dxlSr := Function.update m.dxlSr write (c.st.sr (ea.extractLsb' 28 4))
            dxlPa := Function.update m.dxlPa write (pa &&& ~~~0xFFF#32)
            dxlWimg := Function.update m.dxlWimg write wimg }) rfl fun d hs => ?_
        have hgen : m.mmuGen = (d.withPaths m).mmuGen := hs.mmuGen.symm
        simp only
        rw [hgen]
        rfl
      refine ((translate_access c ea write).bind hfill).congr fun d hs => ?_
      obtain ⟨hgen, hmsr, hsr⟩ := hkeys d hs
      unfold xlateData
      rw [if_neg (hoff' d hs)]
      simp only [hgen, hmsr, hsr]
      rw [if_neg (show ¬ ((d.withPaths c).dxlGen write = c.mmuGen
        ∧ (d.withPaths c).dxlPage write = ea >>> 12
        ∧ (d.withPaths c).dxlMsr write = c.st.msr &&& (msr.DR ||| msr.PR ||| msr.LE)
        ∧ (d.withPaths c).dxlSr write = c.st.sr (ea.extractLsb' 28 4)) from hhit)]
      obtain ⟨r, hr⟩ : ∃ r, (d.withPaths c).translate ea write false = r := ⟨_, rfl⟩
      obtain ⟨value, d'⟩ := r
      rw [hr]
      cases value <;> rfl

/-- A translated piece of a read. -/
theorem readPiece_eq (c : Cpu β) (ea : U32) (len : ℕ) :
    c.readPiece ea len = andThen (c.translate ea false false)
      fun x d => (some (d.memRead x.1 len x.2).1, (d.memRead x.1 len x.2).2) := by
  unfold readPiece
  obtain ⟨r, hr⟩ : ∃ r, c.translate ea false false = r := ⟨_, rfl⟩
  obtain ⟨value, c'⟩ := r
  rw [hr]
  cases value <;> rfl

theorem readPiece_access (c : Cpu β) (ea : U32) (len : ℕ) :
    AccessOn c fun d => d.readPiece ea len := by
  simp only [readPiece_eq]
  exact (translate_access c ea false).bind fun x m _ => memRead_access m x.1 len x.2

theorem readBytes_cons (c : Cpu β) (ea : U32) (i : ℕ) (rest : List ℕ) (out : U64) :
    readBytes ea (i :: rest) out c = andThen (c.readPiece (ea + BitVec.ofNat 32 i) 1)
      fun b d => readBytes ea rest ((out <<< 8) ||| b) d := by
  rw [readBytes]
  obtain ⟨r, hr⟩ : ∃ r, c.readPiece (ea + BitVec.ofNat 32 i) 1 = r := ⟨_, rfl⟩
  obtain ⟨value, c'⟩ := r
  rw [hr]
  cases value <;> rfl

theorem readBytes_access (ea : U32) (l : List ℕ) : ∀ (out : U64) (c : Cpu β),
    AccessOn c fun d => readBytes ea l out d := by
  induction l with
  | nil => exact fun out c => AccessOn.ok out (SamePaths.refl c) fun d _ => rfl
  | cons i rest ih =>
      intro out c
      simp only [readBytes_cons]
      exact (readPiece_access c (ea + BitVec.ofNat 32 i) 1).bind fun b m _ => ih _ m

theorem readVAt_eq (c : Cpu β) (ea : U32) (len : ℕ) :
    c.readVAt ea len = if onePage ea len then andThen (c.xlateData ea false)
        fun x d => (some (d.memRead x.1 len x.2).1, (d.memRead x.1 len x.2).2)
      else readBytes ea (List.range len) 0#64 c := by
  unfold readVAt
  obtain ⟨r, hr⟩ : ∃ r, c.xlateData ea false = r := ⟨_, rfl⟩
  obtain ⟨value, c'⟩ := r
  rw [hr]
  cases value <;> rfl

theorem readVAt_access (c : Cpu β) (ea : U32) (len : ℕ) : AccessOn c fun d => d.readVAt ea len := by
  simp only [readVAt_eq]
  by_cases hpage : onePage ea len = true
  · simp only [if_pos hpage]
    exact (xlateData_access c ea false).bind fun x m _ => memRead_access m x.1 len x.2
  · simp only [if_neg hpage]
    exact readBytes_access ea (List.range len) 0#64 c

/-- The refusal of a misaligned little-endian access. -/
def alignRefusal (insn ea : U32) : Refusal :=
  { exc := Exc.Alignment, regs := some (ea, alignDsisr insn) }

/-- The refusal of the data breakpoint. -/
def dabrRefusal (ea bits : U32) : Refusal := { exc := Exc.Dsi, regs := some (ea, bits) }

/-- The checks in front of an access. -/
def checkAccess (c : Cpu β) (ea : U32) (len : ℕ) (write : Bool) (bits : U32) :
    Option Unit × Cpu β :=
  let r := c.leAlignCheck ea len
  if !r.1 then (none, r.2)
  else if dabrHit r.2.st ea write then (none, r.2.dabrTrap ea bits)
  else (some (), r.2)

omit [Bus β] in
theorem checkAccess_access (c : Cpu β) (ea : U32) (len : ℕ) (write : Bool) (bits : U32) :
    AccessOn c fun d => d.checkAccess ea len write bits := by
  have hmsr : ∀ d, SameAccess c d → (d.withPaths c).st.msr = c.st.msr := fun d hs => hs.msr
  by_cases halign : c.st.msr &&& msr.LE = 0#32 ∨ ea &&& (BitVec.ofNat 32 len - 1#32) = 0#32
  · have hcheck : ∀ d, SameAccess c d →
        (d.withPaths c).leAlignCheck ea len = (true, d.withPaths c) := by
      intro d hs
      unfold leAlignCheck
      rw [hmsr d hs, if_pos halign]
    have hhit : ∀ d, SameAccess c d → dabrHit (d.withPaths c).st ea write = dabrHit c.st ea write := by
      intro d hs
      unfold dabrHit
      rw [hmsr d hs, show (d.withPaths c).st.dabr = c.st.dabr from hs.dabr,
        show (d.withPaths c).st.bamr = c.st.bamr from hs.bamr]
    by_cases hdabr : dabrHit c.st ea write = true
    · refine AccessOn.error (dabrRefusal ea bits) fun d hs => ?_
      simp only [checkAccess, hcheck d hs, hhit d hs, hdabr, Bool.not_true, Bool.false_eq_true,
        if_false, if_true]
      rfl
    · refine AccessOn.ok () (SamePaths.refl c) fun d hs => ?_
      simp only [checkAccess, hcheck d hs, hhit d hs, hdabr, Bool.not_true, Bool.false_eq_true,
        if_false]
  · refine AccessOn.error (alignRefusal c.curInsn ea) fun d hs => ?_
    have hcheck : (d.withPaths c).leAlignCheck ea len
        = (false, (d.withPaths c).refused (alignRefusal c.curInsn ea) (d.st.pc - 4#32)) := by
      unfold leAlignCheck
      rw [hmsr d hs, if_neg halign, show c.curInsn = (d.withPaths c).curInsn from hs.curInsn.symm]
      rfl
    simp only [checkAccess, hcheck, Bool.not_false, if_true]

/-- `readV` behind its checks. -/
def readVRest (c : Cpu β) (ea : U32) (len : ℕ) : Option U64 × Cpu β :=
  if c.st.msr &&& msr.LE ≠ 0#32 then
    if len = 8 then
      andThen (c.readPiece (ea ^^^ 4#32) 4) fun hi d =>
        andThen (d.readPiece ((ea + 4#32) ^^^ 4#32) 4) fun lo d => (some ((hi <<< 32) ||| lo), d)
    else c.readVAt (leMunge ea len) len
  else c.readVAt ea len

theorem readV_eq (c : Cpu β) (ea : U32) (len : ℕ) :
    c.readV ea len = andThen (c.checkAccess ea len false 0x00400000#32)
      fun _ d => d.readVRest ea len := by
  unfold readV checkAccess
  obtain ⟨r, hr⟩ : ∃ r, c.leAlignCheck ea len = r := ⟨_, rfl⟩
  obtain ⟨aligned, d⟩ := r
  simp only [hr]
  cases aligned with
  | false => rfl
  | true =>
      simp only [Bool.not_true, Bool.false_eq_true, if_false]
      by_cases hdabr : dabrHit d.st ea false = true
      · rw [if_pos hdabr, if_pos hdabr]
        rfl
      · rw [if_neg hdabr, if_neg hdabr]
        show _ = d.readVRest ea len
        unfold readVRest
        split
        · split
          · obtain ⟨r, hr⟩ : ∃ r, d.readPiece (ea ^^^ 4#32) 4 = r := ⟨_, rfl⟩
            obtain ⟨hi, d₁⟩ := r
            rw [hr]
            cases hi with
            | none => rfl
            | some hi =>
                simp only [andThen]
                obtain ⟨r, hr⟩ : ∃ r, d₁.readPiece ((ea + 4#32) ^^^ 4#32) 4 = r := ⟨_, rfl⟩
                obtain ⟨lo, d₂⟩ := r
                rw [hr]
                cases lo <;> rfl
          · rfl
        · rfl

theorem readVRest_access (c : Cpu β) (ea : U32) (len : ℕ) :
    AccessOn c fun d => d.readVRest ea len := by
  by_cases hle : c.st.msr &&& msr.LE ≠ 0#32
  · have hopen : ∀ d, SameAccess c d → (d.withPaths c).st.msr &&& msr.LE ≠ 0#32 := by
      intro d hs
      rw [show (d.withPaths c).st.msr = c.st.msr from hs.msr]
      exact hle
    by_cases h8 : len = 8
    · have hlo : ∀ (hi : U64) (m : Cpu β), AccessOn m fun d =>
          andThen (d.readPiece ((ea + 4#32) ^^^ 4#32) 4) fun lo d => (some ((hi <<< 32) ||| lo), d) := by
        intro hi m
        exact (readPiece_access m ((ea + 4#32) ^^^ 4#32) 4).bind fun lo m' _ =>
          AccessOn.ok ((hi <<< 32) ||| lo) (SamePaths.refl m') fun d _ => rfl
      refine ((readPiece_access c (ea ^^^ 4#32) 4).bind fun hi m _ => hlo hi m).congr fun d hs => ?_
      simp only [readVRest, if_pos (hopen d hs), if_pos h8]
    · refine (readVAt_access c (leMunge ea len) len).congr fun d hs => ?_
      simp only [readVRest, if_pos (hopen d hs), if_neg h8]
  · refine (readVAt_access c ea len).congr fun d hs => ?_
    have hopen : ¬ (d.withPaths c).st.msr &&& msr.LE ≠ 0#32 := by
      rw [show (d.withPaths c).st.msr = c.st.msr from hs.msr]
      exact hle
    simp only [readVRest, if_neg hopen]

/-- **A virtual read.** -/
theorem readV_access (c : Cpu β) (ea : U32) (len : ℕ) : AccessOn c fun d => d.readV ea len := by
  simp only [readV_eq]
  exact (checkAccess_access c ea len false _).bind fun _ m _ => readVRest_access m ea len

/-- A write reports its success as a truth value. -/
def asOption (r : Bool × Cpu β) : Option Unit × Cpu β := (if r.1 then some () else none, r.2)

theorem writePiece_eq (c : Cpu β) (ea : U32) (len : ℕ) (v : U64) :
    asOption (c.writePiece ea len v) = andThen (c.translate ea true false)
      fun x d => (some (), d.memWrite x.1 len v x.2) := by
  unfold writePiece
  obtain ⟨r, hr⟩ : ∃ r, c.translate ea true false = r := ⟨_, rfl⟩
  obtain ⟨value, c'⟩ := r
  rw [hr]
  cases value <;> rfl

theorem writePiece_access (c : Cpu β) (ea : U32) (len : ℕ) (v : U64) :
    AccessOn c fun d => asOption (d.writePiece ea len v) := by
  simp only [writePiece_eq]
  exact (translate_access c ea true).bind fun x m _ => memWrite_access m x.1 len v x.2

theorem writeBytes_cons (c : Cpu β) (ea : U32) (len : ℕ) (v : U64) (i : ℕ) (rest : List ℕ) :
    asOption (writeBytes ea len v (i :: rest) c)
      = andThen (asOption (c.writePiece (ea + BitVec.ofNat 32 i) 1 ((byteBE len i v).setWidth 64)))
        fun _ d => asOption (writeBytes ea len v rest d) := by
  rw [writeBytes]
  obtain ⟨r, hr⟩ : ∃ r, c.writePiece (ea + BitVec.ofNat 32 i) 1 ((byteBE len i v).setWidth 64) = r :=
    ⟨_, rfl⟩
  obtain ⟨done, d⟩ := r
  rw [hr]
  cases done <;> rfl

theorem writeBytes_access (ea : U32) (len : ℕ) (v : U64) (l : List ℕ) : ∀ c : Cpu β,
    AccessOn c fun d => asOption (writeBytes ea len v l d) := by
  induction l with
  | nil => exact fun c => AccessOn.ok () (SamePaths.refl c) fun d _ => rfl
  | cons i rest ih =>
      intro c
      simp only [writeBytes_cons]
      exact (writePiece_access c _ 1 _).bind fun _ m _ => ih m

theorem writeVAt_eq (c : Cpu β) (ea : U32) (len : ℕ) (v : U64) :
    asOption (c.writeVAt ea len v) = if onePage ea len then andThen (c.xlateData ea true)
        fun x d => (some (), d.memWrite x.1 len v x.2)
      else asOption (writeBytes ea len v (List.range len) c) := by
  unfold writeVAt
  obtain ⟨r, hr⟩ : ∃ r, c.xlateData ea true = r := ⟨_, rfl⟩
  obtain ⟨value, c'⟩ := r
  rw [hr]
  cases onePage ea len <;> cases value <;> rfl

theorem writeVAt_access (c : Cpu β) (ea : U32) (len : ℕ) (v : U64) :
    AccessOn c fun d => asOption (d.writeVAt ea len v) := by
  simp only [writeVAt_eq]
  by_cases hpage : onePage ea len = true
  · simp only [if_pos hpage]
    exact (xlateData_access c ea true).bind fun x m _ => memWrite_access m x.1 len v x.2
  · simp only [if_neg hpage]
    exact writeBytes_access ea len v (List.range len) c

/-- `writeV` behind its checks. -/
def writeVRest (c : Cpu β) (ea : U32) (len : ℕ) (v : U64) : Option Unit × Cpu β :=
  if c.st.msr &&& msr.LE ≠ 0#32 then
    if len = 8 then
      andThen (asOption (c.writePiece (ea ^^^ 4#32) 4 ((v >>> 32).setWidth 32 |>.setWidth 64)))
        fun _ d => asOption (d.writePiece ((ea + 4#32) ^^^ 4#32) 4 (v.setWidth 32 |>.setWidth 64))
    else asOption (c.writeVAt (leMunge ea len) len v)
  else asOption (c.writeVAt ea len v)

theorem writeV_eq (c : Cpu β) (ea : U32) (len : ℕ) (v : U64) :
    asOption (c.writeV ea len v)
      = andThen (c.checkAccess ea len true (0x00400000#32 ||| 0x02000000#32))
        fun _ d => d.writeVRest ea len v := by
  unfold writeV checkAccess
  obtain ⟨r, hr⟩ : ∃ r, c.leAlignCheck ea len = r := ⟨_, rfl⟩
  obtain ⟨aligned, d⟩ := r
  simp only [hr]
  cases aligned with
  | false => rfl
  | true =>
      simp only [Bool.not_true, Bool.false_eq_true, if_false]
      by_cases hdabr : dabrHit d.st ea true = true
      · rw [if_pos hdabr, if_pos hdabr]
        rfl
      · rw [if_neg hdabr, if_neg hdabr]
        show _ = d.writeVRest ea len v
        unfold writeVRest
        split
        · split
          · obtain ⟨r, hr⟩ : ∃ r, d.writePiece (ea ^^^ 4#32) 4
              ((v >>> 32).setWidth 32 |>.setWidth 64) = r := ⟨_, rfl⟩
            obtain ⟨done, d₁⟩ := r
            rw [hr]
            cases done <;> rfl
          · rfl
        · rfl

theorem writeVRest_access (c : Cpu β) (ea : U32) (len : ℕ) (v : U64) :
    AccessOn c fun d => d.writeVRest ea len v := by
  by_cases hle : c.st.msr &&& msr.LE ≠ 0#32
  · have hopen : ∀ d, SameAccess c d → (d.withPaths c).st.msr &&& msr.LE ≠ 0#32 := by
      intro d hs
      rw [show (d.withPaths c).st.msr = c.st.msr from hs.msr]
      exact hle
    by_cases h8 : len = 8
    · have hlo : ∀ m : Cpu β, AccessOn m fun d =>
          asOption (d.writePiece ((ea + 4#32) ^^^ 4#32) 4 (v.setWidth 32 |>.setWidth 64)) :=
        fun m => writePiece_access m _ 4 _
      refine ((writePiece_access c (ea ^^^ 4#32) 4 ((v >>> 32).setWidth 32 |>.setWidth 64)).bind
        fun _ m _ => hlo m).congr fun d hs => ?_
      simp only [writeVRest, if_pos (hopen d hs), if_pos h8]
    · refine (writeVAt_access c (leMunge ea len) len v).congr fun d hs => ?_
      simp only [writeVRest, if_pos (hopen d hs), if_neg h8]
  · refine (writeVAt_access c ea len v).congr fun d hs => ?_
    have hopen : ¬ (d.withPaths c).st.msr &&& msr.LE ≠ 0#32 := by
      rw [show (d.withPaths c).st.msr = c.st.msr from hs.msr]
      exact hle
    simp only [writeVRest, if_neg hopen]

/-- **A virtual write.** -/
theorem writeV_access (c : Cpu β) (ea : U32) (len : ℕ) (v : U64) :
    AccessOn c fun d => asOption (d.writeV ea len v) := by
  simp only [writeV_eq]
  exact (checkAccess_access c ea len true _).bind fun _ m _ => writeVRest_access m ea len v

end Data

end Cpu

end OpenPowerMac
