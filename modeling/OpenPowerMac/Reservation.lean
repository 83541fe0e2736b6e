/-
The reservation: `h_lwarx` and `h_stwcx` (`core/src/exec_int.cpp`) among loads, stores,
exceptions and the announced writes of bus masters (`snoopBeforeDmaWrite`).

`h_lwarx` files the granule it reserves as a physical one, because bus masters write
physical memory. `snoopPush` never looks at it: a master's write leaves a reservation as
it was. So a conditional store is trustworthy exactly as long as no master has written the
granule while it was reserved.
-/
import OpenPowerMac.LoadStore
import OpenPowerMac.AccessFrame

set_option autoImplicit false

namespace OpenPowerMac

namespace Cpu

variable {β : Type}

/-! ## What leaves the reservation alone -/

/-- The reservation has not moved. -/
structure SameResv (c c' : Cpu β) : Prop where
  valid : c'.st.resvValid = c.st.resvValid
  addr : c'.st.resvAddr = c.st.resvAddr

variable {c c' c'' : Cpu β}

theorem SameResv.refl (c : Cpu β) : SameResv c c := ⟨rfl, rfl⟩

theorem SameResv.trans (h : SameResv c c') (h' : SameResv c' c'') : SameResv c c'' :=
  ⟨h'.valid.trans h.valid, h'.addr.trans h.addr⟩

theorem sameResv_raiseAlign (insn ea : U32) : SameResv c (c.raiseAlign insn ea) := ⟨rfl, rfl⟩

theorem sameResv_earTrap (ea bits : U32) : SameResv c (c.earTrap ea bits) := ⟨rfl, rfl⟩

section Accesses

variable {α : Type} {p : Cpu β → Option α × Cpu β}

/-- An access ends with a value and the flags as they were, or raises. -/
theorem AccessOn.outcome (h : AccessOn c p) :
    (∃ a c', p c = (some a, c') ∧ SameResv c c' ∧ c'.raisedThisStep = c.raisedThisStep)
    ∨ ∃ c', p c = (none, c') ∧ SameResv c c' ∧ c'.raisedThisStep = true := by
  obtain ⟨r, m, -, hp⟩ := h
  have hrun : p c = (r.toOption, (c.settle r).withPaths m) := hp c (SameAccess.refl c)
  rcases r with r | a
  · refine .inr ⟨_, hrun, ?_, ?_⟩
    · show SameResv c ((c.refused r (c.st.pc - 4#32)).withPaths m)
      unfold refused
      rcases r.regs with _ | ⟨dar, dsisr⟩ <;> exact ⟨rfl, rfl⟩
    · show ((c.refused r (c.st.pc - 4#32)).withPaths m).raisedThisStep = true
      unfold refused
      rcases r.regs with _ | ⟨dar, dsisr⟩ <;> rfl
  · exact .inl ⟨a, _, hrun, ⟨rfl, rfl⟩, rfl⟩

end Accesses

section Data

variable [Bus β]

theorem readV_outcome (c : Cpu β) (ea : U32) (len : ℕ) :
    (∃ v c', c.readV ea len = (some v, c') ∧ SameResv c c' ∧ c'.raisedThisStep = c.raisedThisStep)
    ∨ ∃ c', c.readV ea len = (none, c') ∧ SameResv c c' ∧ c'.raisedThisStep = true :=
  (readV_access c ea len).outcome

theorem translate_outcome (c : Cpu β) (ea : U32) (write : Bool) :
    (∃ x c', c.translate ea write false = (some x, c') ∧ SameResv c c'
      ∧ c'.raisedThisStep = c.raisedThisStep)
    ∨ ∃ c', c.translate ea write false = (none, c') ∧ SameResv c c' ∧ c'.raisedThisStep = true :=
  (translate_access c ea write).outcome

theorem writeV_outcome (c : Cpu β) (ea : U32) (len : ℕ) (v : U64) :
    (∃ c', c.writeV ea len v = (true, c') ∧ SameResv c c' ∧ c'.raisedThisStep = c.raisedThisStep)
    ∨ ∃ c', c.writeV ea len v = (false, c') ∧ SameResv c c' ∧ c'.raisedThisStep = true := by
  rcases hrun : c.writeV ea len v with ⟨ok, c₁⟩
  have hopt : asOption (c.writeV ea len v) = (if ok then some () else none, c₁) := by
    rw [hrun]
    rfl
  rcases (writeV_access c ea len v).outcome with ⟨a, c', heq, hkept⟩ | ⟨c', heq, hkept⟩
  · rw [hopt] at heq
    rcases ok with _ | _
    · cases heq
    · obtain rfl : c₁ = c' := (Prod.mk.inj heq).2
      exact .inl ⟨c₁, rfl, hkept⟩
  · rw [hopt] at heq
    rcases ok with _ | _
    · obtain rfl : c₁ = c' := (Prod.mk.inj heq).2
      exact .inr ⟨c₁, rfl, hkept⟩
    · cases heq

/-! ## Loads and stores -/

/-- What is done with a value that was read, where it leaves the reservation alone. -/
theorem sameResv_read {ea : U32} {len : ℕ} {k : U64 → Cpu β → Cpu β}
    (hk : ∀ v c', SameResv c' (k v c')) :
    SameResv c (match c.readV ea len with
      | (none, c) => c
      | (some v, c) => k v c) := by
  rcases readV_outcome c ea len with ⟨v, c', heq, hresv, -⟩ | ⟨c', heq, hresv, -⟩
  · rw [heq]
    exact hresv.trans (hk v c')
  · rw [heq]
    exact hresv

theorem sameResv_write {ea : U32} {len : ℕ} {v : U64} {k : Cpu β → Cpu β}
    (hk : ∀ c', SameResv c' (k c')) :
    SameResv c (match c.writeV ea len v with
      | (false, c) => c
      | (true, c) => k c) := by
  rcases writeV_outcome c ea len v with ⟨c', heq, hresv, -⟩ | ⟨c', heq, hresv, -⟩
  · rw [heq]
    exact hresv.trans (hk c')
  · rw [heq]
    exact hresv

theorem sameResv_writeV (ea : U32) (len : ℕ) (v : U64) : SameResv c (c.writeV ea len v).2 := by
  rcases writeV_outcome c ea len v with ⟨c', heq, hresv, -⟩ | ⟨c', heq, hresv, -⟩ <;>
    exact heq ▸ hresv

theorem load_resv (eakind : EaKind) (len : ℕ) (xf : U32 → U32) (i : U32) :
    SameResv c (load eakind len xf c i) :=
  sameResv_read fun _ _ => ⟨rfl, rfl⟩

theorem loadu_resv (eakind : EaKind) (len : ℕ) (xf : U32 → U32) (i : U32) :
    SameResv c (loadu eakind len xf c i) :=
  sameResv_read fun _ _ => ⟨rfl, rfl⟩

theorem store_resv (eakind : EaKind) (len : ℕ) (xf : U32 → U32) (i : U32) :
    SameResv c (store eakind len xf c i) := sameResv_writeV _ _ _

theorem storeu_resv (eakind : EaKind) (len : ℕ) (i : U32) : SameResv c (storeu eakind len c i) :=
  sameResv_write fun _ => ⟨rfl, rfl⟩

theorem lmwLoop_resv (rs : List (BitVec 5)) : ∀ (ea : U32) (c : Cpu β),
    SameResv c (lmwLoop rs ea c) := by
  induction rs with
  | nil => exact fun _ c => SameResv.refl c
  | cons r rs ih =>
      intro ea c
      refine sameResv_read fun v c' => ?_
      have hset : SameResv c' (c'.onUser fun u => u.setGpr r (v.setWidth 32)) := ⟨rfl, rfl⟩
      exact hset.trans (ih (ea + 4#32) _)

theorem stmwLoop_resv (rs : List (BitVec 5)) : ∀ (ea : U32) (c : Cpu β),
    SameResv c (stmwLoop rs ea c) := by
  induction rs with
  | nil => exact fun _ c => SameResv.refl c
  | cons r rs ih => exact fun ea c => sameResv_write fun c' => ih (ea + 4#32) c'

theorem loadStringLoop_resv (n : ℕ) : ∀ (r : BitVec 5) (sh : ℕ) (ea : U32) (c : Cpu β),
    SameResv c (loadStringLoop n r sh ea c) := by
  induction n with
  | zero => exact fun _ _ _ c => SameResv.refl c
  | succ n ih =>
      intro r sh ea c
      refine sameResv_read fun v c' => ?_
      have hset : SameResv c' (c'.onUser fun u => u.setGpr r (u.gpr r ||| (v.setWidth 32 <<< sh))) :=
        ⟨rfl, rfl⟩
      refine hset.trans ?_
      by_cases hlast : sh = 0
      · rw [if_pos hlast]
        refine SameResv.trans ?_ (ih _ _ _ _)
        split <;> exact ⟨rfl, rfl⟩
      · rw [if_neg hlast]
        exact ih _ _ _ _

theorem storeStringLoop_resv (n : ℕ) : ∀ (r : BitVec 5) (sh : ℕ) (ea : U32) (c : Cpu β),
    SameResv c (storeStringLoop n r sh ea c) := by
  induction n with
  | zero => exact fun _ _ _ c => SameResv.refl c
  | succ n ih =>
      intro r sh ea c
      refine sameResv_write fun c' => ?_
      split
      · exact ih _ _ _ _
      · exact ih _ _ _ _

theorem loadString_resv (rt : BitVec 5) (ea : U32) (n : ℕ) : SameResv c (c.loadString rt ea n) := by
  refine SameResv.trans ?_ (loadStringLoop_resv _ _ _ _ _)
  by_cases hn : n = 0
  · rw [if_pos hn]
    exact SameResv.refl c
  · rw [if_neg hn]
    exact ⟨rfl, rfl⟩

omit [Bus β] in
theorem multiple_resv (hf : SameResv c c') {traps : Bool} {insn ea : U32} :
    SameResv c (if traps then c.raiseAlign insn ea else c') := by
  cases traps
  · exact hf
  · exact sameResv_raiseAlign insn ea

theorem fload_resv (eakind : EaKind) (conv : U64 → U64) (len : ℕ) (upd : Bool) (i : U32) :
    SameResv c (fload eakind conv len upd c i) := by
  by_cases halign : eakind c.st.user i &&& 3#32 ≠ 0#32
  · rw [fload, if_pos halign]
    exact sameResv_raiseAlign _ _
  · rw [fload, if_neg halign]
    exact sameResv_read fun _ _ => by cases upd <;> exact ⟨rfl, rfl⟩

theorem fstore_resv (eakind : EaKind) (val : U64 → U64) (len : ℕ) (upd : Bool) (i : U32) :
    SameResv c (fstore eakind val len upd c i) := by
  by_cases halign : eakind c.st.user i &&& 3#32 ≠ 0#32
  · rw [fstore, if_pos halign]
    exact sameResv_raiseAlign _ _
  · rw [fstore, if_neg halign]
    exact sameResv_write fun _ => by cases upd <;> exact ⟨rfl, rfl⟩

theorem lvxLoop_resv (ea : U32) (ks : List ℕ) : ∀ (v : List U8) (c : Cpu β),
    SameResv c (lvxLoop ea ks v c).2 := by
  induction ks with
  | nil => exact fun _ c => SameResv.refl c
  | cons k ks ih =>
      intro v c
      rw [lvxLoop]
      rcases readV_outcome c (ea + BitVec.ofNat 32 k) 1 with ⟨b, c', heq, hresv, -⟩
        | ⟨c', heq, hresv, -⟩
      · rw [heq]
        exact hresv.trans (ih _ c')
      · rw [heq]
        exact hresv

theorem stvxLoop_resv (ea : U32) (v : BitVec 4 → U8) (ks : List ℕ) : ∀ c : Cpu β,
    SameResv c (stvxLoop ea v ks c) := by
  induction ks with
  | nil => exact fun c => SameResv.refl c
  | cons k ks ih => exact fun c => sameResv_write fun c' => ih c'

theorem h_lvx_resv (i : U32) : SameResv c (h_lvx c i) := by
  have hloop := lvxLoop_resv (c.st.user.eaX i &&& ~~~15#32) (List.range 16) [] c
  rw [h_lvx]
  rcases hrun : lvxLoop (c.st.user.eaX i &&& ~~~15#32) (List.range 16) [] c with ⟨_ | v, c'⟩
  · rw [hrun] at hloop
    exact hloop
  · rw [hrun] at hloop
    exact hloop.trans ⟨rfl, rfl⟩

theorem loadElement_resv (len : ℕ) (i : U32) : SameResv c (loadElement len c i) :=
  sameResv_read fun _ _ => ⟨rfl, rfl⟩

theorem h_eciwx_resv (i : U32) : SameResv c (h_eciwx c i) := by
  by_cases halign : c.st.user.eaX i &&& 3#32 ≠ 0#32
  · rw [h_eciwx, if_pos halign]
    exact sameResv_raiseAlign _ _
  by_cases hear : c.st.ear &&& 0x80000000#32 = 0#32
  · rw [h_eciwx, if_neg halign, if_pos hear]
    exact sameResv_earTrap _ _
  · rw [h_eciwx, if_neg halign, if_neg hear]
    exact sameResv_read fun _ _ => ⟨rfl, rfl⟩

theorem h_ecowx_resv (i : U32) : SameResv c (h_ecowx c i) := by
  by_cases halign : c.st.user.eaX i &&& 3#32 ≠ 0#32
  · rw [h_ecowx, if_pos halign]
    exact sameResv_raiseAlign _ _
  by_cases hear : c.st.ear &&& 0x80000000#32 = 0#32
  · rw [h_ecowx, if_neg halign, if_pos hear]
    exact sameResv_earTrap _ _
  · rw [h_ecowx, if_neg halign, if_neg hear]
    exact sameResv_writeV _ _ _

/-- The loads and stores but the two of the reservation. -/
def ordinary : List (Handler β) :=
  [h_lwz, h_lbz, h_lhz, h_lha, h_lwzx, h_lbzx, h_lhzx, h_lhax, h_lwzu, h_lbzu, h_lhzu, h_lhau,
    h_lwzux, h_lbzux, h_lhzux, h_lhaux, h_lwbrx, h_lhbrx, h_stw, h_stb, h_sth, h_stwx, h_stbx,
    h_sthx, h_stwu, h_stbu, h_sthu, h_stwux, h_stbux, h_sthux, h_stwbrx, h_sthbrx, h_lmw, h_stmw,
    h_lswi, h_stswi, h_lswx, h_stswx, h_lfs, h_lfsu, h_lfsx, h_lfsux, h_lfd, h_lfdu, h_lfdx,
    h_lfdux, h_stfs, h_stfsu, h_stfsx, h_stfsux, h_stfd, h_stfdu, h_stfdx, h_stfdux, h_stfiwx,
    h_eciwx, h_ecowx, h_lvx, h_stvx, h_lvebx, h_lvehx, h_lvewx, h_stvebx, h_stvehx, h_stvewx]

theorem ordinary_resv (c : Cpu β) (i : U32) : ∀ h ∈ ordinary, SameResv c (h c i) := by
  simp only [ordinary, List.forall_mem_cons, List.not_mem_nil, false_imp_iff, implies_true, and_true]
  have hl : ∀ eakind len xf, SameResv c (load eakind len xf c i) := fun _ _ _ => load_resv _ _ _ _
  have hlu : ∀ eakind len xf, SameResv c (loadu eakind len xf c i) := fun _ _ _ => loadu_resv _ _ _ _
  have hs : ∀ eakind len xf, SameResv c (store eakind len xf c i) := fun _ _ _ => store_resv _ _ _ _
  have hsu : ∀ eakind len, SameResv c (storeu eakind len c i) := fun _ _ => storeu_resv _ _ _
  have hfl : ∀ eakind conv len upd, SameResv c (fload eakind conv len upd c i) :=
    fun _ _ _ _ => fload_resv _ _ _ _ _
  have hfs : ∀ eakind val len upd, SameResv c (fstore eakind val len upd c i) :=
    fun _ _ _ _ => fstore_resv _ _ _ _ _
  have hse : ∀ len, SameResv c (storeElement len c i) := fun _ => sameResv_writeV _ _ _
  exact ⟨hl _ _ _, hl _ _ _, hl _ _ _, hl _ _ _, hl _ _ _, hl _ _ _, hl _ _ _, hl _ _ _,
    hlu _ _ _, hlu _ _ _, hlu _ _ _, hlu _ _ _, hlu _ _ _, hlu _ _ _, hlu _ _ _, hlu _ _ _,
    hl _ _ _, hl _ _ _,
    hs _ _ _, hs _ _ _, hs _ _ _, hs _ _ _, hs _ _ _, hs _ _ _,
    hsu _ _, hsu _ _, hsu _ _, hsu _ _, hsu _ _, hsu _ _,
    hs _ _ _, hs _ _ _,
    multiple_resv (lmwLoop_resv _ _ _), multiple_resv (stmwLoop_resv _ _ _),
    multiple_resv (loadString_resv _ _ _), multiple_resv (storeStringLoop_resv _ _ _ _ _),
    multiple_resv (loadString_resv _ _ _), multiple_resv (storeStringLoop_resv _ _ _ _ _),
    hfl _ _ _ _, hfl _ _ _ _, hfl _ _ _ _, hfl _ _ _ _, hfl _ _ _ _, hfl _ _ _ _, hfl _ _ _ _,
    hfl _ _ _ _,
    hfs _ _ _ _, hfs _ _ _ _, hfs _ _ _ _, hfs _ _ _ _, hfs _ _ _ _, hfs _ _ _ _, hfs _ _ _ _,
    hfs _ _ _ _, hfs _ _ _ _,
    h_eciwx_resv i, h_ecowx_resv i, h_lvx_resv i, stvxLoop_resv _ _ _ c,
    loadElement_resv _ i, loadElement_resv _ i, loadElement_resv _ i, hse _, hse _, hse _⟩

/-! ## Bus masters -/

theorem busWriteLine_st (base : U32) (b : Line) : (c.busWriteLine base b).st = c.st :=
  ((busWriteLine_memOnly base b).core c).st

theorem snoopL1_st (a : U32) (invalidate : Bool) : (c.snoopL1 a invalidate).st = c.st := by
  unfold snoopL1
  split
  · split
    · rfl
    · next w _ =>
      have hpush : ((((c.busWriteLine a (c.l1d (setOf a) w).b).setDLine (setOf a) w
          { b := (c.l1d (setOf a) w).b, d := false }).l2Invalidate a).st) = c.st :=
        ((l2Invalidate_memOnly a).core _).st.trans (busWriteLine_st a (c.l1d (setOf a) w).b)
      by_cases hd : (c.l1d (setOf a) w).d = true
      · simp only [if_pos hd]
        cases invalidate
        · exact hpush
        · exact hpush
      · simp only [if_neg hd]
        cases invalidate <;> rfl
  · rfl

theorem snoopL2_st (a : U32) (invalidate : Bool) : (c.snoopL2 a invalidate).st = c.st := by
  have hfind := ((l2Find_memOnly a).core c).st
  unfold snoopL2
  rcases hrun : c.l2Find a with ⟨_ | i, c'⟩
  · rw [hrun] at hfind
    exact hfind
  · rw [hrun] at hfind
    have hpush : ((c'.busWriteLine a (c'.l2At i).b).l2Put i { c'.l2At i with d := false }).st = c.st :=
      (busWriteLine_st a (c'.l2At i).b).trans hfind
    by_cases hd : (c'.l2At i).d = true
    · simp only [if_pos hd]
      cases invalidate
      · exact hpush
      · exact hpush
    · simp only [if_neg hd]
      cases invalidate <;> exact hfind

theorem snoopLoop_st (invalidate : Bool) (last : U32) (fuel : ℕ) : ∀ (a : U32) (c : Cpu β),
    (snoopLoop invalidate last fuel a c).st = c.st := by
  induction fuel with
  | zero => exact fun _ _ => rfl
  | succ fuel ih =>
      intro a c
      have hblock : (c.snoopBlock a invalidate).st = c.st := by
        rw [snoopBlock, snoopL2_st, snoopL1_st]
        cases invalidate
        · rfl
        · exact ((fetchDropAt_memOnly a).core c).st
      rw [snoopLoop]
      split
      · exact hblock
      · exact (ih _ _).trans hblock

theorem snoopPush_st (pa len : U32) (invalidate : Bool) :
    (c.snoopPush pa len invalidate).st = c.st := by
  rw [snoopPush]
  split
  · rfl
  · exact snoopLoop_st _ _ _ _ _

/-! ## Runs -/

/-- What the processor and the bus masters do. -/
inductive ResvEvent (β : Type) [Bus β] where
  | lwarx (i : U32)
  | stwcx (i : U32)
  | access (h : Handler β) (hh : h ∈ ordinary) (i : U32)
  | exception (v : Exc) (srr0 extra : U32)
  | dmaWrite (pa len : U32) (bus : β)

/-- A range of physical addresses touches a granule. -/
def TouchesGranule (pa len granule : U32) : Prop :=
  ∃ k < len.toNat, (pa + BitVec.ofNat 32 k) &&& ~~~31#32 = granule

instance (pa len granule : U32) : Decidable (TouchesGranule pa len granule) :=
  inferInstanceAs (Decidable (∃ k < len.toNat, _))

/-- A processor, and whether a bus master has written the granule of the last lwarx since. -/
structure Watched (β : Type) where
  cpu : Cpu β
  touched : Bool

/-- One step. A bus master announces its write and then leaves the bus as it likes. -/
def Watched.step (w : Watched β) : ResvEvent β → Watched β
  | .lwarx i =>
      let c := w.cpu.dispatch h_lwarx i
      { cpu := c, touched := if c.raisedThisStep then w.touched else false }
  | .stwcx i => { w with cpu := w.cpu.dispatch h_stwcx i }
  | .access h _ i => { w with cpu := w.cpu.dispatch h i }
  | .exception v srr0 extra => { w with cpu := w.cpu.raiseExc v srr0 extra }
  | .dmaWrite pa len bus =>
      { cpu := (w.cpu.snoopPush pa len true).setBus bus
        touched := w.touched || decide (TouchesGranule pa len w.cpu.st.resvAddr) }

def Watched.run (w : Watched β) (es : List (ResvEvent β)) : Watched β := es.foldl Watched.step w

/-- A conditional store that completes clears the reservation, and if it says that it has
stored, no bus master has written the granule since the last lwarx. -/
def ResvHonoured (w : Watched β) : ResvEvent β → Prop
  | .stwcx i =>
      let c := w.cpu.dispatch h_stwcx i
      c.raisedThisStep = false →
        c.st.resvValid = false ∧ (c.st.cr &&& 0x20000000#32 ≠ 0#32 → w.touched = false)
  | _ => True

/-- No bus master writes a granule while it is reserved. -/
def ResvRespected (w : Watched β) : ResvEvent β → Prop
  | .dmaWrite pa len _ => w.cpu.st.resvValid = true → ¬ TouchesGranule pa len w.cpu.st.resvAddr
  | _ => True

/-- Each event of a run has a property in the state it meets. -/
def AlongEvents (P : Watched β → ResvEvent β → Prop) : Watched β → List (ResvEvent β) → Prop
  | _, [] => True
  | w, e :: es => P w e ∧ AlongEvents P (w.step e) es

/-- While a granule is reserved, nothing has touched it. -/
def Unspoiled (w : Watched β) : Prop := w.cpu.st.resvValid = true → w.touched = false

theorem lwarx_outcome (c : Cpu β) (i : U32) :
    (SameResv c (h_lwarx c i) ∧ (h_lwarx c i).raisedThisStep = true)
    ∨ ((h_lwarx c i).st.resvValid = true ∧ (h_lwarx c i).raisedThisStep = c.raisedThisStep) := by
  by_cases halign : c.st.user.eaX i &&& 3#32 ≠ 0#32
  · rw [h_lwarx, if_pos halign]
    exact .inl ⟨sameResv_raiseAlign _ _, rfl⟩
  rw [h_lwarx, if_neg halign]
  rcases translate_outcome c (c.st.user.eaX i) false with ⟨x, c', heq, hresv, hraised⟩
    | ⟨c', heq, hresv, hraised⟩
  · rcases readV_outcome c' (c.st.user.eaX i) 4 with ⟨v, c'', heq', hresv', hraised'⟩
      | ⟨c'', heq', hresv', hraised'⟩
    · simp only [heq, heq']
      exact .inr ⟨rfl, hraised'.trans hraised⟩
    · simp only [heq, heq']
      exact .inl ⟨hresv.trans hresv', hraised'⟩
  · simp only [heq]
    exact .inl ⟨hresv, hraised⟩

/-- CR0[EQ] of a conditional store that has not stored. -/
theorem stwcxCr_false (u : UserRegs) : (stwcxCr false u).cr &&& 0x20000000#32 = 0#32 := by
  have hso : (u.xer >>> 31) &&& 1#32 = 0#32 ∨ (u.xer >>> 31) &&& 1#32 = 1#32 := by
    have hlt : ((u.xer >>> 31) &&& 1#32).toNat < 2 := by
      rw [BitVec.toNat_and]
      exact Nat.lt_succ_of_le Nat.and_le_right
    rcases Nat.lt_or_ge ((u.xer >>> 31) &&& 1#32).toNat 1 with h | h
    · exact .inl (BitVec.eq_of_toNat_eq (by rw [BitVec.toNat_zero]; omega))
    · exact .inr (BitVec.eq_of_toNat_eq (show _ = 1 by omega))
  have hcr : (stwcxCr false u).cr = (u.cr &&& 0x0FFFFFFF#32)
      ||| ((((u.xer >>> 31) &&& 1#32) &&& 0xF#32) <<< 28) := by
    show (u.cr &&& ~~~(0xF#32 <<< 28)) ||| (((0#32 ||| ((u.xer >>> 31) &&& 1#32)) &&& 0xF#32) <<< 28)
      = _
    rw [BitVec.zero_or]
    rfl
  rw [hcr, BitVec.and_comm, BitVec.and_or_distrib_left, ← BitVec.and_assoc,
    BitVec.and_comm 0x20000000#32 u.cr, BitVec.and_assoc]
  have hlow : u.cr &&& (0x20000000#32 &&& 0x0FFFFFFF#32) = 0#32 := BitVec.and_zero
  rcases hso with h | h <;> rw [h, hlow] <;> rfl

theorem stwcx_outcome (c : Cpu β) (i : U32) :
    (SameResv c (h_stwcx c i) ∧ (h_stwcx c i).raisedThisStep = true)
    ∨ ((h_stwcx c i).st.resvValid = false
      ∧ (c.st.resvValid = false → (h_stwcx c i).st.cr &&& 0x20000000#32 = 0#32)) := by
  by_cases halign : c.st.user.eaX i &&& 3#32 ≠ 0#32
  · rw [h_stwcx, if_pos halign]
    exact .inl ⟨sameResv_raiseAlign _ _, rfl⟩
  rw [h_stwcx, if_neg halign]
  rcases translate_outcome c (c.st.user.eaX i) true with ⟨x, c', heq, hresv, hraised⟩
    | ⟨c', heq, hresv, hraised⟩
  · simp only [heq]
    by_cases hvalid : c'.st.resvValid = true
    · rw [if_pos hvalid]
      rcases writeV_outcome c' (c.st.user.eaX i) 4 ((c'.st.gpr (f_rt i)).setWidth 64) with
        ⟨c'', heq', -, -⟩ | ⟨c'', heq', hresv', hraised'⟩
      · simp only [heq']
        refine .inr ⟨rfl, fun hnone => ?_⟩
        rw [hresv.valid, hnone] at hvalid
        cases hvalid
      · simp only [heq']
        exact .inl ⟨hresv.trans hresv', hraised'⟩
    · rw [if_neg hvalid]
      exact .inr ⟨rfl, fun _ => stwcxCr_false _⟩
  · simp only [heq]
    exact .inl ⟨hresv, hraised⟩

omit [Bus β] in
theorem dispatch_resv (c : Cpu β) (h : Handler β) (i : U32) (hh : ∀ d, SameResv d (h d i)) :
    SameResv c (c.dispatch h i) :=
  (show SameResv c { c with
    raisedThisStep := false, curInsn := i, st := { c.st with pc := c.st.pc + 4#32 } }
    from ⟨rfl, rfl⟩).trans (hh _)

/-- A step between masters that respect the reservation. -/
theorem unspoiled_step {w : Watched β} {e : ResvEvent β} (hu : Unspoiled w)
    (he : ResvRespected w e) : ResvHonoured w e ∧ Unspoiled (w.step e) := by
  rcases e with i | i | ⟨h, hh, i⟩ | ⟨v, srr0, extra⟩ | ⟨pa, len, bus⟩
  · -- an lwarx that completes starts anew; one that raises leaves everything as it was
    refine ⟨trivial, ?_⟩
    intro hvalid
    show (if (w.cpu.dispatch h_lwarx i).raisedThisStep then w.touched else false) = false
    rcases lwarx_outcome { w.cpu with
        raisedThisStep := false, curInsn := i, st := { w.cpu.st with pc := w.cpu.st.pc + 4#32 } } i
      with ⟨hresv, hraised⟩ | ⟨-, hraised⟩
    · have hraised : (w.cpu.dispatch h_lwarx i).raisedThisStep = true := hraised
      rw [if_pos hraised]
      exact hu (hresv.valid.symm.trans hvalid)
    · have hraised : (w.cpu.dispatch h_lwarx i).raisedThisStep = false := hraised
      rw [if_neg (by rw [hraised]; exact Bool.false_ne_true)]
  · rcases stwcx_outcome { w.cpu with
        raisedThisStep := false, curInsn := i, st := { w.cpu.st with pc := w.cpu.st.pc + 4#32 } } i
      with ⟨hresv, hraised⟩ | ⟨hcleared, hfails⟩
    · have hraised : (w.cpu.dispatch h_stwcx i).raisedThisStep = true := hraised
      refine ⟨fun hdone => ?_, fun hvalid => hu (hresv.valid.symm.trans hvalid)⟩
      rw [hraised] at hdone
      cases hdone
    · have hcleared : (w.cpu.dispatch h_stwcx i).st.resvValid = false := hcleared
      refine ⟨fun _ => ⟨hcleared, fun hstored => hu ?_⟩, fun hvalid => ?_⟩
      · by_contra hnone
        exact hstored (hfails (Bool.not_eq_true _ ▸ hnone))
      · have hvalid : (w.cpu.dispatch h_stwcx i).st.resvValid = true := hvalid
        rw [hcleared] at hvalid
        cases hvalid
  · refine ⟨trivial, fun hvalid => hu ?_⟩
    have hresv := dispatch_resv w.cpu h i fun d => ordinary_resv d i h hh
    exact hresv.valid.symm.trans hvalid
  · exact ⟨trivial, hu⟩
  · refine ⟨trivial, fun hvalid => ?_⟩
    have hst : ((w.cpu.snoopPush pa len true).setBus bus).st = w.cpu.st := snoopPush_st pa len true
    have hvalid : w.cpu.st.resvValid = true := by
      rw [← hst]
      exact hvalid
    show (w.touched || decide (TouchesGranule pa len w.cpu.st.resvAddr)) = false
    rw [hu hvalid, decide_eq_false (he hvalid), Bool.or_false]

theorem unspoiled_run (es : List (ResvEvent β)) : ∀ {w : Watched β}, Unspoiled w →
    AlongEvents ResvRespected w es → AlongEvents ResvHonoured w es := by
  induction es with
  | nil => exact fun _ _ => trivial
  | cons e es ih =>
      rintro w hu ⟨he, hrest⟩
      obtain ⟨hheld, hu'⟩ := unspoiled_step hu he
      exact ⟨hheld, ih hu' hrest⟩

/-- **Conditional stores among bus masters that respect the reservation**: each that
completes clears it, and each that has stored did so over memory no master has written
since the lwarx. -/
theorem resv_honoured (c : Cpu β) (es : List (ResvEvent β))
    (h : AlongEvents ResvRespected ⟨c, false⟩ es) : AlongEvents ResvHonoured ⟨c, false⟩ es :=
  unspoiled_run es (fun _ => rfl) h

end Data

/-! ## A write that the reservation survives -/

/-- A processor in real mode with its caches off. -/
def realMode : Cpu PlainBus := { bus := { mem := fun _ => 0#8 } }

/-- The instruction word of both, with the address in r5. -/
def resvInsn : U32 := 0x7C602828#32

/-- A master writes the next granule but one. -/
theorem resv_honoured_apart : AlongEvents ResvHonoured (⟨realMode, false⟩ : Watched PlainBus)
    [.lwarx resvInsn, .dmaWrite 64#32 4#32 { mem := fun _ => 0xFF#8 }, .stwcx resvInsn] := by
  refine resv_honoured realMode _ ⟨trivial, fun _ => ?_, trivial, trivial⟩
  decide

/-- A master writes the granule itself, and the conditional store still says that it has
stored. -/
theorem resv_survives : ¬ AlongEvents ResvHonoured (⟨realMode, false⟩ : Watched PlainBus)
    [.lwarx resvInsn, .dmaWrite 0#32 4#32 { mem := fun _ => 0xFF#8 }, .stwcx resvInsn] := by
  rintro ⟨-, -, hheld, -⟩
  have hstored := (hheld (by decide)).2 (by decide +kernel)
  exact absurd hstored (by decide)

end Cpu

end OpenPowerMac
