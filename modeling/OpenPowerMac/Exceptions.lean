/-
Raise and return: `Cpu::raiseExc` (`core/src/exceptions.cpp`) against `h_rfi`
(`core/src/exec_int.cpp`).

SRR1 is one word shared by two tenants. The save mask keeps a copy of most of
the MSR in it, and the status mask lets the cause of the exception into the
positions that are left. `h_rfi` then restores under a third mask, the bits the
processor implements (`msr::VALID`), which looks at neither of the first two.

What comes back is therefore read off the masks alone: an implemented bit in a
saved position returns, and an implemented bit in a status position is whatever
the cause had there. Two implemented bits lie in status positions, ILE and POW.
ILE is never saved, so a processor that had it set loses it, and POW is the bit
the privileged cause uses, so returning from that exception sets it.
-/
import OpenPowerMac.Cpu

set_option autoImplicit false

namespace OpenPowerMac

/-! ## Words kept under two masks -/

section Masks

variable {n : ℕ} {m x kept lent : BitVec n}

/-- A word that lies within two disjoint masks, with its share of the second
one replaced by another word's, is unchanged exactly if the two agree there. -/
theorem merge_eq_iff (hwithin : m &&& (kept ||| lent) = m) (hdisj : kept &&& lent = 0) :
    (m &&& kept) ||| (x &&& lent) = m ↔ x &&& lent = m &&& lent := by
  constructor
  · intro h
    -- under the second mask the kept part is invisible
    calc x &&& lent
        = ((m &&& kept) ||| (x &&& lent)) &&& lent := by
          ext i hi
          have hoff : (kept &&& lent)[i] = (0 : BitVec n)[i] := by rw [hdisj]
          simp only [BitVec.getElem_and, BitVec.getElem_or] at hoff ⊢
          grind
      _ = m &&& lent := by rw [h]
  · intro h
    calc (m &&& kept) ||| (x &&& lent)
        = (m &&& kept) ||| (m &&& lent) := by rw [h]
      _ = m &&& (kept ||| lent) := by
          ext i hi
          simp only [BitVec.getElem_and, BitVec.getElem_or]
          grind
      _ = m := hwithin

/-- Masking a word that two masks composed, when a third mask is applied. -/
theorem merge_and (m x save status valid : BitVec n) :
    ((m &&& save) ||| (x &&& status)) &&& valid
      = (m &&& (save &&& valid)) ||| (x &&& (status &&& valid)) := by
  ext i hi
  simp only [BitVec.getElem_and, BitVec.getElem_or]
  grind

end Masks

namespace Cpu

variable {β : Type}

/-! ## The source -/

/-- `h_rfi`. -/
def h_rfi (c : Cpu β) : Cpu β :=
  { c with st := { c.st with
      msr := c.st.srr1 &&& msr.VALID
      pc := c.st.srr0 &&& ~~~3#32 } }

/-- The bits of the MSR that `raiseExc` copies to SRR1. -/
def srr1Save : U32 := 0x87C0FFFF#32

/-- The bits of SRR1 that `raiseExc` takes from the cause. -/
def srr1Status : U32 := 0x783F0000#32

/-- Every cause some call of `raiseExc` passes: none at all, the three of an
instruction storage exception, and the four of a program exception. -/
def raiseCauses : List U32 :=
  [0#32, 0x40000000#32, 0x10000000#32, 0x08000000#32,
    kSrr1ProgFpEnabled, kSrr1ProgIllegal, kSrr1ProgPrivileged, kSrr1ProgTrap]

/-! ## What the transition leaves -/

theorem raiseExc_srr0 (c : Cpu β) (v : Exc) (srr0 extra : U32) :
    (c.raiseExc v srr0 extra).st.srr0 = srr0 := rfl

theorem raiseExc_srr1 (c : Cpu β) (v : Exc) (srr0 extra : U32) :
    (c.raiseExc v srr0 extra).st.srr1
      = (c.st.msr &&& srr1Save) ||| (extra &&& srr1Status) := rfl

/-- The implemented bits a return can read from the saved copy. -/
theorem srr1Save_valid : srr1Save &&& msr.VALID = msr.VALID &&& ~~~(msr.POW ||| msr.ILE) := by
  decide

/-- The implemented bits a return reads from the cause. -/
theorem srr1Status_valid : srr1Status &&& msr.VALID = msr.POW ||| msr.ILE := by decide

/-! ## The return -/

/-- A state that an interrupt handler may hand to `rfi`: everything may have
changed since the exception but SRR0 and SRR1. -/
structure Untouched (c c' : Cpu β) : Prop where
  srr0 : c'.st.srr0 = c.st.srr0
  srr1 : c'.st.srr1 = c.st.srr1

/-- The exception returns: from every state with SRR0 and SRR1 as it left them,
`rfi` restores the interrupted address and the whole MSR. -/
def Returns (c : Cpu β) (v : Exc) (srr0 extra : U32) : Prop :=
  ∀ c', Untouched (c.raiseExc v srr0 extra) c' →
    c'.h_rfi.st.pc = srr0 ∧ c'.h_rfi.st.msr = c.st.msr

/-- The MSR after the round trip, by the masks. -/
theorem rfi_msr (c : Cpu β) (v : Exc) (srr0 extra : U32) {c' : Cpu β}
    (h : Untouched (c.raiseExc v srr0 extra) c') :
    c'.h_rfi.st.msr
      = (c.st.msr &&& (msr.VALID &&& ~~~(msr.POW ||| msr.ILE)))
        ||| (extra &&& (msr.POW ||| msr.ILE)) := by
  calc c'.h_rfi.st.msr
      = c'.st.srr1 &&& msr.VALID := rfl
    _ = ((c.st.msr &&& srr1Save) ||| (extra &&& srr1Status)) &&& msr.VALID := by
        rw [h.srr1, raiseExc_srr1]
    _ = _ := by rw [merge_and, srr1Save_valid, srr1Status_valid]

theorem rfi_pc (c : Cpu β) (v : Exc) (srr0 extra : U32) {c' : Cpu β}
    (h : Untouched (c.raiseExc v srr0 extra) c') (haligned : srr0 &&& ~~~3#32 = srr0) :
    c'.h_rfi.st.pc = srr0 := by
  calc c'.h_rfi.st.pc
      = c'.st.srr0 &&& ~~~3#32 := rfl
    _ = srr0 := by rw [h.srr0, raiseExc_srr0, haligned]

/-- For any cause at all, the return restores the MSR exactly if the cause has
in the POW and ILE positions what the MSR had. -/
theorem returns_iff_agree (c : Cpu β) (v : Exc) (srr0 extra : U32)
    (hvalid : c.st.msr &&& msr.VALID = c.st.msr) (haligned : srr0 &&& ~~~3#32 = srr0) :
    c.Returns v srr0 extra
      ↔ extra &&& (msr.POW ||| msr.ILE) = c.st.msr &&& (msr.POW ||| msr.ILE) := by
  have hsplit : msr.VALID = (msr.VALID &&& ~~~(msr.POW ||| msr.ILE)) ||| (msr.POW ||| msr.ILE) := by
    decide
  have hwithin : c.st.msr &&& ((msr.VALID &&& ~~~(msr.POW ||| msr.ILE)) ||| (msr.POW ||| msr.ILE))
      = c.st.msr := by
    rw [← hsplit]
    exact hvalid
  have hmerge := merge_eq_iff (x := extra) hwithin (by decide)
  constructor
  · intro h
    have hback := h (c.raiseExc v srr0 extra) ⟨rfl, rfl⟩
    rw [rfi_msr c v srr0 extra ⟨rfl, rfl⟩] at hback
    exact hmerge.mp hback.2
  · intro h c' hc'
    refine ⟨rfi_pc c v srr0 extra hc' haligned, ?_⟩
    rw [rfi_msr c v srr0 extra hc']
    exact hmerge.mpr h

/-- Of the causes the code passes, the privileged one alone reaches a position
of the MSR. -/
theorem cause_bits {extra : U32} (h : extra ∈ raiseCauses) :
    extra &&& (msr.POW ||| msr.ILE)
      = if extra = kSrr1ProgPrivileged then msr.POW else 0#32 := by
  have hall : ∀ e ∈ raiseCauses, e &&& (msr.POW ||| msr.ILE)
      = if e = kSrr1ProgPrivileged then msr.POW else 0#32 := by
    simp only [raiseCauses, List.forall_mem_cons, List.not_mem_nil, false_implies, implies_true,
      and_true]
    decide
  exact hall extra h

/-- **When an exception returns.** With POW clear, raising an exception with any
cause the code passes and returning restores the processor exactly if MSR[ILE]
is clear and the cause is not the privileged one. -/
theorem returns_iff (c : Cpu β) (v : Exc) (srr0 extra : U32)
    (hvalid : c.st.msr &&& msr.VALID = c.st.msr) (hpow : c.st.msr &&& msr.POW = 0#32)
    (haligned : srr0 &&& ~~~3#32 = srr0) (hcause : extra ∈ raiseCauses) :
    c.Returns v srr0 extra
      ↔ c.st.msr &&& msr.ILE = 0#32 ∧ extra ≠ kSrr1ProgPrivileged := by
  have hbits : c.st.msr &&& (msr.POW ||| msr.ILE) = c.st.msr &&& msr.ILE := by
    rw [BitVec.and_or_distrib_left, hpow, BitVec.zero_or]
  rw [returns_iff_agree c v srr0 extra hvalid haligned, cause_bits hcause, hbits]
  by_cases hpriv : extra = kSrr1ProgPrivileged
  · rw [if_pos hpriv]
    constructor
    · intro h
      -- POW is not one of ILE's bits
      have : msr.POW &&& msr.POW = c.st.msr &&& msr.ILE &&& msr.POW := by rw [h]
      rw [BitVec.and_assoc, show msr.ILE &&& msr.POW = 0#32 by decide, BitVec.and_zero] at this
      exact absurd this (by decide)
    · intro h
      exact absurd hpriv h.2
  · rw [if_neg hpriv]
    exact ⟨fun h => ⟨h.symm, hpriv⟩, fun h => h.1.symm⟩

/-- A user program executing a word that decodes to nothing returns. -/
theorem returns_illegal :
    ({ bus := (), st := { msr := 0x0000F032#32 } } : Cpu Unit).Returns
      Exc.Program 0x1000#32 kSrr1ProgIllegal :=
  (returns_iff _ Exc.Program 0x1000#32 kSrr1ProgIllegal (by decide) (by decide) (by decide)
    (by decide)).mpr ⟨by decide, by decide⟩

/-- Returning from a privileged instruction in user mode sets POW, and returning
from a system call with ILE set loses it. -/
theorem not_returns :
    ¬ (∀ (c : Cpu Unit) (v : Exc) (srr0 extra : U32), c.st.msr &&& msr.VALID = c.st.msr →
        c.st.msr &&& msr.POW = 0#32 → srr0 &&& ~~~3#32 = srr0 → v ≠ Exc.MachineCheck →
        extra ∈ raiseCauses → c.Returns v srr0 extra)
      ∧ (({ bus := (), st := { msr := 0x0000F032#32 } } : Cpu Unit).raiseExc
          Exc.Program 0x1000#32 kSrr1ProgPrivileged).h_rfi.st.msr = 0x0004F032#32
      ∧ (({ bus := (), st := { msr := 0x00011032#32 } } : Cpu Unit).raiseExc
          Exc.SystemCall 0x1000#32 0#32).h_rfi.st.msr = 0x00001032#32 := by
  refine ⟨fun h => ?_, by decide, by decide⟩
  have hback := h { bus := (), st := { msr := 0x0000F032#32 } } Exc.Program 0x1000#32
    kSrr1ProgPrivileged (by decide) (by decide) (by decide) (by decide) (by decide) _ ⟨rfl, rfl⟩
  exact absurd hback.2 (by decide)

end Cpu

end OpenPowerMac
