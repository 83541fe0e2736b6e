/-
The derived bits of the FPSCR.

VX is the disjunction of the nine invalid-operation bits, and FEX the disjunction of
the exceptions that are enabled (`Consistent`). `refresh` establishes both from
scratch. The short path of `commit` keeps both without it: none of what it writes is
an invalid-operation bit or an enable, XX is the only exception it can set, and it
sets FEX along with it where XX is enabled. With the two bits as `refresh` would
leave them, the two paths of `commit` are the same function of an ordinary result.
-/
import OpenPowerMac.Fpu
import Mathlib.Logic.Relation

set_option autoImplicit false

namespace OpenPowerMac

open Sf (R)
open Fpscr

namespace Fpscr

/-- VX and FEX are what the other bits make them. -/
structure Consistent (f : U32) : Prop where
  vx : has f fVX = (has f fVXSNAN || has f fVXISI || has f fVXIDI || has f fVXZDZ || has f fVXIMZ
    || has f fVXVC || has f fVXSOFT || has f fVXSQRT || has f fVXCVI)
  fex : has f fFEX = ((has f fVX && has f fVE) || (has f fOX && has f fOE) || (has f fUX && has f fUE)
    || (has f fZX && has f fZE) || (has f fXX && has f fXE))

/-! ## Masks and bits -/

variable {f g : U32}

theorem has_or (f a b : U32) : has f (a ||| b) = (has f a || has f b) := by
  have hzero : ∀ x y : U32, x ||| y = 0#32 ↔ x = 0#32 ∧ y = 0#32 := fun x y => BitVec.or_eq_zero_iff
  unfold has
  rw [BitVec.and_or_distrib_left, Bool.eq_iff_iff, Bool.or_eq_true, bne_iff_ne, bne_iff_ne,
    bne_iff_ne, ne_eq, hzero, not_and_or]

theorem has_twoPow (f : U32) (k : ℕ) : has f (BitVec.twoPow 32 k) = f.getLsbD k := by
  unfold has
  rw [Bool.eq_iff_iff, bne_iff_ne, and_twoPow_ne]

@[simp] theorem has_fFEX (f : U32) : has f fFEX = f.getLsbD 30 := has_twoPow f 30
@[simp] theorem has_fVX (f : U32) : has f fVX = f.getLsbD 29 := has_twoPow f 29
@[simp] theorem has_fOX (f : U32) : has f fOX = f.getLsbD 28 := has_twoPow f 28
@[simp] theorem has_fUX (f : U32) : has f fUX = f.getLsbD 27 := has_twoPow f 27
@[simp] theorem has_fZX (f : U32) : has f fZX = f.getLsbD 26 := has_twoPow f 26
@[simp] theorem has_fXX (f : U32) : has f fXX = f.getLsbD 25 := has_twoPow f 25
@[simp] theorem has_fVXSNAN (f : U32) : has f fVXSNAN = f.getLsbD 24 := has_twoPow f 24
@[simp] theorem has_fVXISI (f : U32) : has f fVXISI = f.getLsbD 23 := has_twoPow f 23
@[simp] theorem has_fVXIDI (f : U32) : has f fVXIDI = f.getLsbD 22 := has_twoPow f 22
@[simp] theorem has_fVXZDZ (f : U32) : has f fVXZDZ = f.getLsbD 21 := has_twoPow f 21
@[simp] theorem has_fVXIMZ (f : U32) : has f fVXIMZ = f.getLsbD 20 := has_twoPow f 20
@[simp] theorem has_fVXVC (f : U32) : has f fVXVC = f.getLsbD 19 := has_twoPow f 19
@[simp] theorem has_fVXSOFT (f : U32) : has f fVXSOFT = f.getLsbD 10 := has_twoPow f 10
@[simp] theorem has_fVXSQRT (f : U32) : has f fVXSQRT = f.getLsbD 9 := has_twoPow f 9
@[simp] theorem has_fVXCVI (f : U32) : has f fVXCVI = f.getLsbD 8 := has_twoPow f 8
@[simp] theorem has_fVE (f : U32) : has f fVE = f.getLsbD 7 := has_twoPow f 7
@[simp] theorem has_fOE (f : U32) : has f fOE = f.getLsbD 6 := has_twoPow f 6
@[simp] theorem has_fUE (f : U32) : has f fUE = f.getLsbD 5 := has_twoPow f 5
@[simp] theorem has_fZE (f : U32) : has f fZE = f.getLsbD 4 := has_twoPow f 4
@[simp] theorem has_fXE (f : U32) : has f fXE = f.getLsbD 3 := has_twoPow f 3

theorem ne_zero_iff (f m : U32) : f &&& m ≠ 0#32 ↔ has f m = true := by
  unfold has
  rw [bne_iff_ne]

/-- The bits an exception and its enable, or VX, are read from. -/
def derived (i : ℕ) : Bool :=
  decide (3 ≤ i ∧ i ≤ 10) || decide (19 ≤ i ∧ i ≤ 30)

/-- The two derived bits depend on the bits they are derived from. -/
theorem Consistent.congr (h : Consistent f) (hfg : ∀ i, derived i = true → g.getLsbD i = f.getLsbD i) :
    Consistent g := by
  obtain ⟨hvx, hfex⟩ := h
  simp only [has_fVX, has_fVXSNAN, has_fVXISI, has_fVXIDI, has_fVXZDZ, has_fVXIMZ, has_fVXVC,
    has_fVXSOFT, has_fVXSQRT, has_fVXCVI] at hvx
  simp only [has_fFEX, has_fVX, has_fOX, has_fUX, has_fZX, has_fXX, has_fVE, has_fOE, has_fUE,
    has_fZE, has_fXE] at hfex
  constructor
  · simp only [has_fVX, has_fVXSNAN, has_fVXISI, has_fVXIDI, has_fVXZDZ, has_fVXIMZ, has_fVXVC,
      has_fVXSOFT, has_fVXSQRT, has_fVXCVI]
    rw [hfg 29 rfl, hfg 24 rfl, hfg 23 rfl, hfg 22 rfl, hfg 21 rfl, hfg 20 rfl, hfg 19 rfl,
      hfg 10 rfl, hfg 9 rfl, hfg 8 rfl, hvx]
  · simp only [has_fFEX, has_fVX, has_fOX, has_fUX, has_fZX, has_fXX, has_fVE, has_fOE, has_fUE,
      has_fZE, has_fXE]
    rw [hfg 30 rfl, hfg 29 rfl, hfg 28 rfl, hfg 27 rfl, hfg 26 rfl, hfg 25 rfl, hfg 7 rfl,
      hfg 6 rfl, hfg 5 rfl, hfg 4 rfl, hfg 3 rfl, hfex]

/-! ## `refresh` -/

/-- The invalid-operation bits as a whole. -/
theorem has_fVxAll (f : U32) : has f fVxAll
    = (has f fVXSNAN || has f fVXISI || has f fVXIDI || has f fVXZDZ || has f fVXIMZ
      || has f fVXVC || has f fVXSOFT || has f fVXSQRT || has f fVXCVI) := by
  unfold fVxAll
  simp only [has_or]

/-- The enabled exceptions, in one AND: an exception stands 22 places above its
enable. -/
theorem has_enabled (v : U32) : has ((v >>> 22) &&& v) (fVE ||| fOE ||| fUE ||| fZE ||| fXE)
    = ((has v fVX && has v fVE) || (has v fOX && has v fOE) || (has v fUX && has v fUE)
      || (has v fZX && has v fZE) || (has v fXX && has v fXE)) := by
  simp only [has_or, has_fVE, has_fOE, has_fUE, has_fZE, has_fXE, has_fVX, has_fOX, has_fUX,
    has_fZX, has_fXX, BitVec.getLsbD_and, BitVec.getLsbD_ushiftRight, Nat.reduceAdd]

/-- `refresh` as a sum of the untouched bits and the derived ones. -/
theorem refresh_eq (f : U32) : refresh f
    = (f &&& ~~~(fVX ||| fFEX)) ||| (if has f fVxAll then fVX else 0#32)
      ||| (if (has f fVxAll && has f fVE) || (has f fOX && has f fOE) || (has f fUX && has f fUE)
          || (has f fZX && has f fZE) || (has f fXX && has f fXE) then fFEX else 0#32) := by
  obtain ⟨v, hv⟩ : ∃ v, (f &&& ~~~(fVX ||| fFEX)) ||| (if has f fVxAll then fVX else 0#32) = v :=
    ⟨_, rfl⟩
  have hstep : (if f &&& fVxAll ≠ 0#32 then (f &&& ~~~(fVX ||| fFEX)) ||| fVX
      else f &&& ~~~(fVX ||| fFEX)) = v := by
    rw [← hv]
    simp only [ne_zero_iff]
    split
    · rfl
    · exact (BitVec.or_zero).symm
  have hbit : ∀ k, derived k = true → k ≠ 29 → k ≠ 30 → v.getLsbD k = f.getLsbD k := by
    intro k hk h29 h30
    have hlt : k < 32 := by
      unfold derived at hk
      simp only [Bool.or_eq_true, decide_eq_true_eq] at hk
      omega
    have hoff : ∀ k < 32, k ≠ 29 → k ≠ 30 →
        (fVX ||| fFEX).getLsbD k = false ∧ fVX.getLsbD k = false := by decide
    obtain ⟨hmask, hvx⟩ := hoff k hlt h29 h30
    rw [← hv, BitVec.getLsbD_or, BitVec.getLsbD_and, BitVec.getLsbD_not, hmask]
    split
    · simp only [hvx, hlt, decide_true, Bool.not_false, Bool.and_true, Bool.or_false]
    · simp only [hlt, decide_true, Bool.not_false, Bool.and_true, BitVec.getLsbD_zero, Bool.or_false]
  have h29 : v.getLsbD 29 = has f fVxAll := by
    rw [← hv]
    cases has f fVxAll <;> simp [fVX, fFEX]
  unfold refresh
  simp only [hstep, hv]
  simp only [ne_zero_iff, has_enabled, has_fVX, has_fOX, has_fUX, has_fZX, has_fXX, has_fVE, has_fOE, has_fUE, has_fZE,
    has_fXE, h29, hbit 28 rfl (by decide) (by decide), hbit 27 rfl (by decide) (by decide),
    hbit 26 rfl (by decide) (by decide), hbit 25 rfl (by decide) (by decide),
    hbit 7 rfl (by decide) (by decide), hbit 6 rfl (by decide) (by decide),
    hbit 5 rfl (by decide) (by decide), hbit 4 rfl (by decide) (by decide),
    hbit 3 rfl (by decide) (by decide)]
  split
  · rfl
  · exact (BitVec.or_zero).symm

/-- The derived bits, recomputed. -/
theorem getLsbD_refresh (f : U32) {k : ℕ} (hk : k < 32) (h29 : k ≠ 29) (h30 : k ≠ 30) :
    (refresh f).getLsbD k = f.getLsbD k := by
  have hoff : ∀ k < 32, k ≠ 29 → k ≠ 30 →
      (fVX ||| fFEX).getLsbD k = false ∧ fVX.getLsbD k = false ∧ fFEX.getLsbD k = false := by decide
  obtain ⟨hmask, hvx, hfex⟩ := hoff k hk h29 h30
  rw [refresh_eq, BitVec.getLsbD_or, BitVec.getLsbD_or, BitVec.getLsbD_and, BitVec.getLsbD_not,
    hmask]
  have hif : ∀ (b : Bool) (m : U32), m.getLsbD k = false → (if b then m else 0#32).getLsbD k = false := by
    intro b m hm
    cases b
    · exact BitVec.getLsbD_zero
    · exact hm
  rw [hif _ _ hvx, hif _ _ hfex]
  simp only [hk, decide_true, Bool.not_false, Bool.and_true, Bool.or_false]

theorem refresh_vx (f : U32) : (refresh f).getLsbD 29 = has f fVxAll := by
  rw [refresh_eq]
  simp only [BitVec.getLsbD_or, BitVec.getLsbD_and, BitVec.getLsbD_not]
  generalize ((has f fVxAll && has f fVE) || (has f fOX && has f fOE) || (has f fUX && has f fUE)
    || (has f fZX && has f fZE) || (has f fXX && has f fXE)) = e
  cases has f fVxAll <;> cases e <;> simp [fVX, fFEX]

theorem refresh_fex (f : U32) : (refresh f).getLsbD 30
    = ((has f fVxAll && has f fVE) || (has f fOX && has f fOE) || (has f fUX && has f fUE)
      || (has f fZX && has f fZE) || (has f fXX && has f fXE)) := by
  rw [refresh_eq]
  simp only [BitVec.getLsbD_or, BitVec.getLsbD_and, BitVec.getLsbD_not]
  generalize ((has f fVxAll && has f fVE) || (has f fOX && has f fOE) || (has f fUX && has f fUE)
    || (has f fZX && has f fZE) || (has f fXX && has f fXE)) = e
  cases has f fVxAll <;> cases e <;> simp [fVX, fFEX]

/-- **`refresh` establishes** the two bits. -/
theorem refresh_consistent (f : U32) : Consistent (refresh f) := by
  have hbit : ∀ k, k < 32 ∧ k ≠ 29 ∧ k ≠ 30 → (refresh f).getLsbD k = f.getLsbD k :=
    fun k hk => getLsbD_refresh f hk.1 hk.2.1 hk.2.2
  constructor
  · simp only [has_fVX, has_fVXSNAN, has_fVXISI, has_fVXIDI, has_fVXZDZ, has_fVXIMZ, has_fVXVC,
      has_fVXSOFT, has_fVXSQRT, has_fVXCVI]
    rw [refresh_vx, has_fVxAll, hbit 24 (by decide), hbit 23 (by decide), hbit 22 (by decide),
      hbit 21 (by decide), hbit 20 (by decide), hbit 19 (by decide), hbit 10 (by decide),
      hbit 9 (by decide), hbit 8 (by decide)]
    simp only [has_fVXSNAN, has_fVXISI, has_fVXIDI, has_fVXZDZ, has_fVXIMZ, has_fVXVC,
      has_fVXSOFT, has_fVXSQRT, has_fVXCVI]
  · simp only [has_fFEX, has_fVX, has_fOX, has_fUX, has_fZX, has_fXX, has_fVE, has_fOE, has_fUE,
      has_fZE, has_fXE]
    rw [refresh_fex, refresh_vx, hbit 28 (by decide), hbit 27 (by decide), hbit 26 (by decide),
      hbit 25 (by decide), hbit 7 (by decide), hbit 6 (by decide), hbit 5 (by decide),
      hbit 4 (by decide), hbit 3 (by decide)]
    simp only [has_fOX, has_fUX, has_fZX, has_fXX, has_fVE, has_fOE, has_fUE, has_fZE, has_fXE]

/-- A consistent register has nothing to recompute. -/
theorem Consistent.refresh (h : Consistent f) : refresh f = f := by
  apply BitVec.eq_of_getLsbD_eq
  intro k hk
  by_cases h29 : k = 29
  · rw [h29, refresh_vx, has_fVxAll, ← h.vx, has_fVX]
  · by_cases h30 : k = 30
    · have hfex := h.fex
      rw [h.vx, ← has_fVxAll, has_fFEX] at hfex
      rw [h30, refresh_fex, hfex]
    · exact getLsbD_refresh f hk h29 h30

/-- `refresh` does not look at the bits it derives. -/
theorem refresh_congr (h : ∀ k < 32, k ≠ 29 → k ≠ 30 → g.getLsbD k = f.getLsbD k) :
    refresh g = refresh f := by
  have hone : ∀ k, k < 32 ∧ k ≠ 29 ∧ k ≠ 30 → g.getLsbD k = f.getLsbD k :=
    fun k hk => h k hk.1 hk.2.1 hk.2.2
  have hall : has g fVxAll = has f fVxAll := by
    rw [has_fVxAll, has_fVxAll]
    simp only [has_fVXSNAN, has_fVXISI, has_fVXIDI, has_fVXZDZ, has_fVXIMZ, has_fVXVC,
      has_fVXSOFT, has_fVXSQRT, has_fVXCVI]
    rw [hone 24 (by decide), hone 23 (by decide), hone 22 (by decide), hone 21 (by decide),
      hone 20 (by decide), hone 19 (by decide), hone 10 (by decide), hone 9 (by decide),
      hone 8 (by decide)]
  apply BitVec.eq_of_getLsbD_eq
  intro k hk
  by_cases h29 : k = 29
  · rw [h29, refresh_vx, refresh_vx, hall]
  · by_cases h30 : k = 30
    · rw [h30, refresh_fex, refresh_fex, hall]
      simp only [has_fOX, has_fUX, has_fZX, has_fXX, has_fVE, has_fOE, has_fUE, has_fZE, has_fXE]
      rw [hone 28 (by decide), hone 27 (by decide), hone 26 (by decide), hone 25 (by decide),
        hone 7 (by decide), hone 6 (by decide), hone 5 (by decide), hone 4 (by decide),
        hone 3 (by decide)]
    · rw [getLsbD_refresh g hk h29 h30, getLsbD_refresh f hk h29 h30, h k hk h29 h30]

/-! ## The short path -/

theorem or_bit (x m : U32) {k : ℕ} (hm : m.getLsbD k = false) :
    (x ||| m).getLsbD k = x.getLsbD k := by
  rw [BitVec.getLsbD_or, hm, Bool.or_false]

theorem and_not_bit (x m : U32) {k : ℕ} (hk : k < 32) (hm : m.getLsbD k = false) :
    (x &&& ~~~m).getLsbD k = x.getLsbD k := by
  rw [BitVec.getLsbD_and, BitVec.getLsbD_not, hm]
  simp only [hk, decide_true, Bool.not_false, Bool.and_true]

theorem if_bit (p : Prop) [Decidable p] {x y : U32} {k : ℕ} (h : y.getLsbD k = x.getLsbD k) :
    (if p then y else x).getLsbD k = x.getLsbD k := by
  split
  · exact h
  · rfl

/-- An FPRF code has five bits. -/
theorem classify_bit (v : U64) (sgl : Bool) {k : ℕ} (hk : 5 ≤ k) : (classify v sgl).getLsbD k = false := by
  have hlt : (classify v sgl).toNat < 2 ^ 5 := by
    unfold classify
    obtain ⟨s, hs⟩ : ∃ s, (v >>> 63 != 0#64) = s := ⟨_, rfl⟩
    simp only [hs]
    repeat' split
    all_goals decide
  exact Nat.testBit_lt_two_pow (lt_of_lt_of_le hlt (Nat.pow_le_pow_right (by decide) hk))

/-- Classifying a result writes FPRF only. -/
theorem setFprf_bit (f : U32) (v : U64) (fprf : Fprf) {k : ℕ} (hk : k < 32) (hout : k < 12 ∨ 17 ≤ k) :
    (setFprf f v fprf).getLsbD k = f.getLsbD k := by
  have hmask : ∀ k < 32, k < 12 ∨ 17 ≤ k → fFPRF.getLsbD k = false := by decide
  have hcode : (classify v (fprf = .Sgl) <<< 12).getLsbD k = false := by
    rw [BitVec.getLsbD_shiftLeft]
    rcases hout with hlow | hhigh
    · simp only [hlow, decide_true, Bool.not_true, Bool.and_false, Bool.false_and]
    · rw [classify_bit _ _ (by omega), Bool.and_false]
  unfold setFprf
  rw [or_bit _ _ hcode, and_not_bit _ _ hk (hmask k hk hout)]

open Cpu (shortFpscr generalFpscr suppressed Ordinary)

/-- The short path before the classification. -/
def shortFlags (f : U32) (r : R) : U32 :=
  let nf := f &&& ~~~(fFR ||| fFI)
  let nf :=
    if r.fl &&& Sf.kXx ≠ 0#32 then
      let nf := if f &&& fXX = 0#32 then nf ||| fFX else nf
      let nf := nf ||| (fXX ||| fFI)
      if nf &&& fXE ≠ 0#32 then nf ||| fFEX else nf
    else nf
  if r.fl &&& Sf.kFr ≠ 0#32 then nf ||| fFR else nf

theorem shortFpscr_eq (f : U32) (r : R) (fprf : Fprf) : shortFpscr f r fprf
    = if fprf ≠ .None then setFprf (shortFlags f r) r.bits fprf else shortFlags f r := rfl

/-- What the short path adds to the bits VX and FEX are made of: XX, and FEX where
XX is enabled. -/
theorem shortFlags_bits (f : U32) (r : R) :
    (∀ k, derived k = true → k ≠ 25 → k ≠ 30 → (shortFlags f r).getLsbD k = f.getLsbD k)
      ∧ (shortFlags f r).getLsbD 25 = (f.getLsbD 25 || has r.fl Sf.kXx)
      ∧ (shortFlags f r).getLsbD 30 = (f.getLsbD 30 || (has r.fl Sf.kXx && f.getLsbD 3)) := by
  have hoff : ∀ k, derived k = true → k < 32 ∧ (fFR ||| fFI).getLsbD k = false ∧ fFR.getLsbD k = false
      ∧ fFX.getLsbD k = false ∧ (k ≠ 25 → (fXX ||| fFI).getLsbD k = false)
      ∧ (k ≠ 30 → fFEX.getLsbD k = false) := by
    have hall : ∀ k < 32, derived k = true → (fFR ||| fFI).getLsbD k = false ∧ fFR.getLsbD k = false
        ∧ fFX.getLsbD k = false ∧ (k ≠ 25 → (fXX ||| fFI).getLsbD k = false)
        ∧ (k ≠ 30 → fFEX.getLsbD k = false) := by decide
    intro k hk
    have hlt : k < 32 := by
      unfold derived at hk
      simp only [Bool.or_eq_true, decide_eq_true_eq] at hk
      omega
    exact ⟨hlt, hall k hlt hk⟩
  -- the bit of XE is not written before FEX is decided
  have hxe : has ((if f &&& fXX = 0#32 then f &&& ~~~(fFR ||| fFI) ||| fFX
      else f &&& ~~~(fFR ||| fFI)) ||| (fXX ||| fFI)) fXE = f.getLsbD 3 := by
    obtain ⟨hlt, hfrfi, -, hfx, hxx, -⟩ := hoff 3 rfl
    rw [has_fXE, or_bit _ _ (hxx (by decide)), if_bit _ (or_bit _ _ hfx), and_not_bit _ _ hlt hfrfi]
  unfold shortFlags
  simp only [ne_zero_iff, hxe]
  refine ⟨fun k hk h25 h30 => ?_, ?_, ?_⟩
  · obtain ⟨hlt, hfrfi, hfr, hfx, hxx, hfex⟩ := hoff k hk
    have hbase : (f &&& ~~~(fFR ||| fFI)).getLsbD k = f.getLsbD k := and_not_bit _ _ hlt hfrfi
    rw [if_bit _ (or_bit _ _ hfr)]
    cases has r.fl Sf.kXx with
    | false => exact hbase
    | true =>
        rw [if_pos rfl, if_bit _ (or_bit _ _ (hfex h30)), or_bit _ _ (hxx h25),
          if_bit _ (or_bit _ _ hfx), hbase]
  · obtain ⟨hlt, hfrfi, hfr, hfx, -, hfex⟩ := hoff 25 rfl
    have hbase : (f &&& ~~~(fFR ||| fFI)).getLsbD 25 = f.getLsbD 25 := and_not_bit _ _ hlt hfrfi
    rw [if_bit _ (or_bit _ _ hfr)]
    cases has r.fl Sf.kXx with
    | false =>
        rw [Bool.or_false]
        exact hbase
    | true =>
        rw [if_pos rfl, if_bit _ (or_bit _ _ (hfex (by decide))), BitVec.getLsbD_or, Bool.or_true]
        simp [fXX, fFI]
  · obtain ⟨hlt, hfrfi, hfr, hfx, hxx, -⟩ := hoff 30 rfl
    have hbase : (f &&& ~~~(fFR ||| fFI)).getLsbD 30 = f.getLsbD 30 := and_not_bit _ _ hlt hfrfi
    rw [if_bit _ (or_bit _ _ hfr)]
    cases has r.fl Sf.kXx with
    | false =>
        rw [Bool.false_and, Bool.or_false]
        exact hbase
    | true =>
        rw [if_pos rfl, Bool.true_and]
        cases f.getLsbD 3 with
        | false =>
            rw [if_neg (by decide), or_bit _ _ (hxx (by decide)), if_bit _ (or_bit _ _ hfx), hbase,
              Bool.or_false]
        | true =>
            rw [if_pos rfl, BitVec.getLsbD_or, Bool.or_true]
            simp [fFEX]

/-- **The short path keeps** the two bits. -/
theorem shortFpscr_consistent (h : Consistent f) (r : R) (fprf : Fprf) :
    Consistent (shortFpscr f r fprf) := by
  obtain ⟨hsame, hxx, hfex⟩ := shortFlags_bits f r
  have hflags : Consistent (shortFlags f r) := by
    obtain ⟨hv, he⟩ := h
    simp only [has_fVX, has_fVXSNAN, has_fVXISI, has_fVXIDI, has_fVXZDZ, has_fVXIMZ, has_fVXVC,
      has_fVXSOFT, has_fVXSQRT, has_fVXCVI] at hv
    simp only [has_fFEX, has_fVX, has_fOX, has_fUX, has_fZX, has_fXX, has_fVE, has_fOE, has_fUE,
      has_fZE, has_fXE] at he
    constructor
    · simp only [has_fVX, has_fVXSNAN, has_fVXISI, has_fVXIDI, has_fVXZDZ, has_fVXIMZ, has_fVXVC,
        has_fVXSOFT, has_fVXSQRT, has_fVXCVI]
      rw [hsame 29 rfl (by decide) (by decide), hsame 24 rfl (by decide) (by decide),
        hsame 23 rfl (by decide) (by decide), hsame 22 rfl (by decide) (by decide),
        hsame 21 rfl (by decide) (by decide), hsame 20 rfl (by decide) (by decide),
        hsame 19 rfl (by decide) (by decide), hsame 10 rfl (by decide) (by decide),
        hsame 9 rfl (by decide) (by decide), hsame 8 rfl (by decide) (by decide), hv]
    · simp only [has_fFEX, has_fVX, has_fOX, has_fUX, has_fZX, has_fXX, has_fVE, has_fOE, has_fUE,
        has_fZE, has_fXE]
      rw [hfex, hxx, hsame 29 rfl (by decide) (by decide), hsame 28 rfl (by decide) (by decide),
        hsame 27 rfl (by decide) (by decide), hsame 26 rfl (by decide) (by decide),
        hsame 7 rfl (by decide) (by decide), hsame 6 rfl (by decide) (by decide),
        hsame 5 rfl (by decide) (by decide), hsame 4 rfl (by decide) (by decide),
        hsame 3 rfl (by decide) (by decide), he]
      -- XX is the only exception that may have been added
      cases has r.fl Sf.kXx <;> cases f.getLsbD 3 <;> simp [Bool.or_assoc]
  rw [shortFpscr_eq]
  split
  · refine hflags.congr fun k hk => setFprf_bit _ _ _ ?_ ?_
    · unfold derived at hk
      simp only [Bool.or_eq_true, decide_eq_true_eq] at hk
      omega
    · unfold derived at hk
      simp only [Bool.or_eq_true, decide_eq_true_eq] at hk
      omega
  · exact hflags

/-! ## The two paths -/

/-- The flags of an ordinary result. -/
theorem ordinary_cases {r : R} (h : Ordinary r) :
    mapFlags r.fl = (if has r.fl Sf.kXx then fXX else 0#32) ∧ ∀ f, suppressed f r = false := by
  have hkeep : r.fl = r.fl &&& 0x18#32 := by
    have hsplit : r.fl = (r.fl &&& 0x18#32) ||| (r.fl &&& ~~~0x18#32) := by
      rw [← BitVec.and_or_distrib_left, BitVec.or_not_self, BitVec.and_allOnes]
    have hrest : r.fl &&& ~~~0x18#32 = 0#32 := h
    rw [hrest, BitVec.or_zero] at hsplit
    exact hsplit
  have hoff : ∀ m : U32, 0x18#32 &&& m = 0#32 → r.fl &&& m = 0#32 := by
    intro m hm
    rw [hkeep, BitVec.and_assoc, hm, BitVec.and_zero]
  have hmap : mapFlags r.fl = (if has r.fl Sf.kXx then fXX else 0#32) := by
    unfold mapFlags
    simp only [hoff Sf.kOx (by decide), hoff Sf.kUx (by decide), hoff Sf.kZx (by decide),
      hoff Sf.kVxsnan (by decide), hoff Sf.kVxisi (by decide), hoff Sf.kVxidi (by decide),
      hoff Sf.kVxzdz (by decide), hoff Sf.kVximz (by decide), hoff Sf.kVxcvi (by decide),
      hoff Sf.kVxsqrt (by decide), ne_eq, not_true_eq_false, if_false, BitVec.or_zero,
      BitVec.zero_or]
    by_cases hx : r.fl &&& Sf.kXx = 0#32
    · rw [if_neg (not_not_intro hx), if_neg (fun hset => (ne_zero_iff _ _).mpr hset hx)]
    · rw [if_pos hx, if_pos ((ne_zero_iff _ _).mp hx)]
  refine ⟨hmap, fun f => ?_⟩
  have hnone : ∀ m : U32, fXX &&& m = 0#32 → mapFlags r.fl &&& m = 0#32 := by
    intro m hm
    rw [hmap]
    split
    · exact hm
    · exact BitVec.zero_and
  unfold suppressed
  rw [hnone fVxAll (by decide), hnone fZX (by decide)]
  rfl

/-- The general path's flags, before the classification. -/
def generalFlags (f : U32) (r : R) : U32 :=
  let exc := mapFlags r.fl
  let nf := if exc &&& ~~~f ≠ 0#32 then f ||| fFX else f
  let nf := (nf ||| exc) &&& ~~~(fFR ||| fFI)
  let nf := if r.fl &&& Sf.kXx ≠ 0#32 then nf ||| fFI else nf
  if r.fl &&& Sf.kFr ≠ 0#32 then nf ||| fFR else nf

theorem generalFpscr_eq (f : U32) (r : R) (fprf : Fprf) : generalFpscr f r fprf
    = if !suppressed f r ∧ fprf ≠ .None then setFprf (generalFlags f r) r.bits fprf
      else generalFlags f r := rfl

/-- XX is new exactly if it was clear. -/
theorem newlyInexact (f : U32) : fXX &&& ~~~f ≠ 0#32 ↔ f &&& fXX = 0#32 := by
  have hnew : has (~~~f) fXX = !f.getLsbD 25 := by
    rw [has_fXX, BitVec.getLsbD_not]
    rfl
  rw [BitVec.and_comm, ne_zero_iff, hnew, Bool.not_eq_true', ← has_fXX]
  unfold has
  rw [bne_eq_false_iff_eq]

/-- On an ordinary result the two paths differ in FEX at most. -/
theorem generalFlags_bit {r : R} (h : Ordinary r) (f : U32) {k : ℕ} (hk : k < 32) (h30 : k ≠ 30) :
    (generalFlags f r).getLsbD k = (shortFlags f r).getLsbD k := by
  have hfex : fFEX.getLsbD k = false := by
    have hall : ∀ k < 32, k ≠ 30 → fFEX.getLsbD k = false := by decide
    exact hall k hk h30
  have hfr : ∀ {x y : U32}, x.getLsbD k = y.getLsbD k →
      (if r.fl &&& Sf.kFr ≠ 0#32 then x ||| fFR else x).getLsbD k
        = (if r.fl &&& Sf.kFr ≠ 0#32 then y ||| fFR else y).getLsbD k := by
    intro x y hxy
    split
    · rw [BitVec.getLsbD_or, BitVec.getLsbD_or, hxy]
    · exact hxy
  unfold generalFlags shortFlags
  simp only [(ordinary_cases h).1]
  apply hfr
  simp only [ne_zero_iff r.fl Sf.kXx]
  cases has r.fl Sf.kXx with
  | false =>
      simp only [Bool.false_eq_true, if_false, BitVec.zero_and, ne_eq, not_true_eq_false,
        BitVec.or_zero]
  | true =>
      simp only [if_true, newlyInexact]
      have hout : ∀ x : U32, (x ||| fXX) &&& ~~~(fFR ||| fFI) ||| fFI
          = (x &&& ~~~(fFR ||| fFI)) ||| (fXX ||| fFI) := by
        intro x
        rw [BitVec.and_or_distrib_right, show fXX &&& ~~~(fFR ||| fFI) = fXX by decide,
          BitVec.or_assoc]
      have hfx : (f ||| fFX) &&& ~~~(fFR ||| fFI) = (f &&& ~~~(fFR ||| fFI)) ||| fFX := by
        rw [BitVec.and_or_distrib_right, show fFX &&& ~~~(fFR ||| fFI) = fFX by decide]
      rw [hout, if_bit _ (or_bit _ _ hfex)]
      by_cases hnew : f &&& fXX = 0#32
      · rw [if_pos hnew, if_pos hnew, hfx]
      · rw [if_neg hnew, if_neg hnew]

/-- **The short path is the general path**, where VX and FEX are consistent. -/
theorem refresh_general (hf : Consistent f) {r : R} (h : Ordinary r) (fprf : Fprf) :
    refresh (generalFpscr f r fprf) = shortFpscr f r fprf := by
  have hcons := shortFpscr_consistent hf r fprf
  rw [← hcons.refresh]
  apply refresh_congr
  intro k hk _ h30
  have hbit := generalFlags_bit h f hk h30
  rw [generalFpscr_eq, shortFpscr_eq, (ordinary_cases h).2 f]
  simp only [Bool.not_false, true_and]
  split
  · unfold setFprf
    rw [BitVec.getLsbD_or, BitVec.getLsbD_or, BitVec.getLsbD_and, BitVec.getLsbD_and, hbit]
  · exact hbit

end Fpscr

namespace Cpu

variable {β : Type}

/-- `commit`'s two paths agree on an ordinary result. -/
theorem commitShort_eq {c : Cpu β} (hc : Consistent c.st.fpscr) (i : U32) {r : R} (h : Ordinary r)
    (fprf : Fprf) : c.commitShort i r fprf = c.commitGeneral i r fprf := by
  have hfpscr : refresh (generalFpscr c.st.user.fpscr r fprf) = shortFpscr c.st.user.fpscr r fprf :=
    refresh_general hc h fprf
  unfold commitShort commitGeneral onUser
  simp only [hfpscr, (ordinary_cases h).2, Bool.false_eq_true, if_false]

/-! ## Every writer -/

/-- A handler keeps the two bits. -/
def KeepsFpscr (hnd : Handler β) : Prop :=
  ∀ c i, Consistent c.st.fpscr → Consistent (hnd c i).st.fpscr

theorem trapIfEnabled_fpscr (c : Cpu β) : c.trapIfEnabled.st.fpscr = c.st.fpscr := by
  unfold trapIfEnabled
  split <;> rfl

theorem fpRc_fpscr (u : UserRegs) (i : U32) : (u.fpRc i).fpscr = u.fpscr := by
  unfold UserRegs.fpRc
  split <;> rfl

theorem commit_keeps {c : Cpu β} (hc : Consistent c.st.fpscr) (i : U32) (r : R) (fprf : Fprf) :
    Consistent (c.commit i r fprf).st.fpscr := by
  unfold commit
  by_cases h : Ordinary r
  · rw [if_pos h]
    unfold commitShort
    rw [trapIfEnabled_fpscr]
    show Consistent (UserRegs.fpRc _ i).fpscr
    rw [fpRc_fpscr]
    exact shortFpscr_consistent hc r fprf
  · rw [if_neg h]
    unfold commitGeneral
    rw [trapIfEnabled_fpscr]
    show Consistent (UserRegs.fpRc _ i).fpscr
    rw [fpRc_fpscr]
    exact refresh_consistent _

theorem arith_keeps (fprf : Fprf) (op : UserRegs → U32 → R) :
    KeepsFpscr (arith (β := β) fprf op) := fun _ i hc => commit_keeps hc i _ fprf

theorem fmove_keeps (op : UserRegs → U32 → U64) : KeepsFpscr (fmove (β := β) op) := by
  intro c i hc
  show Consistent (UserRegs.fpRc _ i).fpscr
  rw [fpRc_fpscr]
  exact hc

theorem compare_keeps (ordered : Bool) : KeepsFpscr (compare (β := β) ordered) := by
  intro c i _
  unfold compare
  rw [trapIfEnabled_fpscr]
  exact refresh_consistent _

theorem mcrfs_keeps : KeepsFpscr (h_mcrfs (β := β)) := fun _ _ _ => refresh_consistent _

theorem moveFpscr_keeps (op : UserRegs → U32 → U32) : KeepsFpscr (moveFpscr (β := β) op) := by
  intro c i _
  unfold moveFpscr
  rw [trapIfEnabled_fpscr]
  show Consistent (UserRegs.fpRc _ i).fpscr
  rw [fpRc_fpscr]
  exact refresh_consistent _

theorem mtfsb_keeps (set : Bool) : KeepsFpscr (mtfsb (β := β) set) := by
  intro c i hc
  unfold mtfsb
  simp only
  split
  · show Consistent (UserRegs.fpRc _ i).fpscr
    rw [fpRc_fpscr]
    exact hc
  · exact moveFpscr_keeps _ c i hc

/-- **Every floating-point handler** keeps the two bits. -/
theorem fpuHandlers_keep (h : Fast) :
    ∀ p ∈ (fpuHandlers h : List (String × Handler β)), KeepsFpscr p.2 := by
  simp only [fpuHandlers, List.forall_mem_cons, List.not_mem_nil, false_implies, implies_true,
    and_true]
  exact ⟨arith_keeps _ _, arith_keeps _ _, arith_keeps _ _, arith_keeps _ _, arith_keeps _ _,
    arith_keeps _ _, arith_keeps _ _, arith_keeps _ _, arith_keeps _ _, arith_keeps _ _,
    arith_keeps _ _, arith_keeps _ _, arith_keeps _ _, arith_keeps _ _, arith_keeps _ _,
    arith_keeps _ _, arith_keeps _ _, arith_keeps _ _, arith_keeps _ _, arith_keeps _ _,
    arith_keeps _ _, fmove_keeps _, fmove_keeps _, fmove_keeps _, fmove_keeps _, fmove_keeps _,
    compare_keeps _, compare_keeps _, fmove_keeps _, mcrfs_keeps, moveFpscr_keeps _,
    moveFpscr_keeps _, mtfsb_keeps _, mtfsb_keeps _⟩

/-! ## Runs -/

/-- One step of a history: a floating-point instruction is dispatched, or anything
happens that does not write the FPSCR. -/
inductive FpStep (h : Fast) : Cpu β → Cpu β → Prop
  | insn (c : Cpu β) (i : U32) (p : String × Handler β) (hp : p ∈ fpuHandlers h) :
      FpStep h c (c.dispatch p.2 i)
  | other (c c' : Cpu β) (hsame : c'.st.fpscr = c.st.fpscr) : FpStep h c c'

theorem FpStep.consistent {h : Fast} {c c' : Cpu β} (hs : FpStep h c c')
    (hc : Consistent c.st.fpscr) : Consistent c'.st.fpscr := by
  cases hs with
  | insn i p hp => exact fpuHandlers_keep h p hp _ i hc
  | other _ hsame =>
      rw [hsame]
      exact hc

theorem reset_consistent : Consistent ({} : CpuState).fpscr := ⟨by decide, by decide⟩

/-- **VX and FEX are consistent** after every history from reset, and there `commit`'s
short path leaves what its general path would. -/
theorem fpscr_consistent (h : Fast) {c₀ c : Cpu β} (hreset : c₀.st = {})
    (hrun : Relation.ReflTransGen (FpStep h) c₀ c) :
    Consistent c.st.fpscr
      ∧ ∀ i r fprf, Ordinary r → c.commitShort i r fprf = c.commitGeneral i r fprf := by
  have hc : Consistent c.st.fpscr := by
    induction hrun with
    | refl =>
        rw [hreset]
        exact reset_consistent
    | tail _ hs ih => exact hs.consistent ih
  exact ⟨hc, fun i r fprf hr => commitShort_eq hc i hr fprf⟩

/-- `mtfsb1 28` enables XE, then `fdiv f1,f2,f3` divides zero by zero. -/
def afterDivide : Cpu Unit :=
  (({ bus := () } : Cpu Unit).dispatch h_mtfsb1 0xFF80004C#32).dispatch (h_fdiv) 0xFC221824#32

theorem fpscr_consistent_afterDivide :
    Consistent afterDivide.st.fpscr
      ∧ afterDivide.commitShort 0xFC221824#32 ⟨1#64, Sf.kXx ||| Sf.kFr⟩ .Dbl
          = afterDivide.commitGeneral 0xFC221824#32 ⟨1#64, Sf.kXx ||| Sf.kFr⟩ .Dbl := by
  have hrun : Relation.ReflTransGen (FpStep ⟨Sf.softHost, 0#32⟩) ({ bus := () } : Cpu Unit)
      afterDivide :=
    (Relation.ReflTransGen.single
      (FpStep.insn _ 0xFF80004C#32 ("mtfsb1", h_mtfsb1) (by simp [fpuHandlers]))).tail
      (FpStep.insn _ 0xFC221824#32 ("fdiv", h_fdiv) (by simp [fpuHandlers]))
  obtain ⟨hcons, hpaths⟩ := fpscr_consistent ⟨Sf.softHost, 0#32⟩ rfl hrun
  exact ⟨hcons, hpaths _ _ _ (by decide)⟩

end Cpu

end OpenPowerMac
