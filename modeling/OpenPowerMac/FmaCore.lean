/-
What the fused path delivers for finite operands.

`fusedSpec` is the requirement: the IEEE-754 result of `±(a * c + b)`, rounded once.
`fmaModel_eq` says what the code does: the same, but for the magnitude the
accumulator stands for, in place of the exact one. The two part only where an
effective subtraction loses digits below the window and what is left sits on a
boundary of the rounding (`Misrounds`), and there they always do.
-/
import OpenPowerMac.Fused

set_option autoImplicit false

namespace OpenPowerMac

open Rounding

namespace Sf

/-! ## The requirement -/

/-- The addend, where there is one. -/
def addend (hasAddend : Bool) (fb : U64) : ℚ := if hasAddend then valD fb else 0

/-- The exact result, before it is negated. -/
def fusedExact (fa fc fb : U64) (hasAddend : Bool) : ℚ := valD fa * valD fc + addend hasAddend fb

/-- The sign of an exact zero: the terms', if they agree, else plus, but minus when
rounding down. -/
def fusedZero (rn : U32) (fa fc fb : U64) (hasAddend : Bool) : Bool :=
  if hasAddend && (negD fa != negD fc) != negD fb then rn == 3#32 else negD fa != negD fc

/-- **The requirement**: `±(a * c + b)`, rounded once. -/
def fusedSpec (t : Tgt) (rn : U32) (fa fc fb : U64) (hasAddend negResult : Bool) : R :=
  ieee t rn (fusedZero rn fa fc fb hasAddend != negResult)
    (signed negResult (fusedExact fa fc fb hasAddend))

/-- Digits are lost below the window in a subtraction, and what the accumulator is
left with is a boundary of the rounding. -/
def Misrounds (t : Tgt) (rn : U32) (p b : ℚ) (negResult : Bool) : Prop :=
  p * b < 0 ∧ ¬ Grid (windowUnit p b) (p + b)
    ∧ t.format.Boundary (magMode rn (decide (signed negResult (p + b) < 0)))
        (⌈|p + b| / 2 ^ windowUnit p b⌉ * 2 ^ windowUnit p b : ℚ)

/-! ## The code -/

theorem unpack_cases {f : U64} (h : FiniteD f) :
    (absD f = 0 ∧ (unpack f).c = .cZero) ∨ (absD f ≠ 0 ∧ (unpack f).Holds (negD f) (absD f)) := by
  by_cases h0 : absD f = 0
  · exact Or.inl ⟨h0, unpack_zero h0⟩
  · exact Or.inr ⟨h0, unpack_holds h h0⟩

theorem unpack_c {f : U64} (h : FiniteD f) : (unpack f).c = .cZero ∨ (unpack f).c = .cFin := by
  rcases unpack_cases h with ⟨-, hc⟩ | ⟨-, hh⟩
  · exact Or.inl hc
  · exact Or.inr hh.c

theorem unpack_c_zero_iff {f : U64} (h : FiniteD f) : (unpack f).c = .cZero ↔ absD f = 0 := by
  rcases unpack_cases h with ⟨h0, hc⟩ | ⟨h0, hh⟩
  · exact iff_of_true hc h0
  · refine iff_of_false ?_ h0
    rw [hh.c]
    exact Cls.noConfusion

/-- Finite operands reach the arithmetic, with no flag set. -/
theorem fmaModel_finite {fa fc fb : U64} (ha : FiniteD fa) (hc : FiniteD fc) (hb : FiniteD fb)
    (hasAddend negAdd negResult : Bool) (env : Env) (t : Tgt) :
    fmaModel fa fc fb hasAddend negAdd negResult env t
      = fmaFinite (unpack fa) (unpack fc) (unpack fb) hasAddend negResult env t 0#32 := by
  unfold fmaModel
  dsimp only
  rcases unpack_c ha with h₁ | h₁ <;> rcases unpack_c hc with h₂ | h₂ <;>
    rcases unpack_c hb with h₃ | h₃ <;> simp [h₁, h₂, h₃]

theorem absD_nonneg (f : U64) : 0 ≤ absD f := Format.magValue_nonneg _

theorem abs_valD (f : U64) : |valD f| = absD f := abs_signed _ (absD_nonneg f)

theorem valD_eq_zero_iff (f : U64) : valD f = 0 ↔ absD f = 0 := signed_eq_zero_iff _

theorem valD_mul_eq_zero_iff {f g : U64} (hf : FiniteD f) (hg : FiniteD g) :
    (unpack f).c = .cZero ∨ (unpack g).c = .cZero ↔ valD f * valD g = 0 := by
  rw [mul_eq_zero, valD_eq_zero_iff, valD_eq_zero_iff, unpack_c_zero_iff hf, unpack_c_zero_iff hg]

theorem valD_mul (f g : U64) : valD f * valD g = signed (negD f != negD g) (absD f * absD g) :=
  signed_mul _ _ _ _

/-- A term on its own stands for itself. -/
theorem accumulated_zero_left (q : ℚ) : accumulated 0 q = |q| := by
  unfold accumulated
  rw [zero_mul, if_neg (lt_irrefl _), zero_add]

theorem accumulated_zero_right (p : ℚ) : accumulated p 0 = |p| := by
  unfold accumulated
  rw [mul_zero, if_neg (lt_irrefl _), add_zero]

/-- A normalized significand alone fills the accumulator. -/
theorem Un.Holds.acc {u : Un} {neg : Bool} {x : ℚ} (h : u.Holds neg x) :
    ({ acc := { hi := u.m, lo := 0#64 }, exp := u.e, sign := u.s, jam := false } : Acc).Holds x := by
  have hm := h.m
  refine ⟨?_, ?_⟩
  · dsimp only
    rw [bacc_val]
    omega
  · dsimp only
    have hx : x / 2 ^ (u.e - 127) = (({ hi := u.m, lo := 0#64 } : U128).val : ℚ) := by
      rw [bacc_val, h.x, mul_div_assoc, ← zpow_sub₀ two_ne_zero,
        show u.e - 63 - (u.e - 127) = ((64 : ℕ) : ℤ) by omega, zpow_natCast]
      push_cast
      rfl
    rw [hx]
    exact Held.natCast _

/-- **What the accumulator is left with**, for operands that are not all zeros. -/
theorem fmaAcc_holds {fa fc fb : U64} (ha : FiniteD fa) (hc : FiniteD fc) (hb : FiniteD fb)
    (hasAddend : Bool) (h0 : valD fa * valD fc ≠ 0 ∨ addend hasAddend fb ≠ 0) :
    (fusedExact fa fc fb hasAddend = 0 →
        fmaAcc (unpack fa) (unpack fc) (unpack fb) hasAddend = none
          ∧ (hasAddend && (negD fa != negD fc) != negD fb) = true)
      ∧ (fusedExact fa fc fb hasAddend ≠ 0 →
        ∃ v, fmaAcc (unpack fa) (unpack fc) (unpack fb) hasAddend = some v
          ∧ v.sign = decide (fusedExact fa fc fb hasAddend < 0)
          ∧ v.Holds (accumulated (valD fa * valD fc) (addend hasAddend fb))) := by
  have hzero := valD_mul_eq_zero_iff ha hc
  unfold fmaAcc fusedExact
  by_cases hp : valD fa * valD fc = 0
  · -- the addend alone
    rw [if_pos (hzero.mpr hp), hp]
    have hq := h0.resolve_left (not_not.mpr hp)
    rw [zero_add]
    refine ⟨fun h => absurd h hq, fun _ => ⟨_, rfl, ?_, ?_⟩⟩
    · unfold addend at hq ⊢
      cases hasAddend with
      | false => exact absurd rfl hq
      | true =>
          have hq' := (valD_eq_zero_iff fb).not.mp hq
          dsimp only
          rw [if_pos rfl, valD_eq, signed_neg_iff _ (lt_of_le_of_ne (absD_nonneg fb) (Ne.symm hq')),
            unpack_s]
    · unfold addend at hq ⊢
      cases hasAddend with
      | false => exact absurd rfl hq
      | true =>
          have hq' := (valD_eq_zero_iff fb).not.mp hq
          rw [if_pos rfl, accumulated_zero_left, abs_valD]
          exact (unpack_holds hb hq').acc
  · rw [if_neg (mt hzero.mp hp)]
    have hac := mt hzero.mp hp
    rw [unpack_c_zero_iff ha, unpack_c_zero_iff hc, not_or] at hac
    have hua := unpack_holds ha hac.1
    have huc := unpack_holds hc hac.2
    obtain ⟨w, hw⟩ : ∃ w, prodAcc (unpack fa) (unpack fc) = w := ⟨_, rfl⟩
    obtain ⟨acc, exp⟩ := w
    obtain ⟨htop, hP, hdvd⟩ := prodAcc_eq hua huc hw
    have hlow := hdvd 11 11 (Nat.dvd_of_mod_eq_zero hua.low) (Nat.dvd_of_mod_eq_zero huc.low)
    have hP0 : 0 < absD fa * absD fc := mul_pos hua.pos huc.pos
    rw [hw, unpack_s, unpack_s]
    dsimp only
    rw [valD_mul]
    have hbz : (unpack fb).c ≠ .cZero ↔ absD fb ≠ 0 := (unpack_c_zero_iff hb).not
    by_cases hq : hasAddend = true ∧ absD fb ≠ 0
    · obtain ⟨rfl, hb0⟩ := hq
      rw [if_pos ⟨rfl, hbz.mpr hb0⟩]
      have hub := unpack_holds hb hb0
      obtain ⟨h₁, h₂⟩ := fuse_holds htop hlow hP hub (negD fa != negD fc)
      refine ⟨fun h => ⟨h₁ h, ?_⟩, h₂⟩
      -- a sum of two nonzero magnitudes is zero only across signs
      rw [Bool.true_and]
      by_contra hne
      have hsame : (negD fa != negD fc) = negD fb := by
        simpa only [bne_iff_ne, ne_eq, not_not] using hne
      unfold addend at h
      rw [if_pos rfl, valD_eq, hsame, signed_add_same, signed_eq_zero_iff] at h
      have := hub.pos
      linarith
    · have hadd : addend hasAddend fb = 0 := by
        unfold addend
        cases hasAddend with
        | false => rfl
        | true => exact (valD_eq_zero_iff fb).mpr (not_not.mp fun h => hq ⟨rfl, h⟩)
      rw [if_neg (mt (And.imp_right hbz.mp) hq), hadd, add_zero, accumulated_zero_right, abs_signed _ hP0.le]
      refine ⟨fun h => absurd ((signed_eq_zero_iff _).mp h) hP0.ne', fun _ => ⟨_, rfl, ?_, htop, ?_⟩⟩
      · dsimp only
        exact (signed_neg_iff _ hP0).symm
      · dsimp only
        rw [hP, mul_div_cancel_right₀ _ (two_zpow_pos (K := ℚ) _).ne']
        exact Held.natCast _

theorem addend_eq_zero_iff (hasAddend : Bool) {fb : U64} (hb : FiniteD fb) :
    (!hasAddend) = true ∨ (unpack fb).c = .cZero ↔ addend hasAddend fb = 0 := by
  rw [unpack_c_zero_iff hb]
  unfold addend
  cases hasAddend with
  | false => simp
  | true => simp [valD_eq_zero_iff]

theorem decide_signed (neg : Bool) {x : ℚ} (h : x ≠ 0) :
    decide (signed neg x < 0) = (decide (x < 0) != neg) := by
  unfold signed
  cases neg with
  | false => simp
  | true =>
      simp only [if_true, neg_lt_zero, Bool.bne_true, ← decide_not, not_lt]
      congr 1
      exact propext (lt_iff_le_and_ne.trans (and_iff_left h.symm))

/-- **What the code delivers** for finite operands: the rounding of what the
accumulator stands for. -/
theorem fmaModel_eq {fa fc fb : U64} (ha : FiniteD fa) (hc : FiniteD fc) (hb : FiniteD fb)
    {env : Env} (henv : env.Std) (hasAddend negAdd negResult : Bool) (t : Tgt) :
    fmaModel fa fc fb hasAddend negAdd negResult env t
      = if fusedExact fa fc fb hasAddend = 0 then
          { bits := packZero (fusedZero env.rn fa fc fb hasAddend != negResult), fl := 0#32 }
        else
          encode t env.rn (decide (signed negResult (fusedExact fa fc fb hasAddend) < 0))
            (t.format.deliver
              (magMode env.rn (decide (signed negResult (fusedExact fa fc fb hasAddend) < 0)))
              (accumulated (valD fa * valD fc) (addend hasAddend fb))) := by
  rw [fmaModel_finite ha hc hb]
  unfold fmaFinite
  dsimp only
  have hz : (((unpack fa).c = .cZero ∨ (unpack fc).c = .cZero)
        ∧ ((!hasAddend) = true ∨ (unpack fb).c = .cZero))
      ↔ valD fa * valD fc = 0 ∧ addend hasAddend fb = 0 :=
    and_congr (valD_mul_eq_zero_iff ha hc) (addend_eq_zero_iff hasAddend hb)
  by_cases hall : valD fa * valD fc = 0 ∧ addend hasAddend fb = 0
  · have hx : fusedExact fa fc fb hasAddend = 0 := by
      unfold fusedExact
      rw [hall.1, hall.2, add_zero]
    rw [if_pos (hz.mpr hall), if_pos hx, unpack_s, unpack_s, unpack_s]
    unfold fusedZero
    obtain ⟨ps, hps⟩ : ∃ ps, (negD fa != negD fc) = ps := ⟨_, rfl⟩
    rw [hps]
    cases hasAddend <;> cases ps <;> cases negD fb <;> rfl
  · rw [if_neg (mt hz.mp hall)]
    obtain ⟨h₁, h₂⟩ := fmaAcc_holds ha hc hb hasAddend (not_and_or.mp hall)
    by_cases hx : fusedExact fa fc fb hasAddend = 0
    · obtain ⟨hnone, hsign⟩ := h₁ hx
      rw [hnone, if_pos hx]
      unfold fusedZero
      rw [if_pos hsign]
    · obtain ⟨v, hv, hsign, hholds⟩ := h₂ hx
      rw [hv, if_neg hx]
      dsimp only
      rw [hsign, hholds.roundPack henv, decide_signed _ hx]

theorem ieee_of_ne_zero {t : Tgt} {rn : U32} {zneg : Bool} {x : ℚ} (h : x ≠ 0) :
    ieee t rn zneg x
      = encode t rn (decide (x < 0)) (t.format.deliver (magMode rn (decide (x < 0))) |x|) :=
  if_neg h

/-- **No loss, no error**: where the accumulator stands for the exact result, the
code delivers its one rounding. -/
theorem fmaModel_of_exact {fa fc fb : U64} (ha : FiniteD fa) (hc : FiniteD fc) (hb : FiniteD fb)
    {env : Env} (henv : env.Std) (hasAddend negAdd negResult : Bool) (t : Tgt)
    (hexact : accumulated (valD fa * valD fc) (addend hasAddend fb)
      = |fusedExact fa fc fb hasAddend|) :
    fmaModel fa fc fb hasAddend negAdd negResult env t
      = fusedSpec t env.rn fa fc fb hasAddend negResult := by
  rw [fmaModel_eq ha hc hb henv, hexact]
  unfold fusedSpec
  by_cases hx : fusedExact fa fc fb hasAddend = 0
  · rw [if_pos hx]
    unfold ieee
    rw [if_pos ((signed_eq_zero_iff _).mpr hx)]
  · rw [if_neg hx, ieee_of_ne_zero ((signed_eq_zero_iff _).not.mpr hx), abs_signed_self]

end Sf

end OpenPowerMac
