/-
`sqrtSig` of `core/src/softfp.cpp` is the square root of its radicand, in 56 digits.

The radicand is shifted to the top of two words and read off two bits at a time. Its 112 top bits
are all of it, so what is never read is zero and the remainder says whether the root is exact.
-/
import Mathlib.Analysis.Real.Sqrt
import Mathlib.Data.Nat.Size
import OpenPowerMac.DigitRoot
import OpenPowerMac.Divide
import OpenPowerMac.Window

set_option autoImplicit false

namespace OpenPowerMac

namespace Sf

/-- What is under the root: the significand, doubled where the exponent was odd. -/
noncomputable def sigma (m : U64) (oddExp : Bool) : ℝ :=
  (m.toNat / 2 ^ 63) * (if oddExp then 2 else 1)

/-- Its first 112 bits. -/
def radicand (m : U64) (oddExp : Bool) : ℕ := m.toNat * 2 ^ 47 * (if oddExp then 2 else 1)

theorem sigma_eq (m : U64) (oddExp : Bool) :
    sigma m oddExp * 2 ^ 110 = (radicand m oddExp : ℝ) := by
  unfold sigma radicand
  push_cast
  cases oddExp
  · simp only [Bool.false_eq_true, if_false]
    ring
  · simp only [if_true]
    ring

/-- Two bits are shifted out at the top. -/
theorem shl128_two (v : U128) : (shl128 v 2).val = v.val * 4 % 2 ^ 128 := by
  have hlo := v.lo.isLt
  have hhi := v.hi.isLt
  have hin : (v.lo >>> 62).toNat = v.lo.toNat / 2 ^ 62 := shiftRight_toNat _ _
  have hup : (v.hi <<< 2).toNat = v.hi.toNat * 2 ^ 2 % 2 ^ 64 := shiftLeft_toNat _ _
  have hlow : (v.lo <<< 2).toNat = v.lo.toNat * 2 ^ 2 % 2 ^ 64 := shiftLeft_toNat _ _
  have hor : ((v.hi <<< 2) ||| (v.lo >>> 62)).toNat = (v.hi <<< 2).toNat + (v.lo >>> 62).toNat :=
    or_eq_add (by omega) (show (v.lo >>> 62).toNat < 2 ^ 2 by omega)
  show ((v.hi <<< 2) ||| (v.lo >>> 62)).toNat * 2 ^ 64 + (v.lo <<< 2).toNat = _
  rw [hor, hin, hup, hlow, U128.val]
  omega

/-- The bits read are the first `2 * n` of the radicand, and the root is theirs. -/
structure Rooted (x : ℕ) (n : ℕ) (v : SqrtState) : Prop where
  rad : v.rad.val = x * 4 ^ n % 2 ^ 128
  root : IsRoot (x * 4 ^ n / 2 ^ 128) v.q.toNat v.rem.val
  lt : v.q.toNat < 2 ^ n

/-- The next two bits. -/
theorem next_bits (x n : ℕ) : x * 4 ^ (n + 1) / 2 ^ 128
      = 4 * (x * 4 ^ n / 2 ^ 128) + x * 4 ^ n % 2 ^ 128 / 2 ^ 126
    ∧ x * 4 ^ (n + 1) % 2 ^ 128 = x * 4 ^ n % 2 ^ 128 * 4 % 2 ^ 128 := by
  rw [pow_succ, ← mul_assoc]
  omega

theorem Rooted.step {x n : ℕ} {v : SqrtState} (h : Rooted x n v) (hn : n < 56) :
    Rooted x (n + 1) (sqrtStep v) := by
  have hpow : (2 : ℕ) ^ n ≤ 2 ^ 55 := Nat.pow_le_pow_right (by decide) (by omega)
  have hq := h.lt
  have hsmall := h.root.small
  have hnext := next_bits x n
  rw [← h.rad] at hnext
  have hrad := v.rad.val_lt
  -- the two bits come in under the remainder
  have htop : (v.rad.hi >>> 62).toNat = v.rad.val / 2 ^ 126 := by
    have hlo := v.rad.lo.isLt
    rw [shiftRight_toNat, U128.val]
    omega
  have hshl : (shl128 v.rem 2).val = v.rem.val * 4 := by
    rw [shl128_two, Nat.mod_eq_of_lt (by omega)]
  have hmod := (shl128 v.rem 2).val_mod
  have hbits : ((shl128 v.rem 2).lo ||| (v.rad.hi >>> 62)).toNat
      = (shl128 v.rem 2).lo.toNat + v.rad.val / 2 ^ 126 := by
    rw [← htop]
    exact or_eq_add (n := 2) (by omega) (by omega)
  have hrem : (U128.mk (shl128 v.rem 2).hi ((shl128 v.rem 2).lo ||| (v.rad.hi >>> 62))).val
      = 4 * v.rem.val + v.rad.val / 2 ^ 126 := by
    have hval : (shl128 v.rem 2).val
        = (shl128 v.rem 2).hi.toNat * 2 ^ 64 + (shl128 v.rem 2).lo.toNat := rfl
    show (shl128 v.rem 2).hi.toNat * 2 ^ 64
      + ((shl128 v.rem 2).lo ||| (v.rad.hi >>> 62)).toNat = _
    omega
  have htrial : ((v.q <<< 2) ||| 1#64).toNat = 4 * v.q.toNat + 1 := by
    have hup : (v.q <<< 2).toNat = v.q.toNat * 2 ^ 2 % 2 ^ 64 := shiftLeft_toNat _ _
    have hor : ((v.q <<< 2) ||| 1#64).toNat = (v.q <<< 2).toNat + (1#64).toNat :=
      or_eq_add (n := 2) (by omega) (by decide)
    rw [hor, hup]
    simp only [BitVec.toNat_ofNat]
    omega
  have htval : (U128.mk 0#64 ((v.q <<< 2) ||| 1#64)).val = 4 * v.q.toNat + 1 := by
    rw [U128.val, htrial]
    simp
  have hdbl : (v.q <<< 1).toNat = 2 * v.q.toNat := by
    have hup : (v.q <<< 1).toNat = v.q.toNat * 2 ^ 1 % 2 ^ 64 := shiftLeft_toNat _ _
    omega
  have hradn : (shl128 v.rad 2).val = x * 4 ^ (n + 1) % 2 ^ 128 :=
    (shl128_two v.rad).trans hnext.2.symm
  have hpow' : (2 : ℕ) ^ (n + 1) = 2 * 2 ^ n := by ring
  unfold sqrtStep
  dsimp only
  rw [ge128_eq, htval, hrem]
  by_cases hle : 4 * v.q.toNat + 1 ≤ 4 * v.rem.val + v.rad.val / 2 ^ 126
  · have hdig : ((v.q <<< 1) ||| 1#64).toNat = 2 * v.q.toNat + 1 := by
      have hor : ((v.q <<< 1) ||| 1#64).toNat = (v.q <<< 1).toNat + (1#64).toNat :=
        or_eq_add (n := 1) (by omega) (by decide)
      rw [hor, hdbl]
      rfl
    rw [if_pos (decide_eq_true hle)]
    refine ⟨hradn, ?_, ?_⟩
    · dsimp only
      rw [hnext.1, hdig, sub128_val (by rw [htval, hrem]; exact hle), htval, hrem]
      exact h.root.take (by omega) hle
    · dsimp only
      omega
  · rw [if_neg (by simpa using hle)]
    refine ⟨hradn, ?_, ?_⟩
    · dsimp only
      rw [hnext.1, hdbl, hrem]
      exact h.root.skip hle
    · dsimp only
      omega

theorem Rooted.run {x : ℕ} {v : SqrtState} (h : Rooted x 0 v) {n : ℕ} (hn : n ≤ 56) :
    Rooted x n (sqrtStep^[n] v) := by
  induction n with
  | zero => exact h
  | succ n ih =>
    rw [Function.iterate_succ_apply']
    exact (ih (by omega)).step (by omega)

/-- The radicand in place. -/
theorem radicand_shifted (m : U64) (oddExp : Bool) :
    (shl128 { hi := 0#64, lo := m } (63 + if oddExp then 1 else 0)).val
      = radicand m oddExp * 2 ^ 16 := by
  have hm := m.isLt
  have hval : (U128.mk 0#64 m).val = m.toNat := by
    rw [U128.val]
    simp
  unfold radicand
  cases oddExp
  · simp only [Bool.false_eq_true, if_false, Nat.add_zero]
    rw [shl128_val (by rw [hval]; omega) (by decide), hval]
    ring
  · simp only [if_true]
    rw [shl128_val (by rw [hval]; omega) (by decide), hval]
    ring

/-- **The root.** For a normalised significand the 56 digits are the root of the radicand rounded
down, and the sticky bit is set exactly where that is not the root itself. -/
theorem sqrtSig_exact (m : U64) (hm : 2 ^ 63 ≤ m.toNat) (oddExp : Bool) :
    ((sqrtSig m oddExp).1.toNat = ⌊√(sigma m oddExp * 2 ^ 110)⌋₊)
      ∧ (sqrtSig m oddExp).1.toNat.size = 56
      ∧ ((sqrtSig m oddExp).2 = true ↔
        ((sqrtSig m oddExp).1.toNat : ℝ) * (sqrtSig m oddExp).1.toNat
          ≠ sigma m oddExp * 2 ^ 110) := by
  have hlt := m.isLt
  have hx : 2 ^ 110 ≤ radicand m oddExp ∧ radicand m oddExp < 2 ^ 112 := by
    unfold radicand
    cases oddExp
    · simp only [Bool.false_eq_true, if_false]
      omega
    · simp only [if_true]
      omega
  have hstart : Rooted (radicand m oddExp * 2 ^ 16) 0
      { rad := shl128 { hi := 0#64, lo := m } (63 + if oddExp then 1 else 0)
        rem := { hi := 0#64, lo := 0#64 }, q := 0#64 } := by
    refine ⟨?_, ?_, ?_⟩
    · rw [radicand_shifted, pow_zero, mul_one, Nat.mod_eq_of_lt (by omega)]
    · have hzero : (U128.mk 0#64 0#64).val = 0 := by
        rw [U128.val]
        rfl
      dsimp only
      rw [pow_zero, mul_one, Nat.div_eq_of_lt (by omega), hzero]
      exact IsRoot.zero
    · exact Nat.one_pos
  have hend := hstart.run (le_refl 56)
  obtain ⟨v, hv⟩ : ∃ v, sqrtStep^[56]
      { rad := shl128 { hi := 0#64, lo := m } (63 + if oddExp then 1 else 0)
        rem := { hi := 0#64, lo := 0#64 }, q := 0#64 } = v := ⟨_, rfl⟩
  have hsig : sqrtSig m oddExp = (v.q, v.rem.hi != 0#64 || v.rem.lo != 0#64) := by
    rw [← hv]
    rfl
  rw [hv] at hend
  have hroot : IsRoot (radicand m oddExp) v.q.toNat v.rem.val := by
    have h := hend.root
    rwa [show radicand m oddExp * 2 ^ 16 * 4 ^ 56 / 2 ^ 128 = radicand m oddExp by omega] at h
  have hsticky : (v.rem.hi != 0#64 || v.rem.lo != 0#64) = true ↔ v.rem.val ≠ 0 := by
    rw [bne_zero, bne_zero, U128.val]
    simp only [Bool.or_eq_true, bne_iff_ne]
    omega
  rw [hsig, sigma_eq]
  refine ⟨?_, ?_, ?_⟩
  · rw [Real.nat_floor_real_sqrt_eq_nat_sqrt]
    exact hroot.sqrt
  · -- between the roots of the two powers
    have hsq := hroot.sum
    have hsmall := hroot.small
    have hlow : 2 ^ 55 ≤ v.q.toNat := by
      by_contra hcon
      have := Nat.mul_self_le_mul_self (show v.q.toNat + 1 ≤ 2 ^ 55 by omega)
      have hexp : (v.q.toNat + 1) * (v.q.toNat + 1)
          = v.q.toNat * v.q.toNat + 2 * v.q.toNat + 1 := by ring
      omega
    have hle : v.q.toNat.size ≤ 56 := Nat.size_le.mpr hend.lt
    have hgt : 55 < v.q.toNat.size := Nat.lt_size.mpr hlow
    dsimp only
    omega
  · dsimp only
    rw [hsticky]
    refine (not_congr hroot.rest_eq_zero_iff).trans (not_congr ?_)
    norm_cast

/-- The root of two, which is not a number of 56 digits. -/
theorem sqrtSig_exact_two :
    ((sqrtSig 0x8000000000000000#64 true).1.toNat
        = ⌊√(sigma 0x8000000000000000#64 true * 2 ^ 110)⌋₊)
      ∧ (sqrtSig 0x8000000000000000#64 true).1.toNat.size = 56
      ∧ ((sqrtSig 0x8000000000000000#64 true).2 = true ↔
        ((sqrtSig 0x8000000000000000#64 true).1.toNat : ℝ)
          * (sqrtSig 0x8000000000000000#64 true).1.toNat
          ≠ sigma 0x8000000000000000#64 true * 2 ^ 110) :=
  sqrtSig_exact 0x8000000000000000#64 (by decide) true

end Sf

end OpenPowerMac
