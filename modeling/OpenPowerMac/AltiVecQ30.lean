/-
The estimates' arithmetic in 30 binary places.

Nothing in the cubic overflows and no shift is out of range, and what its three cuts
lose is less than two units of the last place (`cubic_spec`). The double put together
from the result is the result (`packQ30_eq`). So each estimate has a result at every
lane, and `logEstimate_spec` and `expEstimate_spec` say which.
-/
import OpenPowerMac.AltiVecConvert
import OpenPowerMac.AltiVecEstimate
import OpenPowerMac.CubicBounds
import Mathlib.Data.Int.Log

set_option autoImplicit false

namespace OpenPowerMac

open Rounding Sf CubicBounds

namespace Vec

variable {β : Type}

/-! ## Operations -/

theorem inI64_eq {z : ℤ} (h : |z| < 2 ^ 63) : inI64 z = some z := by
  rw [abs_lt] at h
  exact if_pos ⟨h.1.le, h.2⟩

theorem amount_eq {n : ℤ} (h0 : 0 ≤ n) (h : n < 64) : amount n = some n.toNat := if_pos ⟨h0, h⟩

theorem sar_eq (z : ℤ) : sar z 30 = some (z / 2 ^ 30) := rfl

theorem sal_eq {z : ℤ} (h : |z| < 2 ^ 33) : sal z 30 = some (z * 2 ^ 30) := by
  have hin : |z * 2 ^ 30| < 2 ^ 63 := by
    rw [abs_mul]
    calc |z| * |2 ^ 30| < 2 ^ 33 * 2 ^ 30 := by
          rw [abs_of_pos (by norm_num : (0 : ℤ) < 2 ^ 30)]
          omega
      _ = 2 ^ 63 := by norm_num
  unfold sal
  rw [amount_eq (by norm_num) (by norm_num), Option.bind_some]
  exact inI64_eq hin

theorem shr_eq (x : U64) {n : ℤ} (h0 : 0 ≤ n) (h : n < 64) : shr x n = some (x >>> n.toNat) := by
  rw [shr, amount_eq h0 h, Option.map_some]

theorem shl_eq (x : U64) {n : ℤ} (h0 : 0 ≤ n) (h : n < 64) : shl x n = some (x <<< n.toNat) := by
  rw [shl, amount_eq h0 h, Option.map_some]

/-! ## The cubic -/

/-- Coefficients that leave the cubic room. -/
structure Room (c1 c2 c3 : ℤ) : Prop where
  first : |c1| < 2 ^ 31
  rest : |c2| + 2 * |c3| ≤ 2 ^ 30

/-- What the cubic is at a fraction. -/
structure Cubed (c1 c2 c3 t z : ℤ) : Prop where
  near : |(z : ℝ) / 2 ^ 30 - cub (c1 / 2 ^ 30) (c2 / 2 ^ 30) (c3 / 2 ^ 30) (t / 2 ^ 30)|
    ≤ 1 / 2 ^ 29
  small : |z| ≤ 2 ^ 32
  nonneg : 0 ≤ c1 → 0 ≤ c2 → 0 ≤ c3 → 0 ≤ z

/-- A division by `2 ^ 30`, and what it cuts off. -/
theorem cut (z : ℤ) : ∃ r : ℤ, 0 ≤ r ∧ r < 2 ^ 30 ∧ z = z / 2 ^ 30 * 2 ^ 30 + r :=
  ⟨z % 2 ^ 30, Int.emod_nonneg _ (by norm_num), Int.emod_lt_of_pos _ (by norm_num), by omega⟩

/-- A product of a coefficient and a fraction. -/
theorem abs_mul_fraction {c u m : ℤ} (hc : |c| ≤ m) (h0 : 0 ≤ u) (h : u < 2 ^ 30) :
    |c * u| ≤ m * 2 ^ 30 := by
  rw [abs_mul, abs_of_nonneg h0]
  exact mul_le_mul hc h.le h0 ((abs_nonneg c).trans hc)

/-- A square or a cube of fractions is one. -/
theorem fraction_mul {u v : ℤ} (hu0 : 0 ≤ u) (hu : u < 2 ^ 30) (hv0 : 0 ≤ v) (hv : v < 2 ^ 30) :
    0 ≤ u * v / 2 ^ 30 ∧ u * v / 2 ^ 30 < 2 ^ 30 ∧ |u * v| < 2 ^ 63 := by
  have hnn := mul_nonneg hu0 hv0
  have hlt : u * v < 2 ^ 30 * 2 ^ 30 := mul_lt_mul'' hu hv hu0 hv0
  rw [abs_of_nonneg hnn]
  omega

theorem abs_fraction {r : ℤ} (h0 : 0 ≤ r) (h : r < 2 ^ 30) : |(r : ℝ) / 2 ^ 30| ≤ 1 := by
  have hnn : (0 : ℝ) ≤ r := by exact_mod_cast h0
  rw [abs_of_nonneg (by positivity), div_le_one (by norm_num)]
  exact_mod_cast h.le

theorem abs_mul_le_abs (x : ℝ) {y : ℝ} (h : |y| ≤ 1) : |x * y| ≤ |x| := by
  rw [abs_mul]
  exact mul_le_of_le_one_right (abs_nonneg x) h

/-- **The cubic has a value, and it is near.** -/
theorem cubic_spec {c1 c2 c3 t : ℤ} (h : Room c1 c2 c3) (h0 : 0 ≤ t) (ht : t < 2 ^ 30) :
    ∃ z, cubic c1 c2 c3 t = some z ∧ Cubed c1 c2 c3 t z := by
  obtain ⟨t2, ht2⟩ : ∃ t2, t * t / 2 ^ 30 = t2 := ⟨_, rfl⟩
  obtain ⟨t3, ht3⟩ : ∃ t3, t2 * t / 2 ^ 30 = t3 := ⟨_, rfl⟩
  obtain ⟨h2n, h2l, h2i⟩ := fraction_mul h0 ht h0 ht
  rw [ht2] at h2n h2l
  obtain ⟨h3n, h3l, h3i⟩ := fraction_mul h2n h2l h0 ht
  rw [ht3] at h3n h3l
  obtain ⟨r2, hr2n, hr2l, hr2⟩ := cut (t * t)
  obtain ⟨r3, hr3n, hr3l, hr3⟩ := cut (t2 * t)
  obtain ⟨r4, hr4n, hr4l, hr4⟩ := cut (c1 * t + c2 * t2 + c3 * t3)
  rw [ht2] at hr2
  rw [ht3] at hr3
  have hrest := h.rest
  have hp1 := abs_mul_fraction h.first.le h0 ht
  have hp2 := abs_mul_fraction (c := c2) (m := 2 ^ 30) (by linarith [abs_nonneg c3]) h2n h2l
  have hp3 := abs_mul_fraction (c := c3) (m := 2 ^ 30)
    (by linarith [abs_nonneg c2, abs_nonneg c3]) h3n h3l
  have hs12 := abs_add_le (c1 * t) (c2 * t2)
  have hs123 := abs_add_le (c1 * t + c2 * t2) (c3 * t3)
  have hval : cubic c1 c2 c3 t = some ((c1 * t + c2 * t2 + c3 * t3) / 2 ^ 30) := by
    have i1 : inI64 (c1 * t) = some (c1 * t) := inI64_eq (by omega)
    have i2 : inI64 (c2 * t2) = some (c2 * t2) := inI64_eq (by omega)
    have i3 : inI64 (c3 * t3) = some (c3 * t3) := inI64_eq (by omega)
    have i12 : inI64 (c1 * t + c2 * t2) = some (c1 * t + c2 * t2) := inI64_eq (by omega)
    have i123 : inI64 (c1 * t + c2 * t2 + c3 * t3) = some (c1 * t + c2 * t2 + c3 * t3) :=
      inI64_eq (by omega)
    unfold cubic
    simp only [Option.bind_eq_bind, Option.bind_some, sar_eq, inI64_eq h2i, ht2, inI64_eq h3i, ht3,
      i1, i2, i3, i12, i123]
  refine ⟨_, hval, ⟨?_, ?_, fun hc1 hc2 hc3 => ?_⟩⟩
  · obtain ⟨z, hz⟩ : ∃ z, (c1 * t + c2 * t2 + c3 * t3) / 2 ^ 30 = z := ⟨_, rfl⟩
    rw [hz] at hr4 ⊢
    -- each cut, over the reals
    have e2 : (t : ℝ) * t = t2 * 2 ^ 30 + r2 := by exact_mod_cast hr2
    have e3 : (t2 : ℝ) * t = t3 * 2 ^ 30 + r3 := by exact_mod_cast hr3
    have e4 : (c1 : ℝ) * t + c2 * t2 + c3 * t3 = z * 2 ^ 30 + r4 := by exact_mod_cast hr4
    have hdiff : (z : ℝ) / 2 ^ 30 - cub (c1 / 2 ^ 30) (c2 / 2 ^ 30) (c3 / 2 ^ 30) (t / 2 ^ 30)
        = -(c2 / 2 ^ 30 * (r2 / 2 ^ 30) + c3 / 2 ^ 30 * (r3 / 2 ^ 30)
          + c3 / 2 ^ 30 * (r2 / 2 ^ 30 * (t / 2 ^ 30)) + r4 / 2 ^ 30) / 2 ^ 30 := by
      unfold cub
      linear_combination (-1 / 2 ^ 60) * e4 - (c2 / 2 ^ 90 + c3 * t / 2 ^ 120) * e2
        - (c3 / 2 ^ 90) * e3
    have b2 := abs_fraction hr2n hr2l
    have b3 := abs_fraction hr3n hr3l
    have b4 := abs_fraction hr4n hr4l
    have bt := abs_fraction h0 ht
    have hc : |(c2 : ℝ) / 2 ^ 30| + 2 * |(c3 : ℝ) / 2 ^ 30| ≤ 1 := by
      rw [abs_div, abs_div, abs_of_pos (by norm_num : (0 : ℝ) < 2 ^ 30), ← mul_div_assoc, ← add_div,
        div_le_one (by norm_num)]
      exact_mod_cast hrest
    have p2 := abs_mul_le_abs (c2 / 2 ^ 30 : ℝ) b2
    have p3 := abs_mul_le_abs (c3 / 2 ^ 30 : ℝ) b3
    have p4 := abs_mul_le_abs (c3 / 2 ^ 30 : ℝ) ((abs_mul_le_abs _ bt).trans b2)
    have hsum : |(c2 : ℝ) / 2 ^ 30 * (r2 / 2 ^ 30) + c3 / 2 ^ 30 * (r3 / 2 ^ 30)
        + c3 / 2 ^ 30 * (r2 / 2 ^ 30 * (t / 2 ^ 30)) + r4 / 2 ^ 30| ≤ 2 := by
      rw [abs_le] at p2 p3 p4 b4 ⊢
      constructor <;> linarith [p2.1, p2.2, p3.1, p3.2, p4.1, p4.2, b4.1, b4.2]
    rw [hdiff, neg_div, abs_neg, abs_div, abs_of_pos (by norm_num : (0 : ℝ) < 2 ^ 30),
      div_le_iff₀ (by norm_num)]
    exact hsum.trans (by norm_num)
  · have hle : |c1 * t + c2 * t2 + c3 * t3| ≤ 2 ^ 62 := by omega
    rw [abs_le] at hle ⊢
    omega
  · exact Int.ediv_nonneg (by positivity) (by norm_num)

/-! ## The double -/

/-- `63 - std::countl_zero` of a magnitude. -/
theorem topBit_eq {x : U64} (h : x.toNat ≠ 0) : topBit x = x.toNat.log2 := by
  refine if_neg ?_
  rintro rfl
  exact h rfl

/-- **The double is the magnitude times its power.** -/
theorem packQ30_eq {mag : U64} {rexp : ℤ} (h0 : mag.toNat ≠ 0) (hlt : mag.toNat < 2 ^ 53)
    (hlow : -900 ≤ rexp) (hhigh : rexp ≤ 900) :
    packQ30 mag rexp = some (encD false (mag.toNat * 2 ^ (rexp - 30))) := by
  have hL53 : mag.toNat.log2 < 53 := (Nat.log2_lt h0).mpr hlt
  obtain ⟨E, hE⟩ : ∃ E : ℕ, (E : ℤ) = 1023 + mag.toNat.log2 + (rexp - 30) :=
    ⟨(1023 + mag.toNat.log2 + (rexp - 30)).toNat, Int.toNat_of_nonneg (by omega)⟩
  have hde : inI64 (rexp + ((mag.toNat.log2 : ℤ) - 30))
      = some (rexp + ((mag.toNat.log2 : ℤ) - 30)) :=
    inI64_eq (abs_lt.mpr ⟨by omega, by omega⟩)
  have hsum : 1023 + (rexp + ((mag.toNat.log2 : ℤ) - 30)) = (E : ℤ) := by omega
  have hmove : ((52 : ℤ) - mag.toNat.log2).toNat = 52 - mag.toNat.log2 := by omega
  have hshift : shl mag (52 - (mag.toNat.log2 : ℤ)) = some (mag <<< (52 - mag.toNat.log2)) := by
    rw [shl_eq mag (by omega) (by omega), hmove]
  have hfield : shl (BitVec.ofNat 64 E) 52 = some (BitVec.ofNat 64 E <<< 52) := rfl
  have heq := scaled_eq false h0 hlt hE (by omega) (by omega)
  rw [if_neg Bool.false_ne_true, BitVec.zero_or] at heq
  unfold packQ30
  simp only [Option.bind_eq_bind, Option.bind_some, topBit_eq h0, hshift, hde, hsum,
    BitVec.ofInt_natCast, hfield, Option.pure_def, heq]

/-! ## The estimates -/

/-- The single of a number in 30 binary places. -/
def fromQ30 (h : Cpu.Fast) (q : ℤ) : U32 :=
  if q = 0 then 0#32
  else dn (rsp h.host h.off (encD (decide (q < 0)) ((|q| : ℤ) / 2 ^ 30)) vecEnv).bits

/-- The fraction of a double, in 30 binary places. -/
def fraction30 (d : U64) : ℤ := (d.toNat % 2 ^ 52 / 2 ^ 22 : ℕ)

theorem fraction30_range (d : U64) : 0 ≤ fraction30 d ∧ fraction30 d < 2 ^ 30 := by
  unfold fraction30
  omega

theorem bexp_lt (d : U64) : bexp d < 2048 := by
  have := d.isLt
  rw [bexp_eq]
  omega

theorem toInt_small {x : U64} (h : x.toNat < 2 ^ 63) : x.toInt = x.toNat := by
  rw [BitVec.toInt_eq_toNat_cond, if_pos (by omega)]

theorem ofInt_toNat {z : ℤ} (h0 : 0 ≤ z) (h : z < 2 ^ 63) :
    ((BitVec.ofInt 64 z).toNat : ℤ) = z := by
  rw [BitVec.toNat_ofInt]
  omega

theorem room_log : Room 1549082004 (-623693658) 148656453 := ⟨by norm_num, by norm_num⟩

theorem room_exp : Room 744822652 258141149 71624073 := ⟨by norm_num, by norm_num⟩

/-- **The logarithm's estimate**, at any lane: the exponent and the cubic of the fraction. -/
theorem logEstimate_spec (h : Cpu.Fast) (w : U32) :
    ∃ lf, Cubed 1549082004 (-623693658) 148656453 (fraction30 (up w)) lf
      ∧ logEstimate h w = some (fromQ30 h (((bexp (up w) : ℤ) - 1023) * 2 ^ 30 + lf)) := by
  obtain ⟨hf0, hf⟩ := fraction30_range (up w)
  obtain ⟨lf, hcubic, hlf⟩ := cubic_spec room_log hf0 hf
  refine ⟨lf, hlf, ?_⟩
  have hB := bexp_lt (up w)
  obtain ⟨q, hq⟩ : ∃ q, ((bexp (up w) : ℤ) - 1023) * 2 ^ 30 + lf = q := ⟨_, rfl⟩
  have hsmall := abs_le.mp hlf.small
  have hqs : |q| < 2 ^ 53 := abs_lt.mpr ⟨by omega, by omega⟩
  have hshr : shr (up w &&& 0x000FFFFFFFFFFFFF#64) 22
      = some ((up w &&& 0x000FFFFFFFFFFFFF#64) >>> 22) := rfl
  have hfrac : ((up w &&& 0x000FFFFFFFFFFFFF#64) >>> 22).toInt = fraction30 (up w) := by
    have hnat : ((up w &&& 0x000FFFFFFFFFFFFF#64) >>> 22).toNat
        = (up w).toNat % 2 ^ 52 / 2 ^ 22 := by
      rw [BitVec.toNat_ushiftRight, Nat.shiftRight_eq_div_pow, BitVec.toNat_and,
        show (0x000FFFFFFFFFFFFF#64).toNat = 2 ^ 52 - 1 from rfl, Nat.and_two_pow_sub_one_eq_mod]
    have hlt : (up w).toNat % 2 ^ 52 / 2 ^ 22 < 2 ^ 63 := by omega
    rw [toInt_small (hnat.trans_lt hlt), hnat]
    rfl
  have hsal : sal ((bexp (up w) : ℤ) - 1023) 30 = some (((bexp (up w) : ℤ) - 1023) * 2 ^ 30) :=
    sal_eq (abs_lt.mpr ⟨by omega, by omega⟩)
  have hin : inI64 q = some q := inI64_eq (hqs.trans (by norm_num))
  have hnat := ofInt_toNat (abs_nonneg q) (hqs.trans (by norm_num))
  have hcast : ((BitVec.ofInt 64 |q|).toNat : ℚ) * 2 ^ ((0 : ℤ) - 30)
      = ((|q| : ℤ) : ℚ) / 2 ^ 30 := by
    have hq' : ((BitVec.ofInt 64 |q|).toNat : ℚ) = ((|q| : ℤ) : ℚ) := by exact_mod_cast hnat
    rw [hq', zero_sub, zpow_neg, div_eq_mul_inv]
    rfl
  unfold logEstimate fromQ30
  simp only [Option.bind_eq_bind, Option.bind_some, Option.pure_def, hshr, hfrac, hcubic, hsal, hq,
    hin, decide_eq_true_eq]
  by_cases hzero : q = 0
  · rw [if_pos hzero, if_pos hzero]
  have hpos := abs_pos.mpr hzero
  have hpack : packQ30 (BitVec.ofInt 64 |q|) 0 = some (encD false ((|q| : ℤ) / 2 ^ 30)) := by
    rw [← hcast]
    exact packQ30_eq (by omega) (by omega) (by norm_num) (by norm_num)
  rw [if_neg hzero, if_neg hzero]
  -- `fromQ30` packs the magnitude and puts the sign back
  by_cases hneg : q < 0
  · have hflip : inI64 (-q) = some |q| := by
      rw [abs_of_neg hneg]
      refine inI64_eq ?_
      rw [abs_neg]
      exact hqs.trans (by norm_num)
    rw [if_pos hneg, hflip, Option.bind_some, hpack, Option.bind_some, if_pos hneg,
      decide_eq_true hneg, BitVec.or_comm]
    unfold encD
    rw [if_neg Bool.false_ne_true, BitVec.zero_or]
    rfl
  · rw [abs_of_nonneg (not_lt.mp hneg)] at hpack ⊢
    rw [if_neg hneg, hpack, Option.bind_some, if_neg hneg, decide_eq_false hneg]

/-- The digits cut where the exponent puts the point. -/
def argument30 (d : U64) : ℤ :=
  let mag : ℤ := ((digits d).toNat / 2 ^ (1045 - bexp d) : ℕ)
  if d.msb then -mag else mag

/-- Between `2^-31` and `2^9` the argument is cut. -/
theorem expArgument_mid {d : U64} (hlow : 992 ≤ bexp d) (hhigh : bexp d ≤ 1031) :
    expArgument d = some (argument30 d) := by
  obtain ⟨B, hB⟩ : ∃ B, bexp d = B := ⟨_, rfl⟩
  have hdig : (d &&& 0x000FFFFFFFFFFFFF#64) ||| (1#64 <<< 52) = digits d := by
    unfold digits
    rw [if_pos (by omega)]
  have hlt : (digits d).toNat < 2 ^ 53 := by
    rw [digits_toNat]
    split <;> omega
  rw [hB] at hlow hhigh
  have hsign : ∀ mag : U64, mag.toNat = (digits d).toNat / 2 ^ (1045 - B) →
      (if d.msb then inI64 (-mag.toInt) else some mag.toInt) = some (argument30 d) := by
    intro mag hmag
    have hsmall : mag.toNat < 2 ^ 53 := by
      rw [hmag]
      exact (Nat.div_le_self _ _).trans_lt hlt
    have hneg : inI64 (-mag.toInt) = some (-mag.toInt) := by
      rw [toInt_small (by omega)]
      exact inI64_eq (abs_lt.mpr ⟨by omega, by omega⟩)
    unfold argument30
    dsimp only
    rw [hneg, toInt_small (by omega), hmag, hB]
    split <;> rfl
  unfold expArgument
  dsimp only
  rw [hB, if_neg (by omega), if_neg (by omega), if_neg (by omega), hdig]
  simp only [Option.bind_eq_bind]
  -- one shift or two, the digits are cut in the same place
  by_cases hexp : (0 : ℤ) ≤ (B : ℤ) - 1023
  · have hamt : (52 - 30 - ((B : ℤ) - 1023)).toNat = 1045 - B := by omega
    rw [if_pos hexp, shr_eq _ (by omega) (by omega), Option.bind_some]
    exact hsign _ (by rw [hamt, shiftRight_toNat])
  · have hamt : (-((B : ℤ) - 1023)).toNat = 1023 - B := by omega
    have hfirst : shr (digits d) (52 - 30) = some (digits d >>> 22) := rfl
    rw [if_neg hexp, hfirst, Option.bind_some, shr_eq _ (by omega) (by omega), Option.bind_some]
    refine hsign _ ?_
    rw [hamt, shiftRight_toNat, shiftRight_toNat, Nat.div_div_eq_div_mul, ← pow_add]
    congr 2
    omega

theorem expArgument_defined (d : U64) : ∃ q, expArgument d = some q ∧ |q| < 2 ^ 40 := by
  by_cases hzero : bexp d = 0
  · refine ⟨0, ?_, by norm_num⟩
    unfold expArgument
    rw [if_pos hzero]
  by_cases hhigh : bexp d ≤ 1031
  · by_cases hlow : 992 ≤ bexp d
    · refine ⟨_, expArgument_mid hlow hhigh, ?_⟩
      have hlt : (digits d).toNat < 2 ^ 53 := by
        rw [digits_toNat]
        split <;> omega
      have hle : (digits d).toNat / 2 ^ (1045 - bexp d) ≤ (digits d).toNat / 2 ^ 14 :=
        Nat.div_le_div_left (Nat.pow_le_pow_right (by norm_num) (by omega)) (by norm_num)
      obtain ⟨mag, hmag⟩ : ∃ mag, (digits d).toNat / 2 ^ (1045 - bexp d) = mag := ⟨_, rfl⟩
      unfold argument30
      rw [abs_lt]
      dsimp only
      rw [hmag] at hle ⊢
      split <;> omega
    · refine ⟨0, ?_, by norm_num⟩
      unfold expArgument
      dsimp only
      rw [if_neg hzero, if_neg (by omega), if_pos (by omega)]
  · have hsal : sal 200 30 = some (200 * 2 ^ 30) := sal_eq (by norm_num)
    have hneg : inI64 (-(200 * 2 ^ 30)) = some (-(200 * 2 ^ 30)) := inI64_eq (by norm_num)
    refine ⟨if d.msb then -(200 * 2 ^ 30) else 200 * 2 ^ 30, ?_, by split <;> norm_num⟩
    unfold expArgument
    dsimp only
    rw [if_neg hzero, if_pos (by omega), hsal]
    simp only [Option.bind_eq_bind, Option.bind_some, hneg]
    split <;> rfl

/-- On a finite lane of magnitude below `2^9` the argument is cut toward zero. -/
theorem expArgument_eq {w : U32} {D B : ℕ} (h : Opened w D B) (hB : B ≤ 1031) :
    expArgument (up w) = some (truncated w 30) := by
  rw [truncated_eq, h.value]
  have hval : (D : ℚ) * 2 ^ ((B : ℤ) - 1075) * 2 ^ 30 = D * 2 ^ ((B : ℤ) - 1045) := by
    rw [mul_assoc, ← zpow_natCast (2 : ℚ) 30, ← two_zpow_add]
    congr 2
    push_cast
    ring
  rw [hval]
  have hnone : ⌊(D : ℚ) * 2 ^ ((B : ℤ) - 1045)⌋₊ = 0 →
      (if negS w then -(⌊(D : ℚ) * 2 ^ ((B : ℤ) - 1045)⌋₊ : ℤ)
        else (⌊(D : ℚ) * 2 ^ ((B : ℤ) - 1045)⌋₊ : ℤ)) = 0 := by
    intro h0
    rw [h0]
    split <;> rfl
  rcases h.range with ⟨hD, hB0⟩ | ⟨hD, hD', hB1, -⟩
  · rw [hnone (by rw [hD, Nat.cast_zero, zero_mul, Nat.floor_zero])]
    unfold expArgument
    rw [h.bexp, if_pos hB0]
  · by_cases hlow : 992 ≤ B
    · have hcut : (D : ℚ) * 2 ^ ((B : ℤ) - 1045) = (D : ℚ) / ((2 ^ (1045 - B) : ℕ) : ℚ) := by
        rw [show (B : ℤ) - 1045 = -((1045 - B : ℕ) : ℤ) by omega, zpow_neg, zpow_natCast,
          div_eq_mul_inv]
        push_cast
        rfl
      rw [expArgument_mid (by rw [h.bexp]; exact hlow) (by rw [h.bexp]; exact hB), hcut,
        Nat.floor_div_eq_div]
      unfold argument30
      rw [h.digits, h.bexp, h.sign]
    · have hDq : (D : ℚ) < 2 ^ (53 : ℤ) := by exact_mod_cast hD'
      have hlt := mul_lt_mul_of_pos_right hDq (two_zpow_pos (K := ℚ) ((B : ℤ) - 1045))
      rw [← two_zpow_add] at hlt
      have hone : (2 : ℚ) ^ (53 + ((B : ℤ) - 1045)) ≤ 2 ^ (0 : ℤ) := two_zpow_le (by omega)
      rw [hnone (Nat.floor_eq_zero.mpr (hlt.trans_le hone))]
      unfold expArgument
      dsimp only
      rw [h.bexp, if_neg (by omega), if_neg (by omega), if_pos (by omega)]

/-- **The power's estimate**: the cubic of the argument's fraction, times the power of its floor. -/
theorem expEstimate_spec (h : Cpu.Fast) {w : U32} {q : ℤ} (hq : expArgument (up w) = some q)
    (hqs : |q| < 2 ^ 40) :
    ∃ z, Cubed 744822652 258141149 71624073 (q % 2 ^ 30) z
      ∧ expEstimate h w = some (if q / 2 ^ 30 < -150 then 0#32
        else if 128 < q / 2 ^ 30 then 0x7F800000#32
        else dn (rsp h.host h.off
          (encD false (((2 ^ 30 + z : ℤ) : ℚ) * 2 ^ (q / 2 ^ 30 - 30))) vecEnv).bits) := by
  obtain ⟨z, hcubic, hz⟩ := cubic_spec room_exp (Int.emod_nonneg q (by norm_num))
    (Int.emod_lt_of_pos q (by norm_num))
  refine ⟨z, hz, ?_⟩
  rw [abs_lt] at hqs
  have hnn := hz.nonneg (by norm_num) (by norm_num) (by norm_num)
  have hsmall := (abs_le.mp hz.small).2
  have hip : inI64 (q / 2 ^ 30) = some (q / 2 ^ 30) := inI64_eq (abs_lt.mpr ⟨by omega, by omega⟩)
  have hsal : sal 1 30 = some (2 ^ 30) := rfl
  have hmf : inI64 (2 ^ 30 + z) = some (2 ^ 30 + z) := inI64_eq (abs_lt.mpr ⟨by omega, by omega⟩)
  unfold expEstimate
  simp only [Option.bind_eq_bind, Option.bind_some, Option.pure_def, hq, sar_eq, hcubic, hsal, hmf,
    add_zero, hip]
  by_cases hlow : q / 2 ^ 30 < -150
  · rw [if_pos hlow, if_pos hlow]
  by_cases hhigh : 128 < q / 2 ^ 30
  · rw [if_neg hlow, if_neg hlow, if_pos hhigh, if_pos hhigh]
  have hnat := ofInt_toNat (z := 2 ^ 30 + z) (by omega) (by omega)
  have hcast : ((BitVec.ofInt 64 (2 ^ 30 + z)).toNat : ℚ) = ((2 ^ 30 + z : ℤ) : ℚ) := by
    exact_mod_cast hnat
  rw [if_neg hlow, if_neg hlow, if_neg hhigh, if_neg hhigh,
    packQ30_eq (by omega) (by omega) (by omega) (by omega), Option.bind_some, hcast]

/-! ## Every lane has a result -/

theorem logefp_defined (h : Cpu.Fast) (vscr b : U32) : ∃ r, logefp h vscr b = some r := by
  obtain ⟨lf, -, hlog⟩ := logEstimate_spec h (flushIn vscr b)
  unfold logefp
  dsimp only
  rw [hlog]
  simp only [← apply_ite some, Option.bind_eq_bind, Option.bind_some, Option.pure_def]
  exact ⟨_, rfl⟩

theorem exptefp_defined (h : Cpu.Fast) (vscr b : U32) : ∃ r, exptefp h vscr b = some r := by
  obtain ⟨q, hq, hqs⟩ := expArgument_defined (up (flushIn vscr b))
  obtain ⟨z, -, hexp⟩ := expEstimate_spec h hq hqs
  unfold exptefp
  dsimp only
  rw [hexp]
  simp only [← apply_ite some, Option.bind_eq_bind, Option.bind_some, Option.pure_def]
  exact ⟨_, rfl⟩

/-- **A handler of defined lanes fills its destination with them.** -/
theorem vecTry_fills {lane : U32 → U32 → Option U32} (hlane : ∀ vscr b, ∃ r, lane vscr b = some r)
    (c : Cpu β) (i : U32) :
    ∃ d f, vecTry lane c i = some d ∧ Fills f c i d
      ∧ ∀ k < 4, lane c.st.vscr (gw (c.st.user.VB i) k) = some (f k) := by
  choose r hr using hlane
  have hmap : (List.range 4).mapM (fun k => lane c.st.vscr (gw (c.st.user.VB i) k))
      = some ((List.range 4).map fun k => r c.st.vscr (gw (c.st.user.VB i) k)) := by
    simp only [hr]
    rfl
  have hfill := vecOp_fills (fun _ _ k =>
    ((List.range 4).map fun k => r c.st.vscr (gw (c.st.user.VB i) k)).getD k 0#32) c i
  refine ⟨_, _, ?_, hfill, fun k hk => ?_⟩
  · unfold vecTry
    rw [hmap]
    rfl
  · have hin : k < ((List.range 4).map fun k => r c.st.vscr (gw (c.st.user.VB i) k)).length := by
      rw [List.length_map, List.length_range]
      exact hk
    rw [hr, List.getD_eq_getElem _ _ hin, List.getElem_map, List.getElem_range]

end Vec

end OpenPowerMac
