/-
How near the log and power estimates are.

The logarithm's cubic stays within three hundredths of `log₂ (1 + t)`, which leaves
room for the exponent, the cuts and the last rounding (`logefp_near`). The power's cubic
is above `2 ^ t` by up to 0.00109 of it, which is more than 3/4096: from `t = 0.4914`
to `t = 0.9337` no rounding brings the estimate back (`exptefp_far`), and outside it
is near enough (`exptefp_near`). At the top the cubic passes 2, and there the estimate
is an infinity (`exptefp_over`).
-/
import OpenPowerMac.AltiVecQ30
import Mathlib.Analysis.Convex.SpecificFunctions.Basic

set_option autoImplicit false

namespace OpenPowerMac

open Rounding Sf CubicBounds

namespace Vec

variable {β : Type}

/-! ## The curves -/

section Log

/-- The logarithm's cubic. -/
noncomputable def logCub (t : ℝ) : ℝ :=
  cub (1549082004 / 2 ^ 30) (-623693658 / 2 ^ 30) (148656453 / 2 ^ 30) t

/-- Its gap to the logarithm. -/
noncomputable def logGap (t : ℝ) : ℝ :=
  gap (1549082004 / 2 ^ 30) (-623693658 / 2 ^ 30) (148656453 / 2 ^ 30) t

theorem logGap_eq (t : ℝ) : logGap t = Real.log 2 * logCub t - Real.log (1 + t) := rfl

/-- The logarithm of 1.53 is at least 11/18. -/
theorem log_153 : 11 * Real.log 2 ≤ 18 * Real.log 1.53 := by
  have h := log_ge (x := 1.53) (p := 11) (q := 18) (by norm_num)
  exact_mod_cast h

/-- The logarithm of 1.54 is at most 5/8. -/
theorem log_154 : 8 * Real.log 1.54 ≤ 5 * Real.log 2 := by
  have h := log_le (x := 1.54) (by norm_num) (p := 5) (q := 8) (by norm_num)
  exact_mod_cast h

/-- Up to 0.53 the cubic gains on the logarithm, but for a hundred-millionth. -/
theorem logGap_rising {t : ℝ} (h0 : 0 ≤ t) (ht : t ≤ 0.53) : |logGap t| ≤ 3 / 100 * Real.log 2 := by
  have hL := Real.log_two_gt_d9
  have hmono : MonotoneOn (gap (1549082004 / 2 ^ 30 + 1 / 10 ^ 8) (-623693658 / 2 ^ 30)
      (148656453 / 2 ^ 30)) (Set.Icc 0 0.53) := by
    apply gap_mono le_rfl
    rintro u ⟨hu, hu'⟩
    have hquad : 0 ≤ (1549082004 / 2 ^ 30 + 1 / 10 ^ 8 - 2 * (623693658 / 2 ^ 30) : ℝ)
        + (-2 * (623693658 / 2 ^ 30) + 3 * (148656453 / 2 ^ 30)) * u
        + 3 * (148656453 / 2 ^ 30) * u ^ 2 := by
      nlinarith [sq_nonneg (0.53 - u)]
    have hlead : 1 ≤ Real.log 2 * (1549082004 / 2 ^ 30 + 1 / 10 ^ 8) := by
      norm_num at hL ⊢
      linarith
    have hprod := mul_nonneg (mul_nonneg (Real.log_pos one_lt_two).le hu) hquad
    unfold rate
    nlinarith [hprod, hlead]
  have hlow := hmono ⟨le_rfl, by norm_num⟩ ⟨h0, ht⟩ h0
  have hhigh := hmono ⟨h0, ht⟩ ⟨by norm_num, le_rfl⟩ ht
  have hmore : gap (1549082004 / 2 ^ 30 + 1 / 10 ^ 8) (-623693658 / 2 ^ 30) (148656453 / 2 ^ 30) t
      = logGap t + Real.log 2 * t / 10 ^ 8 := by
    unfold logGap gap cub
    ring
  have hstart : gap (1549082004 / 2 ^ 30 + 1 / 10 ^ 8) (-623693658 / 2 ^ 30) (148656453 / 2 ^ 30) 0
      = 0 := by
    norm_num [gap, cub]
  have hend : gap (1549082004 / 2 ^ 30 + 1 / 10 ^ 8) (-623693658 / 2 ^ 30) (148656453 / 2 ^ 30) 0.53
      ≤ 2 / 100 * Real.log 2 := by
    have hlog := log_153
    have hone : (1 : ℝ) + 0.53 = 1.53 := by norm_num
    rw [gap, hone]
    norm_num [cub] at hlog ⊢
    linarith
  rw [hmore] at hlow hhigh
  rw [hstart] at hlow
  have hsmall : 0 ≤ Real.log 2 * t := mul_nonneg (Real.log_pos one_lt_two).le h0
  have hle : Real.log 2 * t ≤ Real.log 2 := mul_le_of_le_one_right (Real.log_pos one_lt_two).le
    (ht.trans (by norm_num))
  rw [abs_le]
  constructor <;> linarith

/-- From 0.54 it loses. -/
theorem logGap_falling {t : ℝ} (h0 : 0.54 ≤ t) (ht : t ≤ 1) :
    |logGap t| ≤ 3 / 100 * Real.log 2 := by
  have hL := Real.log_two_gt_d9
  have hL' := Real.log_two_lt_d9
  have hanti : AntitoneOn logGap (Set.Icc 0.54 1) := by
    apply gap_anti (by norm_num)
    rintro u ⟨hu, hu'⟩
    have hquad : (1549082004 / 2 ^ 30 - 2 * (623693658 / 2 ^ 30) : ℝ)
        + (-2 * (623693658 / 2 ^ 30) + 3 * (148656453 / 2 ^ 30)) * u
        + 3 * (148656453 / 2 ^ 30) * u ^ 2 ≤ 0 := by
      nlinarith [mul_nonneg (sub_nonneg.mpr hu) (sub_nonneg.mpr hu')]
    have hlead : Real.log 2 * (1549082004 / 2 ^ 30) ≤ 1 := by
      norm_num at hL' ⊢
      linarith
    have hu0 : 0 ≤ u := le_trans (by norm_num) hu
    have hprod := mul_nonneg (mul_nonneg (Real.log_pos one_lt_two).le hu0) (neg_nonneg.mpr hquad)
    unfold rate
    nlinarith [hprod, hlead]
  have hlow := hanti ⟨h0, ht⟩ ⟨by norm_num, le_rfl⟩ ht
  have hhigh := hanti ⟨le_rfl, by norm_num⟩ ⟨h0, ht⟩ h0
  have hend : 0 ≤ logGap 1 := by
    have htwo : (1 : ℝ) + 1 = 2 := by norm_num
    rw [logGap, gap, htwo]
    norm_num [cub]
    linarith
  have hstart : logGap 0.54 ≤ 3 / 100 * Real.log 2 := by
    have hlog := log_153
    have hle : Real.log 1.53 ≤ Real.log (1 + 0.54) := Real.log_le_log (by norm_num) (by norm_num)
    rw [logGap, gap]
    norm_num [cub] at hlog hle ⊢
    linarith
  rw [abs_le]
  constructor <;> linarith

/-- Between the two neither has the time to move. -/
theorem logGap_middle {t : ℝ} (h0 : 0.53 ≤ t) (ht : t ≤ 0.54) :
    |logGap t| ≤ 3 / 100 * Real.log 2 := by
  have hL := Real.log_two_gt_d9
  have hlow : Real.log 1.53 ≤ Real.log (1 + t) := Real.log_le_log (by norm_num) (by linarith)
  have hhigh : Real.log (1 + t) ≤ Real.log 1.54 := Real.log_le_log (by linarith) (by linarith)
  have h153 := log_153
  have h154 := log_154
  have hsq : 0.53 * t ≤ t ^ 2 ∧ t ^ 2 ≤ 0.54 * t := by
    constructor <;> nlinarith
  have hcube : 0.53 ^ 2 * t ≤ t ^ 3 ∧ t ^ 3 ≤ 0.54 ^ 2 * t := by
    constructor <;> nlinarith
  have hcub : 0.61 ≤ logCub t ∧ logCub t ≤ 0.64 := by
    unfold logCub cub
    norm_num at hsq hcube ⊢
    constructor <;> linarith
  have hprod := mul_le_mul_of_nonneg_left hcub.1 (Real.log_pos one_lt_two).le
  have hprod' := mul_le_mul_of_nonneg_left hcub.2 (Real.log_pos one_lt_two).le
  rw [logGap_eq, abs_le]
  constructor <;> linarith

/-- **The cubic is within three hundredths of the logarithm.** -/
theorem logCub_near {t : ℝ} (h0 : 0 ≤ t) (ht : t ≤ 1) :
    |logCub t - Real.logb 2 (1 + t)| ≤ 3 / 100 := by
  have hL : 0 < Real.log 2 := Real.log_pos one_lt_two
  have hgap : |logGap t| ≤ 3 / 100 * Real.log 2 := by
    rcases le_total t 0.53 with hle | hge
    · exact logGap_rising h0 hle
    · rcases le_total t 0.54 with hle' | hge'
      · exact logGap_middle hge hle'
      · exact logGap_falling hge' ht
  rw [logGap, gap_eq, abs_mul, abs_of_pos hL, mul_comm] at hgap
  exact le_of_mul_le_mul_right hgap hL

end Log

section Exp

/-- The power's cubic over the power. -/
noncomputable def expRatio (t : ℝ) : ℝ :=
  ratio (744822652 / 2 ^ 30) (258141149 / 2 ^ 30) (71624073 / 2 ^ 30) t

theorem exp_hump : Hump (744822652 / 2 ^ 30) (258141149 / 2 ^ 30) (71624073 / 2 ^ 30) := by
  have hL := Real.log_two_lt_d9
  constructor <;> norm_num at hL ⊢ <;> linarith

theorem expRatio_zero : expRatio 0 = 1 := by norm_num [expRatio, ratio, cub]

theorem expRatio_one : 1 ≤ expRatio 1 := by
  apply le_ratio
  rw [Real.rpow_one]
  norm_num [cub]

/-- The cubic is never below the power. -/
theorem one_le_expRatio {t : ℝ} (h0 : 0 ≤ t) (ht : t ≤ 1) : 1 ≤ expRatio t := by
  have h := exp_hump.ratio_ge_min le_rfl h0 ht
  exact (le_min expRatio_zero.ge expRatio_one).trans h

/-- It gains up to 0.491347, which is not enough to leave the bound. -/
theorem expRatio_low {t : ℝ} (h0 : 0 ≤ t) (ht : t ≤ 0.491347) :
    expRatio t ≤ 1 + 3 / 4096 - 47 / 10 ^ 9 := by
  have hL := Real.log_two_gt_d9
  have hL' := Real.log_two_lt_d9
  have hlead : 0 ≤ lead (744822652 / 2 ^ 30) (258141149 / 2 ^ 30) (71624073 / 2 ^ 30) 0.491347 := by
    norm_num [lead, rate, cub] at hL' ⊢
    linarith
  refine (exp_hump.mono (by norm_num) hlead ⟨h0, ht⟩ ⟨by norm_num, le_rfl⟩ ht).trans ?_
  have hpow := le_two_rpow (t := 0.491347) (y := 0.3405757875) (by norm_num)
    (by norm_num at hL ⊢; linarith) 11
  norm_num [Finset.sum_range_succ, Nat.factorial] at hpow
  apply ratio_le
  norm_num [cub] at hpow ⊢
  linarith

/-- From 0.93378 it has lost enough again. -/
theorem expRatio_high {t : ℝ} (h0 : 0.93378 ≤ t) (ht : t ≤ 1) :
    expRatio t ≤ 1 + 3 / 4096 - 39 / 10 ^ 9 := by
  have hL := Real.log_two_gt_d9
  have hL' := Real.log_two_lt_d9
  have hlead : lead (744822652 / 2 ^ 30) (258141149 / 2 ^ 30) (71624073 / 2 ^ 30) 0.93378 ≤ 0 := by
    norm_num [lead, rate, cub] at hL ⊢
    linarith
  refine (exp_hump.anti (by norm_num) hlead ⟨le_rfl, by norm_num⟩ ⟨h0, ht⟩ h0).trans ?_
  have hpow := le_two_rpow (t := 0.93378) (y := 0.647246974) (by norm_num)
    (by norm_num at hL ⊢; linarith) 13
  norm_num [Finset.sum_range_succ, Nat.factorial] at hpow
  apply ratio_le
  norm_num [cub] at hpow ⊢
  linarith

/-- Further off either it keeps clear of it. -/
theorem expRatio_clear {t : ℝ} (h0 : 0 ≤ t) (ht : t ≤ 1) (hout : t ≤ 0.4913 ∨ 0.9338 ≤ t) :
    expRatio t ≤ 1 + 3 / 4096 - 1 / 10 ^ 7 := by
  have hL := Real.log_two_gt_d9
  have hL' := Real.log_two_lt_d9
  rcases hout with hle | hge
  · have hlead : 0 ≤ lead (744822652 / 2 ^ 30) (258141149 / 2 ^ 30) (71624073 / 2 ^ 30) 0.4913 := by
      norm_num [lead, rate, cub] at hL' ⊢
      linarith
    refine (exp_hump.mono (by norm_num) hlead ⟨h0, hle⟩ ⟨by norm_num, le_rfl⟩ hle).trans ?_
    have hpow := le_two_rpow (t := 0.4913) (y := 0.340543209) (by norm_num)
      (by norm_num at hL ⊢; linarith) 11
    norm_num [Finset.sum_range_succ, Nat.factorial] at hpow
    apply ratio_le
    norm_num [cub] at hpow ⊢
    linarith
  · have hlead : lead (744822652 / 2 ^ 30) (258141149 / 2 ^ 30) (71624073 / 2 ^ 30) 0.9338 ≤ 0 := by
      norm_num [lead, rate, cub] at hL ⊢
      linarith
    refine (exp_hump.anti (by norm_num) hlead ⟨le_rfl, by norm_num⟩ ⟨hge, ht⟩ hge).trans ?_
    have hpow := le_two_rpow (t := 0.9338) (y := 0.6472608369) (by norm_num)
      (by norm_num at hL ⊢; linarith) 13
    norm_num [Finset.sum_range_succ, Nat.factorial] at hpow
    apply ratio_le
    norm_num [cub] at hpow ⊢
    linarith

/-- Between 0.49139 and 0.93375 it is outside. -/
theorem expRatio_mid {t : ℝ} (h0 : 0.49139 ≤ t) (ht : t ≤ 0.93375) :
    1 + 3 / 4096 + 47 / 10 ^ 9 ≤ expRatio t := by
  have hL := Real.log_two_lt_d9
  refine le_trans (le_min ?_ ?_) (exp_hump.ratio_ge_min (by norm_num) h0 ht)
  · have hpow := two_rpow_le (t := 0.49139) (y := 0.3406055932) (by norm_num at hL ⊢; linarith)
      (by norm_num) (by norm_num) (n := 11) (by norm_num)
    norm_num [Finset.sum_range_succ, Nat.factorial] at hpow
    apply le_ratio
    norm_num [cub] at hpow ⊢
    linarith
  · have hpow := two_rpow_le (t := 0.93375) (y := 0.6472261801) (by norm_num at hL ⊢; linarith)
      (by norm_num) (by norm_num) (n := 13) (by norm_num)
    norm_num [Finset.sum_range_succ, Nat.factorial] at hpow
    apply le_ratio
    norm_num [cub] at hpow ⊢
    linarith

end Exp

/-! ## The last rounding -/

/-- Rounding a number that is no denormal moves it by at most one part in `2 ^ 24`. -/
theorem abs_sub_round_sgl {x : ℚ} (h : 2 ^ (-126 : ℤ) ≤ |x|) :
    |x - sgl.round .nearest x| ≤ |x| / 2 ^ 24 := by
  refine (Format.abs_sub_round_le (f := sgl) x).trans ?_
  have hquant : (2 : ℚ) ^ sgl.quant x ≤ |x| / 2 ^ 23 := by
    rw [le_div_iff₀ (by norm_num), ← zpow_natCast, ← two_zpow_add]
    rcases (Format.qmin_le_quant (f := sgl) x).eq_or_lt with hmin | hlt
    · rw [← hmin]
      exact h
    · refine (two_zpow_le ?_).trans (Format.le_abs_of_lt_quant hlt)
      change _ + 23 ≤ _ + 24 - 1
      omega
  linarith

/-- It moves it by at most half a last place. -/
theorem abs_sub_round_sgl_place {x : ℚ} {e : ℤ} (he : -126 ≤ e) (hlt : |x| < 2 ^ (e + 1)) :
    |x - sgl.round .nearest x| ≤ 2 ^ e / 2 ^ 24 := by
  have hquant : sgl.quant x ≤ e - 23 := by
    refine Format.quant_le (show (-149 : ℤ) ≤ e - 23 by omega) ?_
    refine hlt.trans_le (two_zpow_le ?_)
    change e + 1 ≤ e - 23 + 24
    omega
  refine (Format.abs_sub_round_le (f := sgl) x).trans ?_
  have hle : (2 : ℚ) ^ sgl.quant x ≤ 2 ^ e / 2 ^ 23 := by
    rw [le_div_iff₀ (by norm_num), ← zpow_natCast, ← two_zpow_add]
    exact two_zpow_le (by omega)
  linarith

/-- A lane that holds a number to one part in `2 ^ 24`, and to half a last place, and is no
denormal. -/
structure Held24 (r : U32) (v : ℚ) : Prop where
  finite : FiniteS r
  near : |valS r - v| ≤ |v| / 2 ^ 24
  place : ∀ e : ℤ, -126 ≤ e → |v| < 2 ^ (e + 1) → |valS r - v| ≤ 2 ^ e / 2 ^ 24
  normal : 2 ^ (-126 : ℤ) ≤ absS r

/-- **A number in the single range, rounded into a lane.** -/
theorem dn_rsp_held (h : Cpu.Fast) (neg : Bool) {v : ℚ} (hv : MagD v) (hlow : 2 ^ (-126 : ℤ) ≤ v)
    (hhigh : sgl.round .nearest v < 2 ^ (128 : ℤ)) :
    Held24 (dn (rsp h.host h.off (encD neg v) vecEnv).bits) (signed neg v) := by
  have hpos := (two_zpow_pos (K := ℚ) (-126)).trans_le hlow
  have habs : |signed neg v| = v := abs_signed neg hv.nonneg
  have hval : valD (encD neg v) = signed neg v := by
    rw [valD_eq, negD_encD neg hv, absD_encD neg hv]
  have hmag : MagS (sgl.round .nearest |signed neg v|) := magS_round (by rw [habs]; exact hhigh)
  have hne : signed neg v ≠ 0 := by
    rw [← abs_pos, habs]
    exact hpos
  rw [dn_rsp h.host h.off false (finiteD_encD neg hv) (by rw [hval, habs]; exact hlow)
    (by rw [hval, habs]; exact hhigh), hval, ieeeS_eq _ hne (by rw [habs]; exact hhigh)]
  have hmoved : |valS (encS (decide (signed neg v < 0)) (sgl.round .nearest |signed neg v|))
      - signed neg v| = |v - sgl.round .nearest v| := by
    -- the sign goes with the magnitude
    have hround : valS (encS (decide (signed neg v < 0)) (sgl.round .nearest |signed neg v|))
        = signed neg (sgl.round .nearest v) := by
      have hsign : decide (signed neg v < 0) = neg := by
        cases neg
        case false => exact decide_eq_false (not_lt.mpr hpos.le)
        case true => exact decide_eq_true (neg_neg_of_pos hpos)
      unfold valS
      rw [negS_encS _ hmag, absS_encS _ hmag, hsign, habs]
      rfl
    rw [hround, abs_sub_comm]
    cases neg
    case false => rfl
    case true =>
      change |-v - -_| = _
      rw [neg_sub_neg, abs_sub_comm]
  refine ⟨finiteS_encS _ hmag, ?_, fun e he hlt => ?_, ?_⟩
  · have hnear := abs_sub_round_sgl (x := v) (by rw [abs_of_pos hpos]; exact hlow)
    rw [hmoved, habs]
    rwa [abs_of_pos hpos] at hnear
  · rw [hmoved]
    rw [habs] at hlt
    exact abs_sub_round_sgl_place he (by rw [abs_of_pos hpos]; exact hlt)
  · rw [absS_encS _ hmag, habs]
    exact Format.le_round_of_le (Format.rep_two_zpow (by decide)) hlow

/-- What is below `2 ^ 128` by half a place is rounded to a single. -/
theorem round_lt {v : ℚ} (h : v ≤ (2 ^ 24 - 1) * 2 ^ (104 : ℤ)) :
    sgl.round .nearest v < 2 ^ (128 : ℤ) := by
  have hrep : Format.Rep sgl (((2 ^ 24 - 1 : ℕ) : ℚ) * 2 ^ (104 : ℤ)) :=
    Format.rep_natMul (by decide) (by decide)
  have hcast : (((2 ^ 24 - 1 : ℕ) : ℚ)) = 2 ^ 24 - 1 := by norm_num
  rw [hcast] at hrep
  refine (Format.round_le_of_le hrep h).trans_lt ?_
  norm_num

/-! ## The logarithm -/

theorem valS_zero : valS 0#32 = 0 := by
  have habs : absS 0#32 = 0 := (Format.magValue_eq_zero_iff (f := sgl) (K := ℚ) _).mpr rfl
  unfold valS
  rw [habs, neg_zero, ite_self]

/-- The single of a number in 30 binary places is near it. -/
theorem fromQ30_near (h : Cpu.Fast) {q : ℤ} (hq : |q| < 2 ^ 53) :
    FiniteS (fromQ30 h q) ∧ |valS (fromQ30 h q) - q / 2 ^ 30| ≤ |(q : ℚ)| / 2 ^ 54 := by
  unfold fromQ30
  by_cases h0 : q = 0
  · rw [if_pos h0, h0]
    refine ⟨by decide, ?_⟩
    rw [valS_zero]
    norm_num
  · obtain ⟨n, hn⟩ : ∃ n : ℕ, (n : ℤ) = |q| := ⟨|q|.toNat, Int.toNat_of_nonneg (abs_nonneg q)⟩
    have hpos : 0 < |q| := abs_pos.mpr h0
    have hv := magD_fixed (n := n) (s := 30) (by omega) (by norm_num)
    have hone : (1 : ℚ) ≤ n := by exact_mod_cast (show 1 ≤ n by omega)
    have htop : (n : ℚ) ≤ 2 ^ 53 := by exact_mod_cast (show n ≤ 2 ^ 53 by omega)
    have hlow : (2 : ℚ) ^ (-126 : ℤ) ≤ n / 2 ^ 30 := by
      rw [le_div_iff₀ (by norm_num)]
      refine le_trans ?_ hone
      norm_num
    have hhigh : (n : ℚ) / 2 ^ 30 ≤ (2 ^ 24 - 1) * 2 ^ (104 : ℤ) := by
      rw [div_le_iff₀ (by norm_num)]
      refine htop.trans ?_
      norm_num
    have hheld := dn_rsp_held h (decide (q < 0)) hv hlow (round_lt hhigh)
    have hcast : ((|q| : ℤ) : ℚ) / 2 ^ 30 = (n : ℚ) / 2 ^ 30 := by
      rw [← hn, Int.cast_natCast]
    have hsigned : signed (decide (q < 0)) ((n : ℚ) / 2 ^ 30) = q / 2 ^ 30 := by
      have hnq : (n : ℚ) = |(q : ℚ)| := by exact_mod_cast hn
      rw [hnq]
      by_cases hneg : q < 0
      · have hneg' : (q : ℚ) < 0 := by exact_mod_cast hneg
        rw [decide_eq_true hneg, abs_of_neg hneg', neg_div]
        exact neg_neg _
      · have hnn : (0 : ℚ) ≤ q := by exact_mod_cast not_lt.mp hneg
        rw [decide_eq_false hneg, abs_of_nonneg hnn]
        rfl
    rw [hsigned] at hheld
    rw [if_neg h0, hcast]
    refine ⟨hheld.finite, hheld.near.trans_eq ?_⟩
    rw [abs_div, abs_of_pos (by norm_num : (0 : ℚ) < 2 ^ 30)]
    ring

theorem flushIn_of_nj {vscr : U32} (hnj : vscr &&& vNJ = 0#32) (w : U32) : flushIn vscr w = w := by
  unfold flushIn
  rw [hnj]
  rfl

/-- A finite lane is no NaN and no infinity. -/
theorem sglNan_of_finite {w : U32} (h : FiniteS w) : sglNan w = false := by
  rw [Bool.eq_false_iff, ne_eq, sglNan_iff, not_lt]
  exact ((finite_iff w).mp h).le

/-- A positive finite lane goes to the estimate. -/
theorem logefp_eq (h : Cpu.Fast) {vscr w : U32} (hnj : vscr &&& vNJ = 0#32) (hfin : FiniteS w)
    (hpos : 0 < valS w) : logefp h vscr w = logEstimate h w := by
  have hsign : negS w = false := by
    by_contra hneg
    rw [Bool.not_eq_false] at hneg
    have hnn : 0 ≤ absS w := Format.magValue_nonneg _
    unfold valS at hpos
    rw [hneg, if_pos rfl] at hpos
    linarith
  have htop : w.toNat < 2 ^ 31 := by
    unfold negS at hsign
    rw [BitVec.msb_eq_decide, decide_eq_false_iff_not] at hsign
    omega
  have hzero : w <<< 1 ≠ 0#32 := by
    intro h0
    have hnat := congrArg BitVec.toNat h0
    rw [BitVec.toNat_shiftLeft, Nat.shiftLeft_eq] at hnat
    change w.toNat * 2 ^ 1 % 2 ^ 32 = 0 at hnat
    have hw : w = 0#32 := BitVec.eq_of_toNat_eq (by change w.toNat = 0; omega)
    rw [hw, valS_zero] at hpos
    exact lt_irrefl _ hpos
  have hshift : ¬ w >>> 31 ≠ 0#32 := by
    rw [not_not]
    apply BitVec.eq_of_toNat_eq
    rw [BitVec.toNat_ushiftRight, Nat.shiftRight_eq_div_pow]
    exact Nat.div_eq_of_lt htop
  have hinf : w ≠ 0x7F800000#32 := by
    rintro rfl
    exact absurd hfin (by decide)
  have hout : ∀ r, flushOut vscr r = r := flushIn_of_nj hnj
  unfold logefp
  simp only [flushIn_of_nj hnj, sglNan_of_finite hfin, Bool.false_eq_true, if_false, if_neg hzero,
    if_neg hshift, if_neg hinf, Option.bind_eq_bind, Option.pure_def, hout, Option.bind_fun_some]

/-- Two logarithms of close numbers. -/
theorem logb_close {u v : ℝ} (hu : 0 ≤ u) (huv : u ≤ v) (hvu : v ≤ u + 1 / 2 ^ 30) :
    |Real.logb 2 (1 + u) - Real.logb 2 (1 + v)| ≤ 1 / 2 ^ 29 := by
  have hL : 1 / 2 < Real.log 2 := by linarith [Real.log_two_gt_d9]
  have hpos : 0 < 1 + u := by linarith
  have hquot : Real.log (1 + v) - Real.log (1 + u) ≤ v - u := by
    rw [← Real.log_div (by linarith) hpos.ne']
    refine (Real.log_le_sub_one_of_pos (div_pos (by linarith) hpos)).trans ?_
    rw [div_sub_one hpos.ne', div_le_iff₀ hpos]
    nlinarith [sub_nonneg.mpr huv]
  have hmono : Real.log (1 + u) ≤ Real.log (1 + v) := Real.log_le_log hpos (by linarith)
  unfold Real.logb
  rw [← sub_div, abs_div, abs_of_pos (by linarith : 0 < Real.log 2), div_le_iff₀ (by linarith),
    abs_of_nonpos (by linarith)]
  norm_num at hvu ⊢
  linarith

/-- A distance of rationals, over the reals. -/
theorem abs_sub_cast {x y r : ℚ} (h : |x - y| ≤ r) : |(x : ℝ) - (y : ℝ)| ≤ (r : ℝ) := by
  exact_mod_cast h

theorem valS_of_pos {w : U32} (hpos : 0 < valS w) : valS w = absS w := by
  unfold valS at hpos ⊢
  split
  next hneg =>
    rw [if_pos hneg] at hpos
    have hnn : 0 ≤ absS w := Format.magValue_nonneg _
    linarith
  next => rfl

/-- A positive lane by its exponent and its fraction `f`, of which `fraction30` keeps 30 places. -/
theorem exists_fraction {w : U32} (hfin : FiniteS w) (hpos : 0 < valS w) :
    ∃ f : ℝ, 1 ≤ bexp (up w) ∧ bexp (up w) < 2047
      ∧ (fraction30 (up w) : ℝ) / 2 ^ 30 ≤ f
      ∧ f ≤ (fraction30 (up w) : ℝ) / 2 ^ 30 + 1 / 2 ^ 30
      ∧ (valS w : ℝ) = 2 ^ ((bexp (up w) : ℤ) - 1023) * (1 + f) := by
  obtain ⟨D, B, hopen⟩ := exists_opened hfin
  have hval := valS_of_pos hpos
  obtain ⟨hD, hD', hB, hB'⟩ : 2 ^ 52 ≤ D ∧ D < 2 ^ 53 ∧ 1 ≤ B ∧ B < 2047 := by
    rcases hopen.range with ⟨hD, -⟩ | hrange
    · rw [hval, hopen.value, hD, Nat.cast_zero, zero_mul] at hpos
      exact absurd hpos (lt_irrefl _)
    · exact hrange
  have hbexp : bexp (up w) ≠ 0 := by
    rw [hopen.bexp]
    omega
  have hdig := digits_toNat (up w)
  rw [if_pos hbexp, hopen.digits] at hdig
  obtain ⟨g, hg⟩ : ∃ g, D = g + 2 ^ 52 := ⟨D - 2 ^ 52, by omega⟩
  have hcut : fraction30 (up w) * 2 ^ 22 ≤ g ∧ (g : ℤ) ≤ fraction30 (up w) * 2 ^ 22 + 2 ^ 22 := by
    unfold fraction30
    omega
  have hcut' : (fraction30 (up w) : ℝ) * 2 ^ 22 ≤ g
      ∧ (g : ℝ) ≤ (fraction30 (up w) : ℝ) * 2 ^ 22 + 2 ^ 22 := by
    exact_mod_cast hcut
  rw [hopen.bexp]
  refine ⟨(g : ℝ) / 2 ^ 52, hB, hB', ?_, ?_, ?_⟩
  · norm_num at hcut' ⊢
    linarith [hcut'.1]
  · norm_num at hcut' ⊢
    linarith [hcut'.2]
  · have hDr : (D : ℝ) = g + 2 ^ 52 := by exact_mod_cast hg
    have hexp : (2 : ℝ) ^ ((B : ℤ) - 1023) = 2 ^ ((B : ℤ) - 1075) * 2 ^ (52 : ℤ) := by
      rw [← two_zpow_add]
      congr 1
      ring
    rw [hval, hopen.value, hexp]
    push_cast
    rw [hDr]
    norm_num
    ring

/-- The 24 digits that are delivered of a number in 30 places, as long as it is within 2048. -/
theorem fromQ30_near_abs (h : Cpu.Fast) {q : ℤ} (hq : |q| ≤ 2 ^ 41) :
    |(valS (fromQ30 h q) : ℝ) - q / 2 ^ 30| ≤ 1 / 2 ^ 12 := by
  obtain ⟨-, hround⟩ := fromQ30_near h (q := q) (lt_of_le_of_lt hq (by norm_num))
  have hqle : |(q : ℚ)| ≤ 2 ^ 41 := by exact_mod_cast hq
  have hle : |valS (fromQ30 h q) - q / 2 ^ 30| ≤ 1 / 2 ^ 12 := by
    refine hround.trans ?_
    rw [div_le_iff₀ (by norm_num)]
    refine hqle.trans ?_
    norm_num
  have hcast := abs_sub_cast hle
  push_cast at hcast
  exact hcast

/-- **The logarithm's estimate is within 1/32.** -/
theorem logefp_near (h : Cpu.Fast) {vscr w : U32} (hnj : vscr &&& vNJ = 0#32) (hfin : FiniteS w)
    (hpos : 0 < valS w) :
    ∃ r, logefp h vscr w = some r ∧ FiniteS r
      ∧ |(valS r : ℝ) - Real.logb 2 (valS w : ℝ)| ≤ 1 / 32 := by
  obtain ⟨f, hB, hB', hTf, hfT, hvalue⟩ := exists_fraction hfin hpos
  obtain ⟨lf, hlf, hlog⟩ := logEstimate_spec h w
  obtain ⟨q, hq⟩ : ∃ q, ((bexp (up w) : ℤ) - 1023) * 2 ^ 30 + lf = q := ⟨_, rfl⟩
  rw [hq] at hlog
  have hsmall := abs_le.mp hlf.small
  have hqle : |q| ≤ 2 ^ 41 := abs_le.mpr ⟨by omega, by omega⟩
  obtain ⟨hfinr, -⟩ := fromQ30_near h (q := q) (lt_of_le_of_lt hqle (by norm_num))
  refine ⟨_, (logefp_eq h hnj hfin hpos).trans hlog, hfinr, ?_⟩
  obtain ⟨T, hT⟩ : ∃ T : ℝ, T = (fraction30 (up w) : ℝ) / 2 ^ 30 := ⟨_, rfl⟩
  rw [← hT] at hTf hfT
  obtain ⟨hfr0, hfr⟩ := fraction30_range (up w)
  have hT0 : 0 ≤ T := by
    rw [hT]
    exact div_nonneg (by exact_mod_cast hfr0) (by norm_num)
  have hT1 : T ≤ 1 := by
    rw [hT, div_le_one (by norm_num)]
    exact_mod_cast hfr.le
  have hlogw : Real.logb 2 (valS w : ℝ) = ((bexp (up w) : ℤ) - 1023 : ℤ) + Real.logb 2 (1 + f) := by
    have hne : (1 : ℝ) + f ≠ 0 := by linarith
    have hpow : Real.logb 2 (2 ^ ((bexp (up w) : ℤ) - 1023)) = ((bexp (up w) : ℤ) - 1023 : ℤ) := by
      rw [← Real.rpow_intCast, Real.logb_rpow two_pos (by norm_num)]
    rw [hvalue, Real.logb_mul (two_zpow_pos _).ne' hne, hpow]
  -- the cuts, the curve, the fraction's end and the last rounding
  have hnear := hlf.near
  have hcurve := logCub_near hT0 hT1
  have hend := logb_close hT0 hTf hfT
  have hlast := fromQ30_near_abs h hqle
  have hqr : (q : ℝ) / 2 ^ 30 = ((bexp (up w) : ℤ) - 1023 : ℤ) + (lf : ℝ) / 2 ^ 30 := by
    rw [← hq]
    push_cast
    ring
  rw [← hT] at hnear
  push_cast at hnear
  change |(lf : ℝ) / 2 ^ 30 - logCub T| ≤ _ at hnear
  rw [hlogw]
  rw [hqr] at hlast
  rw [abs_le] at hnear hcurve hend hlast ⊢
  norm_num at hnear hcurve hend hlast ⊢
  constructor <;> linarith [hnear.1, hnear.2, hcurve.1, hcurve.2, hend.1, hend.2, hlast.1, hlast.2]

/-! ## The power's argument -/

/-- A single is a multiple of its last place. -/
theorem grid_valS {w : U32} {k : ℤ} (hfin : FiniteS w) (h : 2 ^ k ≤ |valS w|) :
    Grid (k - 23) (valS w) := by
  have hmag := magS_absS hfin
  have habs : |valS w| = absS w := by
    unfold valS
    split
    · rw [abs_neg, abs_of_nonneg hmag.nonneg]
    · exact abs_of_nonneg hmag.nonneg
  have hlt := h.trans_lt (Format.abs_lt_of_quant (f := sgl) (valS w))
  have hquant : k - 23 ≤ sgl.quant (absS w) := by
    by_contra hgt
    rw [← habs, Format.quant_abs] at hgt
    have hle : (2 : ℚ) ^ (sgl.quant (valS w) + sgl.prec) ≤ 2 ^ k := by
      apply two_zpow_le
      change _ + 24 ≤ _
      omega
    linarith
  have hgrid := Grid.mono hquant hmag.rep
  rw [← habs] at hgrid
  exact Grid.of_abs hgrid

/-- What the handler takes from a lane: its value in 30 places, cut toward zero. -/
structure Taken (x : ℚ) (q : ℤ) : Prop where
  up : 0 ≤ x → 0 ≤ q ∧ (q : ℚ) ≤ x * 2 ^ 30
  down : x < 0 → x * 2 ^ 30 ≤ q ∧ q ≤ 0
  near : |(q : ℚ) - x * 2 ^ 30| ≤ 1
  whole : 2 ^ (-7 : ℤ) ≤ |x| → (q : ℚ) = x * 2 ^ 30

theorem taken_truncated {w : U32} (hfin : FiniteS w) : Taken (valS w) (truncated w 30) := by
  have hhalf : (0 : ℚ) < 2 ^ 30 := by norm_num
  refine ⟨fun hx => ?_, fun hx => ?_, ?_, fun hx => ?_⟩
  · have hnn : 0 ≤ valS w * 2 ^ 30 := mul_nonneg hx hhalf.le
    unfold truncated
    rw [Mode.toInt, if_pos hnn]
    exact ⟨Int.floor_nonneg.mpr hnn, Int.floor_le _⟩
  · have hneg : valS w * 2 ^ 30 < 0 := mul_neg_of_neg_of_pos hx hhalf
    unfold truncated
    rw [Mode.toInt, if_neg (not_le.mpr hneg)]
    exact ⟨Int.le_ceil _, Int.ceil_le.mpr (by exact_mod_cast hneg.le)⟩
  · rw [abs_sub_comm]
    exact (toInt_abs_lt .zero _).le
  · obtain ⟨n, hn⟩ := grid_valS hfin hx
    have hprod : valS w * 2 ^ 30 = (n : ℚ) := by
      rw [hn, mul_assoc, ← zpow_natCast (2 : ℚ) 30, ← two_zpow_add]
      norm_num
    unfold truncated
    rw [hprod, Mode.toInt_intCast]

/-- A denormal is next to nothing. -/
theorem taken_zero {x : ℚ} (hx : |x| < 2 ^ (-126 : ℤ)) : Taken x 0 := by
  have hsmall : (2 : ℚ) ^ (-126 : ℤ) < 1 / 2 ^ 30 := by norm_num
  have hbound := abs_lt.mp (hx.trans hsmall)
  refine ⟨fun h => ⟨le_rfl, ?_⟩, fun h => ⟨?_, le_rfl⟩, ?_, fun h => ?_⟩
  · push_cast
    positivity
  · push_cast
    linarith
  · rw [abs_le]
    push_cast
    constructor <;> linarith [hbound.1, hbound.2]
  · have hle : (2 : ℚ) ^ (-126 : ℤ) ≤ 2 ^ (-7 : ℤ) := two_zpow_le (by norm_num)
    linarith

theorem abs_valS (w : U32) : |valS w| = absS w := by
  have hnn : 0 ≤ absS w := Format.magValue_nonneg _
  unfold valS
  split
  · rw [abs_neg, abs_of_nonneg hnn]
  · exact abs_of_nonneg hnn

/-- **A finite lane's argument is its value, cut**, with either NJ. -/
theorem expArgument_taken (vscr : U32) {w : U32} (hfin : FiniteS w) (hx : |valS w| ≤ 2 ^ (7 : ℤ)) :
    ∃ q, expArgument (up (flushIn vscr w)) = some q ∧ Taken (valS w) q := by
  -- a lane that is not flushed
  have hself : ∀ v : U32, FiniteS v → |valS v| ≤ 2 ^ (7 : ℤ) →
      expArgument (up v) = some (truncated v 30) := by
    intro v hv hvx
    obtain ⟨D, B, hopen⟩ := exists_opened hv
    refine expArgument_eq hopen ?_
    rcases hopen.range with ⟨-, hB⟩ | ⟨hD, -, -, -⟩
    · omega
    · by_contra hgt
      have hDq : (2 : ℚ) ^ (52 : ℤ) ≤ D := by exact_mod_cast hD
      have hbig := mul_le_mul_of_nonneg_right hDq (two_zpow_pos (K := ℚ) ((B : ℤ) - 1075)).le
      rw [← two_zpow_add, ← hopen.value, ← abs_valS] at hbig
      have hpow : (2 : ℚ) ^ (8 : ℤ) ≤ 2 ^ (52 + ((B : ℤ) - 1075)) := two_zpow_le (by omega)
      have hlt : (2 : ℚ) ^ (7 : ℤ) < 2 ^ (8 : ℤ) := two_zpow_lt (by norm_num)
      linarith
  rcases flushIn_cases vscr w with hsame | ⟨hzero, -⟩
  · rw [hsame]
    exact ⟨_, hself w hfin hx, taken_truncated hfin⟩
  · by_cases hnormal : 2 ^ (-126 : ℤ) ≤ absS w
    · rw [flushIn_of_normal vscr (Or.inr hnormal)]
      exact ⟨_, hself w hfin hx, taken_truncated hfin⟩
    · have hkey := key_sign w
      have hfin' : FiniteS (w &&& 0x80000000#32) := by
        rw [finite_iff, hkey]
        decide
      have hval : valS (w &&& 0x80000000#32) = 0 := by
        have hkey0 : key 0#32 = 0 := rfl
        rw [valS_eq, hkey, ← hkey0, ← valS_eq, valS_zero]
      refine ⟨0, ?_, taken_zero (by rw [abs_valS]; exact not_le.mp hnormal)⟩
      rw [hzero, hself _ hfin' (by rw [hval, abs_zero]; exact (two_zpow_pos _).le)]
      unfold truncated
      rw [hval, zero_mul]
      exact congrArg some (Mode.toInt_intCast .zero 0)

/-- A finite lane goes to the estimate. -/
theorem exptefp_eq (h : Cpu.Fast) {vscr w : U32} (hfin : FiniteS w) :
    exptefp h vscr w = (expEstimate h (flushIn vscr w)).map (flushOut vscr) := by
  have hnan : sglNan (flushIn vscr w) = false := flushIn_nan (sglNan_of_finite hfin)
  have hfin' : FiniteS (flushIn vscr w) := by
    rcases flushIn_cases vscr w with hsame | ⟨hzero, -⟩
    · rw [hsame]
      exact hfin
    · rw [hzero, finite_iff, key_sign]
      decide
  have hinf : ∀ v, ¬ FiniteS v → flushIn vscr w ≠ v := by
    rintro v hv rfl
    exact hv hfin'
  unfold exptefp
  dsimp only
  rw [hnan, if_neg Bool.false_ne_true, if_neg (hinf _ (by decide)), if_neg (hinf _ (by decide))]
  cases expEstimate h (flushIn vscr w) <;> rfl

/-! ## The power -/

section Power

variable {x : ℚ} {q z : ℤ}

/-- The magnitude that `h_vexptefp` packs. -/
def powered (q z : ℤ) : ℚ := ((2 ^ 30 + z : ℤ) : ℚ) * 2 ^ (q / 2 ^ 30 - 30)

theorem Taken.exponent (h : Taken x q) (hlow : -126 ≤ x) (hhigh : x < 128) :
    -126 ≤ q / 2 ^ 30 ∧ q / 2 ^ 30 ≤ 127 := by
  have hlow' : -126 * 2 ^ 30 ≤ q := by
    rcases le_or_gt 0 x with hx | hx
    · linarith [(h.up hx).1]
    · have hle : ((-126 * 2 ^ 30 : ℤ) : ℚ) ≤ q := by
        push_cast
        linarith [(h.down hx).1]
      exact_mod_cast hle
  have hhigh' : q < 128 * 2 ^ 30 := by
    rcases le_or_gt 0 x with hx | hx
    · have hlt : (q : ℚ) < ((128 * 2 ^ 30 : ℤ) : ℚ) := by
        push_cast
        linarith [(h.up hx).2]
      exact_mod_cast hlt
    · linarith [(h.down hx).2]
  omega

/-- The fraction left in the argument. -/
def fractionOf (q : ℤ) : ℚ := ((q % 2 ^ 30 : ℤ) : ℚ) / 2 ^ 30

theorem fractionOf_range (q : ℤ) : 0 ≤ fractionOf q ∧ fractionOf q < 1 := by
  have h0 : (0 : ℚ) ≤ ((q % 2 ^ 30 : ℤ) : ℚ) := by exact_mod_cast Int.emod_nonneg q (by norm_num)
  have h1 : ((q % 2 ^ 30 : ℤ) : ℚ) < 2 ^ 30 := by exact_mod_cast Int.emod_lt_of_pos q (by norm_num)
  unfold fractionOf
  exact ⟨by positivity, (div_lt_one (by norm_num)).mpr h1⟩

/-- The argument is its exponent and its fraction. -/
theorem argument_split (q : ℤ) : (q : ℚ) / 2 ^ 30 = (q / 2 ^ 30 : ℤ) + fractionOf q := by
  have hint : q = 2 ^ 30 * (q / 2 ^ 30) + q % 2 ^ 30 := by omega
  have hcast : (q : ℚ) = 2 ^ 30 * ((q / 2 ^ 30 : ℤ) : ℚ) + ((q % 2 ^ 30 : ℤ) : ℚ) := by
    exact_mod_cast congrArg (Int.cast : ℤ → ℚ) hint
  unfold fractionOf
  linarith

/-- From `2^-7` on the fraction is that of the number. -/
theorem Taken.fract_eq (h : Taken x q) (hx : 2 ^ (-7 : ℤ) ≤ |x|) : Int.fract x = fractionOf q := by
  have hval : x = (q / 2 ^ 30 : ℤ) + fractionOf q := by
    rw [← argument_split, h.whole hx]
    norm_num
  obtain ⟨h0, h1⟩ := fractionOf_range q
  rw [hval, Int.fract_intCast_add, Int.fract_eq_self.mpr ⟨h0, h1⟩]

/-- Below it both are near a whole number. -/
theorem Taken.fract_edge (h : Taken x q) (hx : |x| < 2 ^ (-7 : ℤ)) :
    (fractionOf q ≤ 1 / 2 ^ 7 ∨ 1 - 1 / 2 ^ 7 ≤ fractionOf q)
      ∧ (Int.fract x ≤ 1 / 2 ^ 7 ∨ 1 - 1 / 2 ^ 7 ≤ Int.fract x) := by
  have hbound := abs_lt.mp hx
  norm_num at hbound
  obtain ⟨hb, hb'⟩ := hbound
  -- a small positive argument has its fraction at 0, a small negative one at 1
  rcases le_or_gt 0 x with hnn | hneg
  · obtain ⟨h0, hq⟩ := h.up hnn
    have hqlt : q < 2 ^ 23 := by
      have hlt : (q : ℚ) < ((2 ^ 23 : ℤ) : ℚ) := by
        push_cast
        linarith
      exact_mod_cast hlt
    have hmod : q % 2 ^ 30 = q := Int.emod_eq_of_lt h0 (by omega)
    refine ⟨Or.inl ?_, Or.inl ?_⟩
    · unfold fractionOf
      rw [hmod, div_le_iff₀ (by norm_num)]
      norm_num
      linarith
    · rw [Int.fract_eq_self.mpr ⟨hnn, by linarith⟩]
      linarith
  · obtain ⟨hq, h0⟩ := h.down hneg
    refine ⟨?_, Or.inr ?_⟩
    · rcases h0.eq_or_lt with hzero | hlt
      · left
        rw [hzero]
        norm_num [fractionOf]
      · right
        have hge : -2 ^ 23 ≤ q := by
          have hle : ((-2 ^ 23 : ℤ) : ℚ) ≤ q := by
            push_cast
            linarith
          exact_mod_cast hle
        have hmod : q % 2 ^ 30 = q + 2 ^ 30 := by omega
        unfold fractionOf
        rw [hmod, le_div_iff₀ (by norm_num)]
        push_cast
        linarith
    · have hfloor : ⌊x⌋ = -1 := by
        rw [Int.floor_eq_iff]
        constructor <;> push_cast <;> linarith
      rw [Int.fract, hfloor]
      push_cast
      linarith

/-- The power's cubic. -/
noncomputable def expCub (t : ℝ) : ℝ :=
  cub (744822652 / 2 ^ 30) (258141149 / 2 ^ 30) (71624073 / 2 ^ 30) t

theorem expCub_mono {s t : ℝ} (h0 : 0 ≤ s) (hst : s ≤ t) : expCub s ≤ expCub t := by
  unfold expCub cub
  gcongr

theorem Cubed.expCub_near (h : Cubed 744822652 258141149 71624073 (q % 2 ^ 30) z) :
    |(z : ℝ) / 2 ^ 30 - expCub (fractionOf q : ℝ)| ≤ 1 / 2 ^ 29 := by
  have hnear := h.near
  have hfrac : ((fractionOf q : ℚ) : ℝ) = ((q % 2 ^ 30 : ℤ) : ℝ) / 2 ^ 30 := by
    unfold fractionOf
    push_cast
    rfl
  rw [← hfrac] at hnear
  push_cast at hnear
  exact hnear

/-- The magnitude, over the reals. -/
theorem powered_real (q z : ℤ) : (powered q z : ℝ) = (1 + (z : ℝ) / 2 ^ 30) * 2 ^ (q / 2 ^ 30) := by
  unfold powered
  push_cast
  rw [zpow_sub₀ two_ne_zero]
  norm_num
  ring

/-- It is the power of the argument, times the quotient, but for the cuts. -/
theorem powered_eq (q z : ℤ) : (powered q z : ℝ)
    = 2 ^ ((q : ℝ) / 2 ^ 30) * ((1 + (z : ℝ) / 2 ^ 30) / 2 ^ (fractionOf q : ℝ)) := by
  have hsplit : (q : ℝ) / 2 ^ 30 = (q / 2 ^ 30 : ℤ) + (fractionOf q : ℝ) := by
    have h := congrArg (Rat.cast : ℚ → ℝ) (argument_split q)
    push_cast at h
    exact_mod_cast h
  have hpos := Real.rpow_pos_of_pos (by norm_num : (0 : ℝ) < 2) (fractionOf q : ℝ)
  rw [powered_real, hsplit, Real.rpow_add two_pos, Real.rpow_intCast]
  field_simp

theorem powered_near (h : Cubed 744822652 258141149 71624073 (q % 2 ^ 30) z) :
    |(1 + (z : ℝ) / 2 ^ 30) / 2 ^ (fractionOf q : ℝ) - expRatio (fractionOf q)| ≤ 1 / 2 ^ 29 := by
  have hone : (1 : ℝ) ≤ 2 ^ (fractionOf q : ℝ) :=
    Real.one_le_rpow one_le_two (by exact_mod_cast (fractionOf_range q).1)
  have hnear := h.expCub_near
  have hdiff : (1 + (z : ℝ) / 2 ^ 30) / 2 ^ (fractionOf q : ℝ) - expRatio (fractionOf q)
      = ((z : ℝ) / 2 ^ 30 - expCub (fractionOf q : ℝ)) / 2 ^ (fractionOf q : ℝ) := by
    rw [expRatio, ratio_eq, expCub]
    ring
  rw [hdiff, abs_div, abs_of_pos (by linarith : (0 : ℝ) < 2 ^ (fractionOf q : ℝ))]
  exact (div_le_self (abs_nonneg _) hone).trans hnear

/-- Powers of close numbers. -/
theorem two_rpow_close {u v : ℝ} (h : |u - v| ≤ 1 / 2 ^ 30) :
    |(2 : ℝ) ^ u - 2 ^ v| ≤ 1 / 2 ^ 30 * 2 ^ v := by
  -- one step either way is by a factor of at most `1 + 2 ^ -30`
  have hstep : (2 : ℝ) ^ (1 / 2 ^ 30 : ℝ) ≤ 1 + 1 / 2 ^ 30 := by
    have hb := rpow_one_add_le_one_add_mul_self (s := 1) (p := 1 / 2 ^ 30) (by norm_num)
      (by positivity) (by norm_num)
    norm_num at hb ⊢
    exact hb
  have hmove : ∀ a b : ℝ, a ≤ b + 1 / 2 ^ 30 → (2 : ℝ) ^ a ≤ (1 + 1 / 2 ^ 30) * 2 ^ b := by
    intro a b hab
    refine (Real.rpow_le_rpow_of_exponent_le one_le_two hab).trans ?_
    rw [Real.rpow_add two_pos, mul_comm]
    exact mul_le_mul_of_nonneg_right hstep (Real.rpow_pos_of_pos two_pos b).le
  obtain ⟨hlow, hhigh⟩ := abs_le.mp h
  have hup := hmove u v (by linarith)
  have hdown := hmove v u (by linarith)
  have hv := Real.rpow_pos_of_pos (by norm_num : (0 : ℝ) < 2) v
  rw [abs_le]
  constructor <;> nlinarith

/-- Short of the top the magnitude is a single's. -/
theorem powered_le (h : Cubed 744822652 258141149 71624073 (q % 2 ^ 30) z) (hip : q / 2 ^ 30 ≤ 127)
    (hfrac : q / 2 ^ 30 ≤ 126 ∨ fractionOf q ≤ 130996 / 131072) :
    powered q z ≤ (2 ^ 24 - 1) * 2 ^ (104 : ℤ) := by
  have hnear := (abs_le.mp h.expCub_near).2
  obtain ⟨h0, h1⟩ := fractionOf_range q
  have hreal : (powered q z : ℝ) ≤ (2 ^ 24 - 1) * 2 ^ (104 : ℤ) := by
    rw [powered_real]
    rcases hfrac with hlow | hfrac
    · have hcub : expCub (fractionOf q : ℝ) ≤ 1.01 :=
        (expCub_mono (by exact_mod_cast h0)
          (by exact_mod_cast h1.le : (fractionOf q : ℝ) ≤ 1)).trans (by norm_num [expCub, cub])
      have hfac : 1 + (z : ℝ) / 2 ^ 30 ≤ 3 := by
        norm_num at hnear ⊢
        linarith
      calc (1 + (z : ℝ) / 2 ^ 30) * 2 ^ (q / 2 ^ 30) ≤ 3 * 2 ^ (126 : ℤ) :=
            mul_le_mul hfac (two_zpow_le hlow) (two_zpow_pos _).le (by norm_num)
        _ ≤ (2 ^ 24 - 1) * 2 ^ (104 : ℤ) := by norm_num
    · have hcub : expCub (fractionOf q : ℝ) ≤ 1 - 8 / 10 ^ 6 :=
        (expCub_mono (by exact_mod_cast h0)
          (by exact_mod_cast hfrac : (fractionOf q : ℝ) ≤ ((130996 / 131072 : ℚ) : ℝ))).trans
          (by norm_num [expCub, cub])
      have hfac : 1 + (z : ℝ) / 2 ^ 30 ≤ 2 - 7 / 10 ^ 6 := by
        norm_num at hnear hcub ⊢
        linarith
      calc (1 + (z : ℝ) / 2 ^ 30) * 2 ^ (q / 2 ^ 30) ≤ (2 - 7 / 10 ^ 6) * 2 ^ (127 : ℤ) :=
            mul_le_mul hfac (two_zpow_le hip) (two_zpow_pos _).le (by norm_num)
        _ ≤ (2 ^ 24 - 1) * 2 ^ (104 : ℤ) := by norm_num
  exact_mod_cast hreal

/-- At the top it is not. -/
theorem le_powered (h : Cubed 744822652 258141149 71624073 (q % 2 ^ 30) z) (hip : q / 2 ^ 30 = 127)
    (hfrac : 130997 / 131072 ≤ fractionOf q) : 2 ^ (128 : ℤ) ≤ powered q z := by
  have hnear := (abs_le.mp h.expCub_near).1
  have hcub : 1 + 1 / 10 ^ 6 ≤ expCub (fractionOf q : ℝ) :=
    (by norm_num [expCub, cub] : 1 + 1 / 10 ^ 6 ≤ expCub ((130997 / 131072 : ℚ) : ℝ)).trans
      (expCub_mono (by norm_num) (by exact_mod_cast hfrac))
  have hfac : 2 ≤ 1 + (z : ℝ) / 2 ^ 30 := by
    norm_num at hnear hcub ⊢
    linarith
  have hreal : (2 : ℝ) ^ (128 : ℤ) ≤ powered q z := by
    rw [powered_real, hip]
    calc (2 : ℝ) ^ (128 : ℤ) = 2 * 2 ^ (127 : ℤ) := by norm_num
      _ ≤ _ := mul_le_mul_of_nonneg_right hfac (two_zpow_pos _).le
  exact_mod_cast hreal

end Power

/-- A lane within a relative distance of a number. -/
def Within (r : U32) (e y : ℝ) : Prop := FiniteS r ∧ |(valS r : ℝ) - y| ≤ e * y

theorem signed_false (v : ℚ) : signed false v = v := rfl

/-- A result too large for a single is no number. -/
theorem dn_rsp_over (h : Cpu.Fast) {v : ℚ} (hv : MagD v) (hbig : 2 ^ (128 : ℤ) ≤ v) :
    ¬ FiniteS (dn (rsp h.host h.off (encD false v) vecEnv).bits) := by
  have hpos : 0 < v := (two_zpow_pos (K := ℚ) 128).trans_le hbig
  have hval : valD (encD false v) = v := by
    rw [valD_eq, negD_encD false hv, absD_encD false hv, signed_false]
  have hround : 2 ^ (128 : ℤ) ≤ sgl.round .nearest v :=
    Format.le_round_of_le (Format.rep_two_zpow (by decide)) hbig
  have hslow : (rspModel (encD false v) vecEnv).bits = kInf := by
    rw [rspModel_eq (finiteD_encD false hv) (by rw [hval]; exact hpos.ne') vecEnv_std false, hval,
      ieee_of_ne_zero hpos.ne', abs_of_pos hpos, decide_eq_false (not_lt.mpr hpos.le)]
    have hmode : magMode vecEnv.rn false = .nearest := rfl
    have hover : 2 ^ (Tgt.Sgl.format.emax + 1) ≤ Tgt.Sgl.format.round .nearest v := hround
    rw [hmode]
    unfold Format.deliver
    dsimp only
    rw [if_pos hover]
    rfl
  have hnarrow : h.host.narrow (encD false v) = kInfS := by
    have hnot : ¬ |sgl.round .nearest v| < 2 ^ (sgl.emax + 1) := by
      rw [abs_of_nonneg ((two_zpow_pos (K := ℚ) 128).le.trans hround)]
      exact not_lt.mpr hround
    rw [h.host.narrow_eq _ (finiteD_encD false hv), hval, ieeeS, if_neg hpos.ne', if_neg hnot,
      if_neg (not_lt.mpr hpos.le)]
    rfl
  have hbits : (rsp h.host h.off (encD false v) vecEnv).bits = kInf := by
    have hfast : rspFast h.host (encD false v) = none := by
      unfold rspFast
      dsimp only
      rw [hnarrow, if_neg (c := (kInfS >>> 23 &&& 0xFF#32) ≥ 2#32 ∧ _) (by decide), ite_self]
    unfold rsp
    rw [hfast, Option.getD_none, ite_self]
    exact hslow
  rw [hbits]
  decide

/-- What `h_vexptefp` leaves in a lane whose power is in the single range. -/
structure Powered (r : U32) (x : ℚ) (q z : ℤ) : Prop where
  taken : Taken x q
  cubed : Cubed 744822652 258141149 71624073 (q % 2 ^ 30) z
  room : powered q z ≤ (2 ^ 24 - 1) * 2 ^ (104 : ℤ) → Held24 r (powered q z)
  beyond : 2 ^ (128 : ℤ) ≤ powered q z → ¬ FiniteS r

theorem exptefp_powered (h : Cpu.Fast) (vscr : U32) {w : U32} (hfin : FiniteS w)
    (hlow : -126 ≤ valS w) (hhigh : valS w < 128) :
    ∃ r q z, exptefp h vscr w = some r ∧ Powered r (valS w) q z := by
  have habs : |valS w| ≤ 2 ^ (7 : ℤ) := by
    rw [abs_le]
    norm_num
    constructor <;> linarith
  obtain ⟨q, hq, htaken⟩ := expArgument_taken vscr hfin habs
  obtain ⟨hip, hip'⟩ := htaken.exponent hlow hhigh
  obtain ⟨z, hz, hest⟩ := expEstimate_spec h hq (abs_lt.mpr ⟨by omega, by omega⟩)
  rw [if_neg (by omega), if_neg (by omega)] at hest
  have hzn := hz.nonneg (by norm_num) (by norm_num) (by norm_num)
  have hzs := (abs_le.mp hz.small).2
  obtain ⟨n, hn⟩ : ∃ n : ℕ, (n : ℤ) = 2 ^ 30 + z :=
    ⟨(2 ^ 30 + z).toNat, Int.toNat_of_nonneg (by omega)⟩
  have hpow : powered q z = (n : ℚ) * 2 ^ (q / 2 ^ 30 - 30) := by
    rw [powered, ← hn, Int.cast_natCast]
  have hnlow : (2 : ℚ) ^ (30 : ℤ) ≤ n := by exact_mod_cast (show 2 ^ 30 ≤ n by omega)
  have hnhigh : (n : ℚ) < 2 ^ (53 : ℤ) := by exact_mod_cast (show n < 2 ^ 53 by omega)
  -- at least the smallest normal single: nothing is flushed on the way out
  have hge : (2 : ℚ) ^ (-126 : ℤ) ≤ powered q z := by
    rw [hpow]
    refine le_trans ?_ (mul_le_mul_of_nonneg_right hnlow (two_zpow_pos _).le)
    rw [← two_zpow_add]
    exact two_zpow_le (by omega)
  have hv : MagD (powered q z) := by
    rw [hpow]
    refine ⟨Format.rep_natMul (f := dbl) ?_ (show n < 2 ^ 53 by omega), by positivity, ?_⟩
    · change -1074 ≤ _
      omega
    · refine (mul_lt_mul_of_pos_right hnhigh (two_zpow_pos _)).trans_le ?_
      rw [← two_zpow_add]
      exact two_zpow_le (by omega)
  have hres : exptefp h vscr w
      = some (flushOut vscr (dn (rsp h.host h.off (encD false (powered q z)) vecEnv).bits)) := by
    rw [exptefp_eq h hfin, hest]
    rfl
  refine ⟨_, q, z, hres, htaken, hz, fun hroom => ?_, fun hover => ?_⟩
  · have hheld := dn_rsp_held h false hv hge (round_lt hroom)
    rw [signed_false] at hheld
    have hout : ∀ r, 2 ^ (-126 : ℤ) ≤ absS r → flushOut vscr r = r := fun r hr =>
      flushIn_of_normal vscr (Or.inr hr)
    rw [hout _ hheld.normal]
    exact hheld
  · have hnot := dn_rsp_over h hv hover
    intro hfin'
    -- only a denormal is flushed, and what overflowed is none
    rcases flushIn_cases vscr (dn (rsp h.host h.off (encD false (powered q z)) vecEnv).bits) with
      hsame | ⟨-, hden⟩
    · exact hnot (hsame ▸ hfin')
    · refine hnot ((finite_iff _).mpr (((sglDenorm_iff _).mp hden).2.trans ?_))
      decide

/-- Where the power's estimate keeps its bound. -/
def PowerInside (x : ℚ) : Prop :=
  (Int.fract x ≤ 0.491347 ∨ 0.93378 ≤ Int.fract x) ∧ x < 16777141 / 131072

/-- Where it does not. -/
def PowerOutside (x : ℚ) : Prop :=
  0.49139 ≤ Int.fract x ∧ Int.fract x ≤ 0.93375 ∨ 16777141 / 131072 ≤ x

section Bound

variable {w r : U32} {q z : ℤ}

/-- The power of a lane's argument is that of its value. -/
theorem Taken.power_close {x : ℚ} (h : Taken x q) :
    |(2 : ℝ) ^ ((q : ℝ) / 2 ^ 30) - 2 ^ (x : ℝ)| ≤ 1 / 2 ^ 30 * 2 ^ (x : ℝ) := by
  apply two_rpow_close
  have hnear := abs_sub_cast h.near
  push_cast at hnear
  have hdiv : (q : ℝ) / 2 ^ 30 - x = ((q : ℝ) - x * 2 ^ 30) / 2 ^ 30 := by ring
  rw [hdiv, abs_div, abs_of_pos (by norm_num : (0 : ℝ) < 2 ^ 30)]
  exact div_le_div_of_nonneg_right hnear (by norm_num)

/-- The held magnitude is near the packed one. -/
theorem Held24.real {v : ℚ} (h : Held24 r v) (hv : 0 ≤ v) :
    (valS r : ℝ) ≤ v * (1 + 1 / 2 ^ 24) ∧ (v : ℝ) * (1 - 1 / 2 ^ 24) ≤ valS r := by
  have hnear := abs_sub_cast h.near
  rw [abs_of_nonneg hv, abs_le] at hnear
  push_cast at hnear
  constructor <;> linarith [hnear.1, hnear.2]

/-- To half a last place, with so much of the binade below it. -/
theorem Held24.real_place {v : ℚ} (h : Held24 r v) {e : ℤ} (he : -126 ≤ e) {m : ℝ} (hm : 0 < m)
    (hge : m * 2 ^ e ≤ v) (hlt : (v : ℝ) < 2 ^ (e + 1)) :
    (valS r : ℝ) ≤ v * (1 + 1 / (m * 2 ^ 24)) ∧ (v : ℝ) * (1 - 1 / (m * 2 ^ 24)) ≤ valS r := by
  have hpos : (0 : ℝ) < 2 ^ e := zpow_pos two_pos e
  have hv : (0 : ℝ) < v := (mul_pos hm hpos).trans_le hge
  have hltq : |v| < 2 ^ (e + 1) := by
    have hcast : (v : ℝ) < ((2 ^ (e + 1) : ℚ) : ℝ) := by
      push_cast
      exact hlt
    rw [abs_of_pos (by exact_mod_cast hv)]
    exact Rat.cast_lt.mp hcast
  have hplace := abs_sub_cast (h.place e he hltq)
  push_cast at hplace
  have hshare : (2 : ℝ) ^ e / 2 ^ 24 ≤ v * (1 / (m * 2 ^ 24)) := by
    rw [mul_one_div, div_le_div_iff₀ (by positivity) (by positivity)]
    nlinarith [hge, hpos]
  rw [abs_le] at hplace
  constructor <;> linarith [hplace.1, hplace.2]

/-- The binade of the quotient, short of its end. -/
theorem powered_binade (h : Cubed 744822652 258141149 71624073 (q % 2 ^ 30) z) {a m : ℝ}
    (ha : 0 ≤ a) (hle : a ≤ (fractionOf q : ℝ)) (htop : (fractionOf q : ℝ) ≤ 0.94)
    (hm : m ≤ 1 + expCub a - 1 / 2 ^ 29) :
    m * 2 ^ (q / 2 ^ 30) ≤ (powered q z : ℝ) ∧ (powered q z : ℝ) < 2 ^ (q / 2 ^ 30 + 1) := by
  have hpos : (0 : ℝ) < 2 ^ (q / 2 ^ 30) := zpow_pos two_pos _
  have hnear := abs_le.mp h.expCub_near
  have hlow := expCub_mono ha hle
  have hhigh := expCub_mono (ha.trans hle) htop
  have hend : expCub 0.94 + 1 / 2 ^ 29 < 1 := by
    unfold expCub
    norm_num [cub]
  rw [powered_real, zpow_add_one₀ two_ne_zero]
  constructor
  · exact mul_le_mul_of_nonneg_right (by linarith [hnear.1]) hpos.le
  · rw [mul_comm]
    exact mul_lt_mul_of_pos_left (by linarith [hnear.2]) hpos

theorem powered_nonneg (h : Cubed 744822652 258141149 71624073 (q % 2 ^ 30) z) :
    0 ≤ powered q z := by
  have hz := h.nonneg (by norm_num) (by norm_num) (by norm_num)
  have hcast : (0 : ℚ) ≤ ((2 ^ 30 + z : ℤ) : ℚ) := by exact_mod_cast (show 0 ≤ 2 ^ 30 + z by omega)
  exact mul_nonneg hcast (two_zpow_pos _).le

/-- Short of the last 75 singles the top has room. -/
theorem Powered.room_of_lt (h : Powered r (valS w) q z) (hfin : FiniteS w) (hlow : -126 ≤ valS w)
    (hhigh : valS w < 16777141 / 131072) : Held24 r (powered q z) := by
  obtain ⟨-, hip⟩ := h.taken.exponent hlow (hhigh.trans (by norm_num))
  refine h.room (powered_le h.cubed hip ?_)
  by_cases htop : q / 2 ^ 30 ≤ 126
  · exact Or.inl htop
  right
  have hq : 127 * 2 ^ 30 ≤ q := by omega
  have hnn : 0 ≤ valS w := by
    by_contra hneg
    have hle := (h.taken.down (not_le.mp hneg)).2
    omega
  have hqle : ((127 * 2 ^ 30 : ℤ) : ℚ) ≤ q := by exact_mod_cast hq
  have hx : 2 ^ (6 : ℤ) ≤ |valS w| := by
    rw [abs_of_nonneg hnn]
    have hup := (h.taken.up hnn).2
    push_cast at hqle
    norm_num at hup hqle ⊢
    linarith
  have hwhole := h.taken.whole ((two_zpow_le (by norm_num)).trans hx)
  -- there a single is a multiple of `2 ^ -17`
  obtain ⟨n, hn⟩ := grid_valS hfin hx
  have hpow : (2 : ℚ) ^ ((6 : ℤ) - 23) = 1 / 131072 := by norm_num
  rw [hpow] at hn
  have hnle : n ≤ 16777140 := by
    have hlt : (n : ℚ) < ((16777141 : ℤ) : ℚ) := by
      push_cast
      linarith
    have := Int.cast_lt.mp hlt
    omega
  have hnq : (n : ℚ) ≤ 16777140 := by exact_mod_cast hnle
  have hsplit := argument_split q
  have hexp : q / 2 ^ 30 = 127 := by omega
  rw [hwhole, hn, hexp] at hsplit
  norm_num at hsplit
  linarith

/-- What the cubic is out by, the cuts, the argument's last place and the last rounding leave the
bound with. -/
theorem Powered.within_of (h : Powered r (valS w) q z) (hfin : FiniteS r) {d e : ℝ}
    (hup : (valS r : ℝ) ≤ powered q z * (1 + d)) (hdown : (powered q z : ℝ) * (1 - d) ≤ valS r)
    (hratio : expRatio (fractionOf q : ℝ) ≤ e) (hd : 0 ≤ d) (hd' : d ≤ 1 / 2 ^ 23)
    (hroom : (e + 1 / 2 ^ 29) * (1 + d) * (1 + 1 / 2 ^ 30) ≤ 1 + 3 / 4096) :
    Within r (3 / 4096) (2 ^ (valS w : ℝ)) := by
  obtain ⟨h0, h1⟩ := fractionOf_range q
  have hone := one_le_expRatio (by exact_mod_cast h0 : (0 : ℝ) ≤ (fractionOf q : ℝ))
    (by exact_mod_cast h1.le)
  have hclose := abs_le.mp h.taken.power_close
  have hcut := abs_le.mp (powered_near h.cubed)
  have heq := powered_eq q z
  have hY := Real.rpow_pos_of_pos (by norm_num : (0 : ℝ) < 2) ((q : ℝ) / 2 ^ 30)
  have hP := Real.rpow_pos_of_pos (by norm_num : (0 : ℝ) < 2) (valS w : ℝ)
  obtain ⟨Y, hYdef⟩ : ∃ Y : ℝ, Y = 2 ^ ((q : ℝ) / 2 ^ 30) := ⟨_, rfl⟩
  obtain ⟨P, hPdef⟩ : ∃ P : ℝ, P = 2 ^ (valS w : ℝ) := ⟨_, rfl⟩
  rw [← hYdef] at hY heq hclose
  rw [← hPdef] at hP hclose ⊢
  -- the cubic's quotient, with what the cuts took
  have hVup : (powered q z : ℝ) ≤ Y * (e + 1 / 2 ^ 29) := by
    rw [heq]
    exact mul_le_mul_of_nonneg_left (by linarith [hcut.2]) hY.le
  have hVdown : Y * (1 - 1 / 2 ^ 29) ≤ powered q z := by
    rw [heq]
    exact mul_le_mul_of_nonneg_left (by linarith [hcut.1]) hY.le
  have hYup : Y ≤ P * (1 + 1 / 2 ^ 30) := by linarith [hclose.2]
  have hYdown : P * (1 - 1 / 2 ^ 30) ≤ Y := by linarith [hclose.1]
  have he : 0 ≤ e + 1 / 2 ^ 29 := by
    have hpos : (0 : ℝ) < 1 / 2 ^ 29 := by norm_num
    linarith
  refine ⟨hfin, abs_le.mpr ⟨?_, ?_⟩⟩
  · have hleast : P * ((1 - 1 / 2 ^ 30) * (1 - 1 / 2 ^ 29) * (1 - 1 / 2 ^ 23)) ≤ valS r := by
      calc P * ((1 - 1 / 2 ^ 30) * (1 - 1 / 2 ^ 29) * (1 - 1 / 2 ^ 23))
          = P * (1 - 1 / 2 ^ 30) * (1 - 1 / 2 ^ 29) * (1 - 1 / 2 ^ 23) := by ring
        _ ≤ Y * (1 - 1 / 2 ^ 29) * (1 - 1 / 2 ^ 23) := by
          have hn : (0 : ℝ) ≤ (1 - 1 / 2 ^ 29) * (1 - 1 / 2 ^ 23) := by norm_num
          rw [mul_assoc, mul_assoc Y]
          exact mul_le_mul_of_nonneg_right hYdown hn
        _ ≤ powered q z * (1 - 1 / 2 ^ 23) := mul_le_mul_of_nonneg_right hVdown (by norm_num)
        _ ≤ powered q z * (1 - d) :=
          mul_le_mul_of_nonneg_left (by linarith) (by exact_mod_cast powered_nonneg h.cubed)
        _ ≤ valS r := hdown
    have hslack : P * (1 - 3 / 4096)
        ≤ P * ((1 - 1 / 2 ^ 30) * (1 - 1 / 2 ^ 29) * (1 - 1 / 2 ^ 23)) :=
      mul_le_mul_of_nonneg_left (by norm_num) hP.le
    linarith
  · have hmost : (valS r : ℝ) ≤ P * (1 + 3 / 4096) := by
      calc (valS r : ℝ) ≤ powered q z * (1 + d) := hup
        _ ≤ Y * (e + 1 / 2 ^ 29) * (1 + d) := mul_le_mul_of_nonneg_right hVup (by linarith)
        _ ≤ P * (1 + 1 / 2 ^ 30) * (e + 1 / 2 ^ 29) * (1 + d) :=
          mul_le_mul_of_nonneg_right (mul_le_mul_of_nonneg_right hYup he) (by linarith)
        _ = P * ((e + 1 / 2 ^ 29) * (1 + d) * (1 + 1 / 2 ^ 30)) := by ring
        _ ≤ P * (1 + 3 / 4096) := mul_le_mul_of_nonneg_left hroom hP.le
    linarith

/-- **Near the whole numbers the power's estimate keeps its bound.** -/
theorem Powered.near (h : Powered r (valS w) q z) (hfin : FiniteS w) (hlow : -126 ≤ valS w)
    (hin : PowerInside (valS w)) : Within r (3 / 4096) (2 ^ (valS w : ℝ)) := by
  have hheld := h.room_of_lt hfin hlow hin.2
  obtain ⟨hip, -⟩ := h.taken.exponent hlow (hin.2.trans (by norm_num))
  obtain ⟨h0, h1⟩ := fractionOf_range q
  obtain ⟨t, ht⟩ : ∃ t : ℝ, t = (fractionOf q : ℝ) := ⟨_, rfl⟩
  have h0' : 0 ≤ t := by rw [ht]; exact_mod_cast h0
  have h1' : t ≤ 1 := by rw [ht]; exact_mod_cast h1.le
  have hfrac : t ≤ 0.491347 ∨ 0.93378 ≤ t := by
    have hq : fractionOf q ≤ 0.491347 ∨ 0.93378 ≤ fractionOf q := by
      rcases le_or_gt (2 ^ (-7 : ℤ)) |valS w| with hx | hx
      · rw [← h.taken.fract_eq hx]
        exact hin.1
      · rcases (h.taken.fract_edge hx).1 with hle | hge
        · exact Or.inl (hle.trans (by norm_num))
        · exact Or.inr (le_trans (by norm_num) hge)
    rw [ht]
    rcases hq with hle | hge
    · have hcast : (fractionOf q : ℝ) ≤ ((0.491347 : ℚ) : ℝ) := by exact_mod_cast hle
      exact Or.inl (hcast.trans (by norm_num))
    · have hcast : ((0.93378 : ℚ) : ℝ) ≤ (fractionOf q : ℝ) := by exact_mod_cast hge
      exact Or.inr (le_trans (by norm_num) hcast)
  by_cases hclear : t ≤ 0.4913 ∨ 0.9338 ≤ t
  · obtain ⟨hup, hdown⟩ := hheld.real (powered_nonneg h.cubed)
    exact h.within_of hheld.finite hup hdown (ht ▸ expRatio_clear h0' h1' hclear) (by norm_num)
      (by norm_num) (by norm_num)
  obtain ⟨hclear, hclear'⟩ := not_or.mp hclear
  have htop : (fractionOf q : ℝ) ≤ 0.94 := by
    rw [← ht]
    linarith
  -- close to the crossings a last place is less than one part in `2 ^ 24`
  rcases hfrac with hle | hge
  · have hm : (1.4 : ℝ) ≤ 1 + expCub 0.4913 - 1 / 2 ^ 29 := by
      unfold expCub
      norm_num [cub]
    obtain ⟨hge', hlt⟩ := powered_binade h.cubed (by norm_num) (by rw [← ht]; linarith) htop hm
    obtain ⟨hup, hdown⟩ := hheld.real_place hip (by norm_num) hge' hlt
    exact h.within_of hheld.finite hup hdown (ht ▸ expRatio_low h0' hle) (by norm_num)
      (by norm_num) (by norm_num)
  · have hm : (1.9 : ℝ) ≤ 1 + expCub 0.93378 - 1 / 2 ^ 29 := by
      unfold expCub
      norm_num [cub]
    obtain ⟨hge', hlt⟩ := powered_binade h.cubed (by norm_num) (by rw [← ht]; exact hge) htop hm
    obtain ⟨hup, hdown⟩ := hheld.real_place hip (by norm_num) hge' hlt
    exact h.within_of hheld.finite hup hdown (ht ▸ expRatio_high hge h1') (by norm_num)
      (by norm_num) (by norm_num)

/-- **Between them it does not.** -/
theorem Powered.far (h : Powered r (valS w) q z) (hlow : -126 ≤ valS w) (hhigh : valS w < 128)
    (h0 : 0.49139 ≤ Int.fract (valS w)) (h1 : Int.fract (valS w) ≤ 0.93375) :
    ¬ Within r (3 / 4096) (2 ^ (valS w : ℝ)) := by
  have hx : 2 ^ (-7 : ℤ) ≤ |valS w| := by
    by_contra hlt
    rcases (h.taken.fract_edge (not_le.mp hlt)).2 with hle | hge
    · norm_num at h0 hle
      linarith
    · norm_num at h1 hge
      linarith
  rw [h.taken.fract_eq hx] at h0 h1
  obtain ⟨hip', hip⟩ := h.taken.exponent hlow hhigh
  have hheld := h.room (powered_le h.cubed hip (Or.inr (h1.trans (by norm_num))))
  have hcast : ((0.49139 : ℚ) : ℝ) ≤ (fractionOf q : ℝ) := by exact_mod_cast h0
  have hcast' : (fractionOf q : ℝ) ≤ ((0.93375 : ℚ) : ℝ) := by exact_mod_cast h1
  have hcast := le_trans (by norm_num : (0.49139 : ℝ) ≤ ((0.49139 : ℚ) : ℝ)) hcast
  have hcast' := hcast'.trans (by norm_num : ((0.93375 : ℚ) : ℝ) ≤ 0.93375)
  have hratio := expRatio_mid hcast hcast'
  have harg : (q : ℝ) / 2 ^ 30 = (valS w : ℝ) := by
    have hwhole := congrArg (Rat.cast : ℚ → ℝ) (h.taken.whole hx)
    push_cast at hwhole
    rw [hwhole]
    norm_num
  have hm : (1.4 : ℝ) ≤ 1 + expCub 0.49139 - 1 / 2 ^ 29 := by
    unfold expCub
    norm_num [cub]
  obtain ⟨hge, hlt⟩ := powered_binade h.cubed (by norm_num) hcast (hcast'.trans (by norm_num)) hm
  rintro ⟨-, hle⟩
  obtain ⟨-, hdown⟩ := hheld.real_place hip' (by norm_num) hge hlt
  have hcut := abs_le.mp (powered_near h.cubed)
  have heq := powered_eq q z
  rw [harg] at heq
  have hP := Real.rpow_pos_of_pos (by norm_num : (0 : ℝ) < 2) (valS w : ℝ)
  have hV : (2 : ℝ) ^ (valS w : ℝ) * (1 + 3 / 4096 + 47 / 10 ^ 9 - 1 / 2 ^ 29) ≤ powered q z := by
    rw [heq]
    exact mul_le_mul_of_nonneg_left (by linarith [hcut.1]) hP.le
  have hle' := (abs_le.mp hle).2
  norm_num at hdown hV hle'
  linarith

/-- **At the top it is an infinity.** -/
theorem Powered.over_top (h : Powered r (valS w) q z) (hhigh : valS w < 128)
    (htop : 16777141 / 131072 ≤ valS w) : ¬ FiniteS r := by
  have hnn : 0 ≤ valS w := le_trans (by norm_num) htop
  have hx : 2 ^ (-7 : ℤ) ≤ |valS w| := by
    rw [abs_of_nonneg hnn]
    exact le_trans (by norm_num) htop
  have hwhole := h.taken.whole hx
  obtain ⟨-, hip⟩ := h.taken.exponent (le_trans (by norm_num) hnn) hhigh
  have hq : 127 * 2 ^ 30 ≤ q := by
    have hle : ((127 * 2 ^ 30 : ℤ) : ℚ) ≤ q := by
      rw [hwhole]
      push_cast
      linarith
    exact_mod_cast hle
  have hexp : q / 2 ^ 30 = 127 := by omega
  refine h.beyond (le_powered h.cubed hexp ?_)
  have hsplit := argument_split q
  rw [hwhole, hexp] at hsplit
  norm_num at hsplit
  linarith

end Bound

/-! ## The handlers -/

/-- **The estimates.** Every lane of either has a result, so no shift is by an amount
outside 0 to 63 and nothing overflows. The logarithm is within 1/32. The power is
within 3/4096 near the whole numbers short of the top, and is not in between them
or at the top. -/
theorem estimates_bounds (h : Cpu.Fast) :
    (∀ (c : Cpu β) (i : U32), ∃ d f, h_vlogefp h c i = some d ∧ Fills f c i d
      ∧ ∀ k < 4, logefp h c.st.vscr (gw (c.st.user.VB i) k) = some (f k))
    ∧ (∀ (c : Cpu β) (i : U32), ∃ d f, h_vexptefp h c i = some d ∧ Fills f c i d
      ∧ ∀ k < 4, exptefp h c.st.vscr (gw (c.st.user.VB i) k) = some (f k))
    ∧ (∀ vscr w : U32, vscr &&& vNJ = 0#32 → FiniteS w → 0 < valS w → ∃ r, logefp h vscr w = some r
      ∧ FiniteS r ∧ |(valS r : ℝ) - Real.logb 2 (valS w : ℝ)| ≤ 1 / 32)
    ∧ ∀ vscr w : U32, FiniteS w → -126 ≤ valS w → valS w < 128 → ∃ r, exptefp h vscr w = some r
      ∧ (PowerInside (valS w) → Within r (3 / 4096) (2 ^ (valS w : ℝ)))
      ∧ (PowerOutside (valS w) → ¬ Within r (3 / 4096) (2 ^ (valS w : ℝ))) := by
  refine ⟨fun c i => vecTry_fills (logefp_defined h) c i,
    fun c i => vecTry_fills (exptefp_defined h) c i,
    fun vscr w hnj hfin hpos => logefp_near h hnj hfin hpos, fun vscr w hfin hlow hhigh => ?_⟩
  obtain ⟨r, q, z, hr, hpow⟩ := exptefp_powered h vscr hfin hlow hhigh
  refine ⟨r, hr, hpow.near hfin hlow, ?_⟩
  rintro (⟨h0, h1⟩ | htop)
  · exact hpow.far hlow hhigh h0 h1
  · exact fun hin => hpow.over_top hhigh htop hin.1

theorem valS_half : valS 0x3F000000#32 = 1 / 2 := by
  have hneg : negS 0x3F000000#32 = false := rfl
  rw [valS, hneg, absS_eq]
  norm_num

theorem valS_one : valS 0x3F800000#32 = 1 := by
  have hneg : negS 0x3F800000#32 = false := rfl
  rw [valS, hneg, absS_eq]
  norm_num

/-- At one, the logarithm and the power. -/
theorem estimates_bounds_one :
    (∃ r, logefp ⟨softHost, 0#32⟩ 0#32 0x3F800000#32 = some r
      ∧ FiniteS r ∧ |(valS r : ℝ) - Real.logb 2 (valS 0x3F800000#32 : ℝ)| ≤ 1 / 32)
    ∧ ∃ r, exptefp ⟨softHost, 0#32⟩ 0#32 0x3F800000#32 = some r
      ∧ Within r (3 / 4096) (2 ^ (valS 0x3F800000#32 : ℝ)) := by
  obtain ⟨-, -, hlog, hexp⟩ := @estimates_bounds Unit ⟨softHost, 0#32⟩
  refine ⟨hlog 0#32 0x3F800000#32 (by decide) (by decide) (by rw [valS_one]; norm_num), ?_⟩
  obtain ⟨r, hr, hin, -⟩ := hexp 0#32 0x3F800000#32 (by decide) (by rw [valS_one]; norm_num)
    (by rw [valS_one]; norm_num)
  refine ⟨r, hr, hin ⟨Or.inl ?_, ?_⟩⟩
  · rw [valS_one, Int.fract_one]
    norm_num
  · rw [valS_one]
    norm_num

/-- The square root of two is out by 0.00075 of itself. -/
theorem half_power_outside :
    FiniteS 0x3F000000#32 ∧ -126 ≤ valS 0x3F000000#32 ∧ valS 0x3F000000#32 < 128
    ∧ exptefp ⟨softHost, 0#32⟩ 0#32 0x3F000000#32 = some 0x3FB527C7#32
    ∧ ¬ Within 0x3FB527C7#32 (3 / 4096) (2 ^ (valS 0x3F000000#32 : ℝ)) := by
  refine ⟨by decide, by rw [valS_half]; norm_num, by rw [valS_half]; norm_num, by decide +kernel,
    ?_⟩
  rintro ⟨-, hle⟩
  have hval : valS 0x3FB527C7#32 = 11872199 / 8388608 := by
    have hneg : negS 0x3FB527C7#32 = false := rfl
    rw [valS, hneg, absS_eq]
    norm_num
  have hroot : (2 : ℝ) ^ ((valS 0x3F000000#32 : ℚ) : ℝ) < 11872199 / 8388608 / (1 + 3 / 4096) := by
    rw [valS_half]
    push_cast
    rw [← Real.sqrt_eq_rpow]
    apply (Real.sqrt_lt' (by norm_num)).mpr
    norm_num
  have hup := (abs_le.mp hle).2
  rw [hval] at hup
  push_cast at hup
  norm_num at hup hroot
  linarith

end Vec

end OpenPowerMac
