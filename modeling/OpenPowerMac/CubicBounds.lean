/-
Cubics against `2 ^ t` and `log₂ (1 + t)` on the unit interval.

The quotient of `1 + a t + b t² + c t³` and `2 ^ t` rises where the cubic's own
slope is more than `log 2` of its value. With the coefficients' signs below that is
so up to one point and not after it, so on any interval the quotient is at least
its smaller value at the ends (`ratio_ge_min`). Logarithms are bounded the same
way, by the slope of the difference.
-/
import Mathlib
import OpenPowerMac.Rounding

set_option autoImplicit false

namespace CubicBounds

open Set

/-- A cubic without a constant term. -/
def cub (a b c t : ℝ) : ℝ := a * t + b * t ^ 2 + c * t ^ 3

/-- Its slope. -/
def rate (a b c t : ℝ) : ℝ := a + 2 * b * t + 3 * c * t ^ 2

theorem hasDerivAt_cub (a b c t : ℝ) : HasDerivAt (cub a b c) (rate a b c t) t := by
  have h1 := (hasDerivAt_id t).const_mul a
  have h2 := ((hasDerivAt_id t).pow 2).const_mul b
  have h3 := ((hasDerivAt_id t).pow 3).const_mul c
  have hsum := (h1.add h2).add h3
  have hrate : rate a b c t = a * 1 + b * (↑2 * id t ^ (2 - 1) * 1)
      + c * (↑3 * id t ^ (3 - 1) * 1) := by
    simp [rate]
    ring
  rw [hrate]
  exact hsum

variable {a b c : ℝ}

/-! ## Powers of two -/

/-- `1 + a t + b t² + c t³` over `2 ^ t`. -/
noncomputable def ratio (a b c t : ℝ) : ℝ := (1 + cub a b c t) * Real.exp (-(Real.log 2 * t))

theorem ratio_eq (a b c t : ℝ) : ratio a b c t = (1 + cub a b c t) / 2 ^ t := by
  rw [ratio, Real.exp_neg, Real.rpow_def_of_pos two_pos, div_eq_mul_inv]

/-- What the slope of the quotient has the sign of. -/
noncomputable def lead (a b c t : ℝ) : ℝ := rate a b c t - Real.log 2 * (1 + cub a b c t)

theorem hasDerivAt_ratio (a b c t : ℝ) :
    HasDerivAt (ratio a b c) (lead a b c t * Real.exp (-(Real.log 2 * t))) t := by
  have hexp : HasDerivAt (fun t => Real.exp (-(Real.log 2 * t)))
      (Real.exp (-(Real.log 2 * t)) * -(Real.log 2 * 1)) t :=
    (((hasDerivAt_id t).const_mul (Real.log 2)).neg).exp
  have hmul := ((hasDerivAt_cub a b c t).const_add 1).mul hexp
  have hval : lead a b c t * Real.exp (-(Real.log 2 * t))
      = rate a b c t * Real.exp (-(Real.log 2 * t))
        + (1 + cub a b c t) * (Real.exp (-(Real.log 2 * t)) * -(Real.log 2 * 1)) := by
    rw [lead]
    ring
  rw [hval]
  exact hmul

theorem ratio_mono {u v : ℝ} (h : ∀ t ∈ Icc u v, 0 ≤ lead a b c t) :
    MonotoneOn (ratio a b c) (Icc u v) := by
  apply monotoneOn_of_deriv_nonneg (convex_Icc u v)
  · exact fun t _ => (hasDerivAt_ratio a b c t).continuousAt.continuousWithinAt
  · exact fun t _ => (hasDerivAt_ratio a b c t).differentiableAt.differentiableWithinAt
  · intro t ht
    rw [(hasDerivAt_ratio a b c t).deriv]
    exact mul_nonneg (h t (interior_subset ht)) (Real.exp_pos _).le

theorem ratio_anti {u v : ℝ} (h : ∀ t ∈ Icc u v, lead a b c t ≤ 0) :
    AntitoneOn (ratio a b c) (Icc u v) := by
  apply antitoneOn_of_deriv_nonpos (convex_Icc u v)
  · exact fun t _ => (hasDerivAt_ratio a b c t).continuousAt.continuousWithinAt
  · exact fun t _ => (hasDerivAt_ratio a b c t).differentiableAt.differentiableWithinAt
  · intro t ht
    rw [(hasDerivAt_ratio a b c t).deriv]
    exact mul_nonpos_of_nonpos_of_nonneg (h t (interior_subset ht)) (Real.exp_pos _).le

/-- Coefficients for which the quotient rises and then falls. -/
structure Hump (a b c : ℝ) : Prop where
  first : Real.log 2 ≤ a
  second : Real.log 2 * a ≤ 2 * b
  third : Real.log 2 * b ≤ 3 * c
  pos : 0 ≤ c

/-- The sign of `lead` goes from plus to minus. -/
theorem Hump.lead_le (h : Hump a b c) {s t : ℝ} (hs : 0 ≤ s) (hst : s ≤ t) :
    lead a b c t * s ^ 3 ≤ lead a b c s * t ^ 3 := by
  have ht := hs.trans hst
  have h1 := mul_nonneg (sub_nonneg.mpr h.first)
    (sub_nonneg.mpr (pow_le_pow_left₀ hs hst 3))
  have h2 := mul_nonneg (mul_nonneg (sub_nonneg.mpr h.second) (mul_nonneg hs ht))
    (sub_nonneg.mpr (pow_le_pow_left₀ hs hst 2))
  have h3 := mul_nonneg (mul_nonneg (sub_nonneg.mpr h.third)
    (mul_nonneg (sq_nonneg s) (sq_nonneg t))) (sub_nonneg.mpr hst)
  unfold lead rate cub
  nlinarith [h1, h2, h3]

/-- Up to where it is not negative. -/
theorem Hump.mono (h : Hump a b c) {s : ℝ} (hs : 0 < s) (hlead : 0 ≤ lead a b c s) :
    MonotoneOn (ratio a b c) (Icc 0 s) := by
  apply ratio_mono
  intro t ht
  have hle := h.lead_le ht.1 ht.2
  have hpos : 0 < s ^ 3 := pow_pos hs 3
  nlinarith [mul_nonneg hlead (pow_nonneg ht.1 3)]

/-- From where it is not positive. -/
theorem Hump.anti (h : Hump a b c) {s v : ℝ} (hs : 0 < s) (hlead : lead a b c s ≤ 0) :
    AntitoneOn (ratio a b c) (Icc s v) := by
  apply ratio_anti
  intro t ht
  have hle := h.lead_le hs.le ht.1
  have hpos : 0 < s ^ 3 := pow_pos hs 3
  nlinarith [mul_nonneg (neg_nonneg.mpr hlead) (pow_nonneg (hs.le.trans ht.1) 3)]

/-- **Between two points the quotient is at least its smaller value there.** -/
theorem Hump.ratio_ge_min (h : Hump a b c) {u t v : ℝ} (hu : 0 ≤ u) (hut : u ≤ t) (htv : t ≤ v) :
    min (ratio a b c u) (ratio a b c v) ≤ ratio a b c t := by
  rcases hut.eq_or_lt with rfl | hlt
  · exact min_le_left _ _
  have ht : 0 < t := hu.trans_lt hlt
  rcases le_total 0 (lead a b c t) with hup | hdown
  · exact (min_le_left _ _).trans (h.mono ht hup ⟨hu, hut⟩ ⟨ht.le, le_rfl⟩ hut)
  · exact (min_le_right _ _).trans (h.anti ht hdown ⟨le_rfl, htv⟩ ⟨htv, le_rfl⟩ htv)

/-! ## Values at a point -/

/-- The exponential's partial sums bound a power of two from below. -/
theorem le_two_rpow {t y : ℝ} (hy : 0 ≤ y) (hyt : y ≤ Real.log 2 * t) (n : ℕ) :
    ∑ i ∈ Finset.range n, y ^ i / (i.factorial : ℝ) ≤ 2 ^ t := by
  rw [Real.rpow_def_of_pos two_pos]
  exact (Real.sum_le_exp_of_nonneg hy n).trans (Real.exp_le_exp.mpr hyt)

/-- With the bound of what is left out, from above. -/
theorem two_rpow_le {t y : ℝ} (hyt : Real.log 2 * t ≤ y) (hy : 0 ≤ y) (hy1 : y ≤ 1) {n : ℕ}
    (hn : 0 < n) : (2 : ℝ) ^ t ≤ (∑ i ∈ Finset.range n, y ^ i / (i.factorial : ℝ))
      + y ^ n * (n + 1) / ((n.factorial : ℝ) * n) := by
  rw [Real.rpow_def_of_pos two_pos]
  exact (Real.exp_le_exp.mpr hyt).trans (Real.exp_bound' hy hy1 hn)

theorem ratio_le {t r : ℝ} (h : 1 + cub a b c t ≤ r * 2 ^ t) : ratio a b c t ≤ r := by
  rw [ratio_eq, div_le_iff₀ (Real.rpow_pos_of_pos two_pos t)]
  exact h

theorem le_ratio {t r : ℝ} (h : r * 2 ^ t ≤ 1 + cub a b c t) : r ≤ ratio a b c t := by
  rw [ratio_eq, le_div_iff₀ (Real.rpow_pos_of_pos two_pos t)]
  exact h

/-! ## Logarithms -/

/-- The difference of the cubic and `log₂ (1 + t)`, in natural logarithms. -/
noncomputable def gap (a b c t : ℝ) : ℝ := Real.log 2 * cub a b c t - Real.log (1 + t)

theorem gap_eq (a b c t : ℝ) :
    gap a b c t = Real.log 2 * (cub a b c t - Real.logb 2 (1 + t)) := by
  have hlog : Real.log 2 ≠ 0 := (Real.log_pos one_lt_two).ne'
  rw [gap, Real.logb, mul_sub, mul_div_cancel₀ _ hlog]

theorem hasDerivAt_gap {t : ℝ} (ht : 0 ≤ t) :
    HasDerivAt (gap a b c) (Real.log 2 * rate a b c t - 1 / (1 + t)) t := by
  have hlog : HasDerivAt (fun t : ℝ => Real.log (1 + t)) (1 / (1 + t)) t :=
    ((hasDerivAt_id t).const_add 1).log (by simp only [id_eq]; linarith)
  exact ((hasDerivAt_cub a b c t).const_mul (Real.log 2)).sub hlog

theorem gap_mono {u v : ℝ} (hu : 0 ≤ u)
    (h : ∀ t ∈ Icc u v, 1 ≤ Real.log 2 * rate a b c t * (1 + t)) :
    MonotoneOn (gap a b c) (Icc u v) := by
  apply monotoneOn_of_deriv_nonneg (convex_Icc u v)
  · exact fun t ht => (hasDerivAt_gap (hu.trans ht.1)).continuousAt.continuousWithinAt
  · intro t ht
    have hin := interior_subset ht
    exact (hasDerivAt_gap (hu.trans hin.1)).differentiableAt.differentiableWithinAt
  · intro t ht
    have hin := interior_subset ht
    have hpos : 0 < 1 + t := by linarith [hu.trans hin.1]
    rw [(hasDerivAt_gap (hu.trans hin.1)).deriv, sub_nonneg, div_le_iff₀ hpos]
    exact h t hin

theorem gap_anti {u v : ℝ} (hu : 0 ≤ u)
    (h : ∀ t ∈ Icc u v, Real.log 2 * rate a b c t * (1 + t) ≤ 1) :
    AntitoneOn (gap a b c) (Icc u v) := by
  apply antitoneOn_of_deriv_nonpos (convex_Icc u v)
  · exact fun t ht => (hasDerivAt_gap (hu.trans ht.1)).continuousAt.continuousWithinAt
  · intro t ht
    have hin := interior_subset ht
    exact (hasDerivAt_gap (hu.trans hin.1)).differentiableAt.differentiableWithinAt
  · intro t ht
    have hin := interior_subset ht
    have hpos : 0 < 1 + t := by linarith [hu.trans hin.1]
    rw [(hasDerivAt_gap (hu.trans hin.1)).deriv, sub_nonpos, le_div_iff₀ hpos]
    exact h t hin

/-- A power of a number bounds its logarithm. -/
theorem log_ge {x : ℝ} {p q : ℕ} (h : (2 : ℝ) ^ p ≤ x ^ q) :
    p * Real.log 2 ≤ q * Real.log x := by
  rw [← Real.log_pow, ← Real.log_pow]
  exact Real.log_le_log (by positivity) h

theorem log_le {x : ℝ} (hx : 0 < x) {p q : ℕ} (h : x ^ q ≤ (2 : ℝ) ^ p) :
    q * Real.log x ≤ p * Real.log 2 := by
  rw [← Real.log_pow, ← Real.log_pow]
  exact Real.log_le_log (by positivity) h

end CubicBounds
