/-
The interchange encoding of a format, without its sign.

A magnitude's bits are its biased exponent over its trailing significand, and
because a significand that carries moves into the exponent by itself, they are
one sum: the digits in units of the quantum, plus the quantum's distance from the
least one in steps of the leading digit. `magBits` and `magValue` are inverse to
each other on the numbers of the format.
-/
import OpenPowerMac.Rounding

set_option autoImplicit false
set_option linter.unusedSectionVars false

namespace Rounding

namespace Format

variable {K : Type*} [Field K] [LinearOrder K] [IsStrictOrderedRing K] [FloorRing K]
variable {f : Format}

/-- The weight of the exponent field: the leading digit's. -/
def lead (f : Format) : ℕ := 2 ^ (f.prec - 1)

theorem lead_pos : 0 < f.lead := Nat.two_pow_pos _

theorem two_pow_prec : 2 ^ f.prec = 2 * f.lead := by
  have := f.three_le
  unfold lead
  rw [← pow_succ']
  congr 1
  omega

/-- The bits of a magnitude. -/
def magBits (f : Format) (v : K) : ℕ :=
  (⌊v / 2 ^ f.quant v⌋ + (f.quant v - f.qmin) * f.lead).toNat

/-- The magnitude of the bits. -/
def magValue (f : Format) (n : ℕ) : K :=
  if n / f.lead = 0 then n * 2 ^ f.qmin
  else ((n % f.lead + f.lead : ℕ) : K) * 2 ^ (((n / f.lead : ℕ) : ℤ) - 1 + f.qmin)

theorem two_zpow_lead (k : ℤ) : (2 : K) ^ (k + f.prec - 1) = f.lead * 2 ^ k := by
  have := f.three_le
  unfold lead
  push_cast
  rw [← zpow_natCast, ← two_zpow_add]
  congr 1
  omega

theorem two_zpow_prec (k : ℤ) : (2 : K) ^ (k + f.prec) = (2 * f.lead : ℕ) * 2 ^ k := by
  rw [← two_pow_prec, two_zpow_add, zpow_natCast, mul_comm]
  push_cast
  rfl

/-- The quantum of a digit string: it fills its digits, or is subnormal. -/
theorem quant_natMul {m : ℕ} {k : ℤ} (hk : f.qmin ≤ k) (hm : m < 2 * f.lead)
    (hfull : k = f.qmin ∨ f.lead ≤ m) : f.quant ((m : K) * 2 ^ k) = k := by
  have hpos := two_zpow_pos (K := K) k
  have habs : |(m : K) * 2 ^ k| = m * 2 ^ k := abs_of_nonneg (by positivity)
  refine quant_eq hk ?_ (hfull.imp_right fun h => ?_)
  · rw [habs, two_zpow_prec]
    exact mul_lt_mul_of_pos_right (by exact_mod_cast hm) hpos
  · rw [habs, two_zpow_lead]
    exact mul_le_mul_of_nonneg_right (by exact_mod_cast h) hpos.le

/-- The bits of a digit string. -/
theorem magBits_natMul {m : ℕ} {k : ℤ} (hk : f.qmin ≤ k) (hm : m < 2 * f.lead)
    (hfull : k = f.qmin ∨ f.lead ≤ m) :
    f.magBits ((m : K) * 2 ^ k) = m + (k - f.qmin).toNat * f.lead := by
  unfold magBits
  rw [quant_natMul hk hm hfull, mul_div_cancel_right₀ _ (two_zpow_pos (K := K) k).ne',
    Int.floor_natCast]
  have : (k - f.qmin) = ((k - f.qmin).toNat : ℤ) := (Int.toNat_of_nonneg (by omega)).symm
  rw [this]
  norm_cast

/-- Every magnitude of the format is such a string. -/
theorem exists_natMul {v : K} (hv : Rep f v) (h0 : 0 ≤ v) :
    ∃ (m : ℕ) (k : ℤ), v = m * 2 ^ k ∧ f.qmin ≤ k ∧ m < 2 * f.lead
      ∧ (k = f.qmin ∨ f.lead ≤ m) ∧ k = f.quant v := by
  obtain ⟨n, hn⟩ := hv
  have hpos := two_zpow_pos (K := K) (f.quant v)
  have hn0 : 0 ≤ n := by
    by_contra hlt
    have hneg : (n : K) < 0 := by exact_mod_cast not_le.mp hlt
    have := mul_neg_of_neg_of_pos hneg hpos
    rw [← hn] at this
    exact absurd h0 (not_le.mpr this)
  obtain ⟨m, rfl⟩ := Int.eq_ofNat_of_zero_le hn0
  have hn' : v = (m : K) * 2 ^ f.quant v := by
    rw [Int.cast_natCast] at hn
    exact hn
  have hroom := abs_lt_of_quant (f := f) v
  rw [abs_of_nonneg h0, two_zpow_prec] at hroom
  have hlt : (m : K) < (2 * f.lead : ℕ) := by
    rw [hn'] at hroom
    conv at hroom => rhs; rw [← hn']
    exact lt_of_mul_lt_mul_right hroom hpos.le
  refine ⟨m, f.quant v, hn', qmin_le_quant v, by exact_mod_cast hlt, ?_, rfl⟩
  rcases lt_or_eq_of_le (qmin_le_quant (f := f) v) with hgt | heq
  · right
    have hfull := le_abs_of_lt_quant hgt
    rw [abs_of_nonneg h0, two_zpow_lead] at hfull
    rw [hn'] at hfull
    conv at hfull => lhs; rw [← hn']
    exact_mod_cast le_of_mul_le_mul_right hfull hpos
  · exact Or.inl heq.symm

/-- **Decoding inverts encoding.** -/
theorem magValue_magBits {v : K} (hv : Rep f v) (h0 : 0 ≤ v) : f.magValue (f.magBits v) = v := by
  obtain ⟨m, k, rfl, hk, hm, hfull, -⟩ := exists_natMul hv h0
  have hlead := f.lead_pos
  rw [magBits_natMul hk hm hfull]
  unfold magValue
  by_cases hsub : m < f.lead
  · -- subnormal: the least quantum, and no exponent
    have hk' : k = f.qmin := hfull.resolve_right (not_le.mpr hsub)
    have hq : (k - f.qmin).toNat = 0 := by rw [hk']; simp
    rw [hq, zero_mul, add_zero, if_pos (Nat.div_eq_of_lt hsub), hk']
  · have hle := not_lt.mp hsub
    obtain ⟨r, rfl⟩ : ∃ r, m = r + f.lead := ⟨m - f.lead, by omega⟩
    have hr : r < f.lead := by omega
    obtain ⟨d, hd⟩ : ∃ d, (k - f.qmin).toNat = d := ⟨_, rfl⟩
    have hsplit : r + f.lead + d * f.lead = r + (d + 1) * f.lead := by ring
    have hdiv : (r + (d + 1) * f.lead) / f.lead = d + 1 := by
      rw [Nat.add_mul_div_right _ _ hlead, Nat.div_eq_of_lt hr, zero_add]
    have hmod : (r + (d + 1) * f.lead) % f.lead = r := by
      rw [Nat.add_mul_mod_self_right, Nat.mod_eq_of_lt hr]
    rw [hd, hsplit, hdiv, hmod, if_neg (by omega)]
    congr 2
    push_cast
    omega

/-- What decoding gives is a number of the format, its digits as they stand. -/
theorem magValue_eq (n : ℕ) :
    ∃ (m : ℕ) (k : ℤ), f.magValue (K := K) n = m * 2 ^ k ∧ f.qmin ≤ k ∧ m < 2 * f.lead
      ∧ (k = f.qmin ∨ f.lead ≤ m) ∧ n = m + (k - f.qmin).toNat * f.lead := by
  have hlead := f.lead_pos
  unfold magValue
  by_cases h0 : n / f.lead = 0
  · rw [if_pos h0]
    have hn : n < f.lead := by
      rcases Nat.div_eq_zero_iff.mp h0 with h | h
      · omega
      · exact h
    exact ⟨n, f.qmin, rfl, le_refl _, by omega, Or.inl rfl, by simp⟩
  · rw [if_neg h0]
    have hmod := Nat.mod_lt n hlead
    have hdm := Nat.div_add_mod n f.lead
    obtain ⟨d, hd⟩ : ∃ d, n / f.lead = d + 1 := ⟨n / f.lead - 1, by
      have := Nat.pos_of_ne_zero h0
      omega⟩
    rw [hd] at hdm ⊢
    have hexp : ((d + 1 : ℕ) : ℤ) - 1 + f.qmin - f.qmin = (d : ℤ) := by omega
    refine ⟨n % f.lead + f.lead, _, rfl, by omega, by omega, Or.inr (by omega), ?_⟩
    rw [hexp, Int.toNat_natCast]
    calc n = f.lead * (d + 1) + n % f.lead := hdm.symm
      _ = n % f.lead + f.lead + d * f.lead := by ring

theorem rep_natMul {m : ℕ} {k : ℤ} (hk : f.qmin ≤ k) (hm : m < 2 * f.lead) :
    Rep f ((m : K) * 2 ^ k) := by
  have hpos := two_zpow_pos (K := K) k
  refine rep_of_grid ⟨m, by push_cast; rfl⟩ hk ?_
  rw [abs_of_nonneg (by positivity), two_zpow_prec]
  exact mul_le_mul_of_nonneg_right (by exact_mod_cast hm.le) hpos.le

theorem rep_magValue (n : ℕ) : Rep f (f.magValue (K := K) n) := by
  obtain ⟨m, k, hv, hk, hm, -, -⟩ := magValue_eq (f := f) (K := K) n
  rw [hv]
  exact rep_natMul hk hm

theorem magValue_nonneg (n : ℕ) : 0 ≤ f.magValue (K := K) n := by
  obtain ⟨m, k, hv, -⟩ := magValue_eq (f := f) (K := K) n
  rw [hv]
  have := two_zpow_pos (K := K) k
  positivity

/-- **Encoding inverts decoding.** -/
theorem magBits_magValue (n : ℕ) : f.magBits (f.magValue (K := K) n) = n := by
  obtain ⟨m, k, hv, hk, hm, hfull, hn⟩ := magValue_eq (f := f) (K := K) n
  rw [hv, magBits_natMul hk hm hfull, ← hn]

theorem magBits_zero : f.magBits (0 : K) = 0 := by
  unfold magBits
  rw [quant_zero]
  simp

theorem magValue_eq_zero_iff (n : ℕ) : f.magValue (K := K) n = 0 ↔ n = 0 := by
  constructor
  · intro h
    have := magBits_magValue (f := f) (K := K) n
    rw [h, magBits_zero] at this
    exact this.symm
  · rintro rfl
    unfold magValue
    simp

/-- A magnitude below the overflow threshold has an exponent field to spare. -/
theorem magBits_lt {v : K} (hv : Rep f v) (h0 : 0 ≤ v) (hlt : v < 2 ^ (f.emax + 1)) :
    f.magBits v < (f.emax - f.emin + 2).toNat * f.lead := by
  obtain ⟨m, k, rfl, hk, hm, hfull, hkq⟩ := exists_natMul hv h0
  rw [magBits_natMul hk hm hfull]
  have hqmin := f.qmin_eq
  have hlt' := f.emin_lt
  -- the quantum is at most the top binade's
  have hktop : k ≤ f.emax - f.prec + 1 := by
    rw [hkq]
    refine quant_le (by omega) ?_
    rw [abs_of_nonneg h0]
    refine lt_of_lt_of_le hlt (two_zpow_le (by omega))
  obtain ⟨d, hd⟩ : ∃ d, (k - f.qmin).toNat = d := ⟨_, rfl⟩
  have hle : d + 2 ≤ (f.emax - f.emin + 2).toNat := by omega
  rw [hd]
  calc m + d * f.lead < 2 * f.lead + d * f.lead := by omega
    _ = (d + 2) * f.lead := by ring
    _ ≤ (f.emax - f.emin + 2).toNat * f.lead := Nat.mul_le_mul_right _ hle

/-- A field of `e` or more puts the magnitude in its binade or above. -/
theorem le_magValue {n e : ℕ} (he : 1 ≤ e) (h : e ≤ n / f.lead) :
    (2 : K) ^ (f.emin + e - 1) ≤ f.magValue n := by
  unfold magValue
  rw [if_neg (by omega)]
  have hpos := two_zpow_pos (K := K) (((n / f.lead : ℕ) : ℤ) - 1 + f.qmin)
  have hqmin := f.qmin_eq
  calc (2 : K) ^ (f.emin + e - 1)
      ≤ 2 ^ (((n / f.lead : ℕ) : ℤ) - 1 + f.qmin + f.prec - 1) := two_zpow_le (by omega)
    _ = f.lead * 2 ^ (((n / f.lead : ℕ) : ℤ) - 1 + f.qmin) := two_zpow_lead _
    _ ≤ _ := mul_le_mul_of_nonneg_right (by
        have h0 : (0 : K) ≤ ((n % f.lead : ℕ) : K) := Nat.cast_nonneg _
        push_cast at h0 ⊢
        linarith)
        hpos.le

/-- A field below `e` keeps it under. -/
theorem magValue_lt {n e : ℕ} (he : 1 ≤ e) (h : n / f.lead < e) :
    f.magValue n < (2 : K) ^ (f.emin + e - 1) := by
  have hlead := f.lead_pos
  have hqmin := f.qmin_eq
  obtain ⟨m, k, hv, hk, hm, hfull, hn⟩ := magValue_eq (f := f) (K := K) n
  have hpos := two_zpow_pos (K := K) k
  rw [hv]
  obtain ⟨d, hd⟩ : ∃ d, (k - f.qmin).toNat = d := ⟨_, rfl⟩
  rw [hd] at hn
  have hdiv : n / f.lead = m / f.lead + d := by rw [hn, Nat.add_mul_div_right _ _ hlead]
  have hmd : m < (m / f.lead + 1) * f.lead := by
    have := Nat.div_add_mod m f.lead
    have := Nat.mod_lt m hlead
    nlinarith
  by_cases hsub : m < f.lead
  · have hd0 : d = 0 := by
      have := hfull.resolve_right (not_le.mpr hsub)
      omega
    calc (m : K) * 2 ^ k < f.lead * 2 ^ k := mul_lt_mul_of_pos_right (by exact_mod_cast hsub) hpos
      _ = 2 ^ (k + f.prec - 1) := (two_zpow_lead k).symm
      _ ≤ 2 ^ (f.emin + e - 1) := two_zpow_le (by omega)
  · have hone : m / f.lead = 1 := by
      refine Nat.div_eq_of_lt_le (by omega) (by omega)
    calc (m : K) * 2 ^ k < (2 * f.lead : ℕ) * 2 ^ k :=
          mul_lt_mul_of_pos_right (by exact_mod_cast hm) hpos
      _ = 2 ^ (k + f.prec) := (two_zpow_prec k).symm
      _ ≤ 2 ^ (f.emin + e - 1) := two_zpow_le (by omega)

/-- Magnitudes are in the order of their bits. -/
theorem magValue_strictMono : StrictMono (f.magValue (K := K)) := by
  intro n m h
  have hdiv : n / f.lead ≤ m / f.lead := Nat.div_le_div_right h.le
  rcases hdiv.lt_or_eq with hlt | heq
  · have hpos : 1 ≤ m / f.lead := Nat.one_le_of_lt hlt
    exact (magValue_lt hpos hlt).trans_le (le_magValue hpos le_rfl)
  · -- one binade: the digits decide
    have hmod : n % f.lead < m % f.lead := by
      have hn := Nat.div_add_mod n f.lead
      have hm := Nat.div_add_mod m f.lead
      rw [heq] at hn
      omega
    unfold magValue
    rw [heq]
    split
    next => exact mul_lt_mul_of_pos_right (by exact_mod_cast h) (two_zpow_pos _)
    next =>
      refine mul_lt_mul_of_pos_right ?_ (two_zpow_pos _)
      exact_mod_cast Nat.add_lt_add_right hmod f.lead

end Format

end Rounding
