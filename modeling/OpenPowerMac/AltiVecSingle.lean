/-
A lane of singles through the software floating point.

`up` gives the double of a single's value, `dn` the single of a double that is one,
and `rsp` between them is rounding to nearest, on the host's arm and on the slow one.
-/
import OpenPowerMac.AltiVecFloat
import OpenPowerMac.Arith

set_option autoImplicit false

namespace OpenPowerMac

open Rounding Sf

namespace Vec

/-! ## Fields -/

/-- Fields laid side by side. -/
theorem or_toNat {n : ℕ} (x y : BitVec n) {k a b : ℕ} (hx : x.toNat = a * 2 ^ k) (hy : y.toNat = b)
    (hb : b < 2 ^ k) : (x ||| y).toNat = a * 2 ^ k + b := by
  rw [BitVec.toNat_or, hx, hy, Nat.mul_comm, ← Nat.two_pow_add_eq_or_of_lt hb]

/-- A normal double of its fields. -/
theorem encD_fields {neg : Bool} {e f : ℕ} {d : U64} (he : 1 ≤ e) (hf : f < 2 ^ 52)
    (hd : d.toNat = e * 2 ^ 52 + f) :
    (if neg then kSignBit else 0#64) ||| d = encD neg (((f + 2 ^ 52 : ℕ) : ℚ) * 2 ^ ((e : ℤ) - 1075)) := by
  have hbits : dbl.magBits (((f + 2 ^ 52 : ℕ) : ℚ) * 2 ^ ((e : ℤ) - 1075)) = e * 2 ^ 52 + f := by
    rw [dbl_magBits (by omega) (by omega) (Or.inr (by omega))]
    have hexp : ((e : ℤ) - 1075 + 1074).toNat = e - 1 := by omega
    rw [hexp]
    omega
  unfold encD
  rw [hbits]
  exact ofNat_or_sign _ _ hd

/-- A magnitude moved up to its leading digit, under an exponent. -/
theorem scaled_eq (neg : Bool) {mag : U64} {e : ℤ} {E : ℕ} (h0 : mag.toNat ≠ 0)
    (hlt : mag.toNat < 2 ^ 53) (hE : (E : ℤ) = 1023 + mag.toNat.log2 + e) (hE1 : 1 ≤ E)
    (hE2 : E < 2048) :
    (if neg then kSignBit else 0#64) ||| ((BitVec.ofNat 64 E <<< 52)
        ||| ((mag <<< (52 - mag.toNat.log2)) &&& 0x000FFFFFFFFFFFFF#64))
      = encD neg (mag.toNat * 2 ^ e) := by
  obtain ⟨L, hL⟩ : ∃ L, mag.toNat.log2 = L := ⟨_, rfl⟩
  have hlog := Nat.log2_self_le h0
  have hlog' := Nat.lt_log2_self (n := mag.toNat)
  have hL53 : L < 53 := by rw [← hL]; exact (Nat.log2_lt h0).mpr hlt
  rw [hL] at hlog hlog' hE ⊢
  have hge : 2 ^ 52 ≤ mag.toNat * 2 ^ (52 - L) := by
    calc 2 ^ 52 = 2 ^ L * 2 ^ (52 - L) := by rw [← pow_add]; congr 1; omega
      _ ≤ mag.toNat * 2 ^ (52 - L) := Nat.mul_le_mul_right _ hlog
  have hlt' : mag.toNat * 2 ^ (52 - L) < 2 ^ 53 := by
    calc mag.toNat * 2 ^ (52 - L) < 2 ^ (L + 1) * 2 ^ (52 - L) :=
          Nat.mul_lt_mul_of_pos_right hlog' (Nat.two_pow_pos _)
      _ = 2 ^ 53 := by rw [← pow_add]; congr 1; omega
  obtain ⟨f, hf⟩ : ∃ f, mag.toNat * 2 ^ (52 - L) = f + 2 ^ 52 := ⟨_, (Nat.sub_add_cancel hge).symm⟩
  have hfrac : ((mag <<< (52 - L)) &&& 0x000FFFFFFFFFFFFF#64).toNat = f := by
    rw [BitVec.toNat_and, show (0x000FFFFFFFFFFFFF#64).toNat = 2 ^ 52 - 1 from rfl,
      Nat.and_two_pow_sub_one_eq_mod, BitVec.toNat_shiftLeft, Nat.shiftLeft_eq, hf]
    omega
  have hfield : (BitVec.ofNat 64 E <<< 52).toNat = E * 2 ^ 52 := by
    rw [BitVec.toNat_shiftLeft, Nat.shiftLeft_eq, BitVec.toNat_ofNat]
    omega
  have hval : (mag.toNat : ℚ) * 2 ^ e = ((f + 2 ^ 52 : ℕ) : ℚ) * 2 ^ ((E : ℤ) - 1075) := by
    have hexp : (E : ℤ) - 1075 = e - (52 - L : ℕ) := by omega
    rw [hexp, ← hf, zpow_sub₀ two_ne_zero, zpow_natCast]
    push_cast
    field_simp
  rw [hval]
  exact encD_fields hE1 (by omega) (or_toNat _ _ hfield hfrac (by omega))

/-- `fixedBits` is the integer over the power of two. -/
theorem fixedBits_eq (neg : Bool) {mag : U64} (scale : ℕ) (h0 : mag.toNat ≠ 0) (hlt : mag.toNat < 2 ^ 53)
    (hscale : scale ≤ 1000) :
    (if neg then kSignBit else 0#64) ||| fixedBits mag mag.toNat.log2 scale
      = encD neg ((mag.toNat : ℚ) / 2 ^ scale) := by
  have hL53 : mag.toNat.log2 < 53 := (Nat.log2_lt h0).mpr hlt
  have hval : (mag.toNat : ℚ) / 2 ^ scale = mag.toNat * 2 ^ (-(scale : ℤ)) := by
    rw [zpow_neg, zpow_natCast, div_eq_mul_inv]
  rw [hval]
  exact scaled_eq neg h0 hlt (by omega) (by omega) (by omega)

/-! ## Up -/

/-- A single's value, from its fields. -/
theorem absS_eq (w : U32) :
    absS w = if w.toNat % 2 ^ 31 / 2 ^ 23 = 0 then ((w.toNat % 2 ^ 23 : ℕ) : ℚ) * 2 ^ (-149 : ℤ)
      else ((w.toNat % 2 ^ 23 + 2 ^ 23 : ℕ) : ℚ) * 2 ^ (((w.toNat % 2 ^ 31 / 2 ^ 23 : ℕ) : ℤ) - 150) := by
  have hlead : sgl.lead = 2 ^ 23 := rfl
  have hmod : w.toNat % 2 ^ 31 % 2 ^ 23 = w.toNat % 2 ^ 23 := by omega
  unfold absS Format.magValue
  rw [hlead, hmod]
  by_cases h : w.toNat % 2 ^ 31 / 2 ^ 23 = 0
  · have hlow : w.toNat % 2 ^ 31 = w.toNat % 2 ^ 23 := by omega
    rw [if_pos h, if_pos h, hlow]
    rfl
  · have hq : ((w.toNat % 2 ^ 31 / 2 ^ 23 : ℕ) : ℤ) - 1 + sgl.qmin
        = ((w.toNat % 2 ^ 31 / 2 ^ 23 : ℕ) : ℤ) - 150 := by
      rw [show sgl.qmin = -149 from rfl]
      omega
    rw [if_neg h, if_neg h, hq]

theorem sign_up (w : U32) :
    (w >>> 31).setWidth 64 <<< 63 = if negS w then kSignBit else 0#64 := by
  have hw := w.isLt
  apply BitVec.eq_of_toNat_eq
  rw [BitVec.toNat_shiftLeft, Nat.shiftLeft_eq, BitVec.toNat_setWidth, BitVec.toNat_ushiftRight,
    Nat.shiftRight_eq_div_pow, negS, BitVec.msb_eq_decide]
  by_cases h : 2 ^ 31 ≤ w.toNat
  · rw [if_pos (decide_eq_true h), kSignBit_toNat]
    omega
  · rw [if_neg (by rw [decide_eq_true_iff]; exact h)]
    change _ = 0
    omega

theorem exponent_up (w : U32) : ((w >>> 23) &&& 0xFF#32).toNat = w.toNat % 2 ^ 31 / 2 ^ 23 := by
  rw [BitVec.toNat_and, show (0xFF#32).toNat = 2 ^ 8 - 1 from rfl, Nat.and_two_pow_sub_one_eq_mod,
    BitVec.toNat_ushiftRight, Nat.shiftRight_eq_div_pow]
  omega

theorem fraction_up (w : U32) : (w &&& 0x7FFFFF#32).toNat = w.toNat % 2 ^ 23 := by
  rw [BitVec.toNat_and, show (0x7FFFFF#32).toNat = 2 ^ 23 - 1 from rfl,
    Nat.and_two_pow_sub_one_eq_mod]

/-- **`up` keeps the value.** -/
theorem up_eq {w : U32} (h : FiniteS w) : up w = encD (negS w) (absS w) := by
  obtain ⟨e, he⟩ : ∃ e, w.toNat % 2 ^ 31 / 2 ^ 23 = e := ⟨_, rfl⟩
  obtain ⟨f, hf⟩ : ∃ f, w.toNat % 2 ^ 23 = f := ⟨_, rfl⟩
  have hf23 : f < 2 ^ 23 := hf ▸ Nat.mod_lt _ (by decide)
  have hexp := exponent_up w
  have hfrac := fraction_up w
  unfold FiniteS at h
  rw [he] at hexp h
  rw [hf] at hfrac
  have hne : ∀ n : ℕ, n < 2 ^ 32 → e ≠ n → (w >>> 23) &&& 0xFF#32 ≠ BitVec.ofNat 32 n := by
    intro n hn hen heq
    rw [← BitVec.toNat_inj, hexp, BitVec.toNat_ofNat, Nat.mod_eq_of_lt hn] at heq
    exact hen heq
  unfold up loadSingle
  dsimp only
  rw [sign_up, if_neg (hne 255 (by decide) (by omega)), absS_eq, he, hf]
  by_cases he0 : e = 0
  · have hzero : (w >>> 23) &&& 0xFF#32 = 0#32 := BitVec.eq_of_toNat_eq (hexp.trans he0)
    rw [if_pos hzero, if_pos he0]
    by_cases hf0 : f = 0
    · have hnone : w &&& 0x7FFFFF#32 = 0#32 := BitVec.eq_of_toNat_eq (hfrac.trans hf0)
      rw [if_pos hnone, hf0, Nat.cast_zero, zero_mul]
      unfold encD
      rw [Format.magBits_zero]
      exact BitVec.or_zero.symm
    · -- a denormal: its digits are moved up to the leading one
      obtain ⟨g, hg⟩ : ∃ g : U64, g = (w &&& 0x7FFFFF#32).setWidth 64 := ⟨_, rfl⟩
      have hgf : g.toNat = f := by
        rw [hg, BitVec.toNat_setWidth, hfrac, Nat.mod_eq_of_lt (by omega)]
      have hlog : (w &&& 0x7FFFFF#32).toNat.log2 = g.toNat.log2 := by rw [hfrac, hgf]
      have hfixed := fixedBits_eq (negS w) 149 (show g.toNat ≠ 0 by omega) (by omega) (by decide)
      have hexp0 : ((g.toNat.log2 : ℤ) - 149 + 1023) = ((1023 + g.toNat.log2 - 149 : ℕ) : ℤ) := by omega
      have hsome : w &&& 0x7FFFFF#32 ≠ 0#32 := by
        intro h0
        rw [h0] at hfrac
        exact hf0 hfrac.symm
      rw [if_neg hsome, hlog, ← hg, hexp0, BitVec.ofInt_natCast, BitVec.or_assoc]
      refine hfixed.trans ?_
      rw [hgf, zpow_neg, ← div_eq_mul_inv]
      norm_cast
  · have hfield : (((w >>> 23) &&& 0xFF#32) + 896#32).toNat = e + 896 := by
      rw [BitVec.toNat_add, hexp]
      change (e + 896) % 2 ^ 32 = _
      omega
    have hval : ((f + 2 ^ 23 : ℕ) : ℚ) * 2 ^ ((e : ℤ) - 150)
        = ((f * 2 ^ 29 + 2 ^ 52 : ℕ) : ℚ) * 2 ^ (((e + 896 : ℕ) : ℤ) - 1075) := by
      have hz : (2 : ℚ) ^ ((e : ℤ) - 150) = 2 ^ (29 : ℤ) * 2 ^ (((e + 896 : ℕ) : ℤ) - 1075) := by
        have hsum : (e : ℤ) - 150 = 29 + (((e + 896 : ℕ) : ℤ) - 1075) := by omega
        rw [hsum]
        exact two_zpow_add _ _
      have hdigits : f * 2 ^ 29 + 2 ^ 52 = (f + 2 ^ 23) * 2 ^ 29 := by omega
      have hpow : ((2 ^ 29 : ℕ) : ℚ) = 2 ^ (29 : ℤ) := by norm_num
      rw [hz, hdigits, Nat.cast_mul, hpow, mul_assoc]
    rw [if_neg (hne 0 (by decide) he0), if_neg he0, hval, BitVec.or_assoc]
    refine encD_fields (by omega) (by omega) (or_toNat _ _ ?_ ?_ (by omega))
    · rw [BitVec.toNat_shiftLeft, Nat.shiftLeft_eq, BitVec.toNat_setWidth, hfield]
      omega
    · rw [BitVec.toNat_shiftLeft, Nat.shiftLeft_eq, BitVec.toNat_setWidth, hfrac]
      omega

/-! ## Down -/

/-- The arm of `storeSingle` that moves the fields over as they are. -/
theorem storeSingle_high {S E f : ℕ} {d : U64} (hE : 897 ≤ E) (hE' : E < 2048)
    (hf : f < 2 ^ 23) (hd : d.toNat = S * 2 ^ 63 + (E * 2 ^ 52 + f * 2 ^ 29)) :
    (storeSingle d).toNat = (2 * S + E / 1024) * 2 ^ 30 + (E * 2 ^ 23 + f) % 2 ^ 30 := by
  have hlt := d.isLt
  have hexp : ((d >>> 52).setWidth 32 &&& 0x7FF#32).toNat = E := by
    rw [BitVec.toNat_and, show (0x7FF#32).toNat = 2 ^ 11 - 1 from rfl, Nat.and_two_pow_sub_one_eq_mod,
      BitVec.toNat_setWidth, BitVec.toNat_ushiftRight, Nat.shiftRight_eq_div_pow, hd]
    omega
  have hhigh : ((d >>> 62).setWidth 32 <<< 30).toNat = (2 * S + E / 1024) * 2 ^ 30 := by
    rw [BitVec.toNat_shiftLeft, Nat.shiftLeft_eq, BitVec.toNat_setWidth, BitVec.toNat_ushiftRight,
      Nat.shiftRight_eq_div_pow, hd]
    omega
  have hlow : ((d >>> 29).setWidth 32 &&& 0x3FFFFFFF#32).toNat = (E * 2 ^ 23 + f) % 2 ^ 30 := by
    rw [BitVec.toNat_and, show (0x3FFFFFFF#32).toNat = 2 ^ 30 - 1 from rfl,
      Nat.and_two_pow_sub_one_eq_mod, BitVec.toNat_setWidth, BitVec.toNat_ushiftRight,
      Nat.shiftRight_eq_div_pow, hd]
    omega
  unfold storeSingle
  dsimp only
  rw [if_pos (Or.inl ?_), or_toNat _ _ hhigh hlow (Nat.mod_lt _ (by decide))]
  rw [BitVec.lt_def, hexp]
  exact hE

/-- The normal doubles among them. -/
theorem storeSingle_normal {S E f : ℕ} {d : U64} (hE : 897 ≤ E) (hE' : E ≤ 1150)
    (hf : f < 2 ^ 23) (hd : d.toNat = S * 2 ^ 63 + (E * 2 ^ 52 + f * 2 ^ 29)) :
    (storeSingle d).toNat = S * 2 ^ 31 + ((E - 896) * 2 ^ 23 + f) := by
  rw [storeSingle_high hE (by omega) hf hd]
  omega

/-- **`dn` keeps a normal single.** -/
theorem dn_encD (neg : Bool) {v : ℚ} (h : MagS v) (hv : 2 ^ (-126 : ℤ) ≤ v) :
    dn (encD neg v) = encS neg v := by
  obtain ⟨m, k, hmk, hk, hm, hfull, -⟩ := Format.exists_natMul h.rep h.nonneg
  have hk : -149 ≤ k := hk
  have hm : m < 2 * 2 ^ 23 := hm
  have hpos := two_zpow_pos (K := ℚ) k
  -- the leading digit is there, and the exponent is in range
  have hlead : 2 ^ 23 ≤ m := by
    rcases hfull with hmin | hlead
    · by_contra hlt
      have hmq : (m : ℚ) < 2 ^ (23 : ℤ) := by exact_mod_cast not_le.mp hlt
      have hmin : k = -149 := hmin
      have hsmall := mul_lt_mul_of_pos_right hmq hpos
      rw [← hmk, hmin, ← two_zpow_add] at hsmall
      exact absurd hv (not_le.mpr hsmall)
    · exact hlead
  have htop : k ≤ 104 := by
    by_contra hgt
    have hmq : (2 : ℚ) ^ (23 : ℤ) ≤ m := by exact_mod_cast hlead
    have hbig := mul_le_mul_of_nonneg_right hmq hpos.le
    rw [← hmk, ← two_zpow_add] at hbig
    have hpow : (2 : ℚ) ^ (128 : ℤ) ≤ 2 ^ (23 + k) := two_zpow_le (by omega)
    exact absurd h.lt (not_lt.mpr (hpow.trans hbig))
  obtain ⟨E, hE⟩ : ∃ E : ℕ, (E : ℤ) = k + 1046 := ⟨(k + 1046).toNat, by omega⟩
  obtain ⟨f, hf⟩ : ∃ f, m = f + 2 ^ 23 := ⟨m - 2 ^ 23, by omega⟩
  have hsgl : sgl.magBits v = (E - 896) * 2 ^ 23 + f := by
    have hbits : sgl.magBits v = m + (k - -149).toNat * 2 ^ 23 := by
      rw [hmk]
      exact Format.magBits_natMul (f := sgl) hk hm (Or.inr hlead)
    rw [hbits]
    omega
  have hdbl : dbl.magBits v = E * 2 ^ 52 + f * 2 ^ 29 := by
    have hval : v = ((m * 2 ^ 29 : ℕ) : ℚ) * 2 ^ (k - 29) := by
      have hpow : ((2 ^ 29 : ℕ) : ℚ) = 2 ^ (29 : ℤ) := by norm_num
      rw [Nat.cast_mul, hpow, mul_assoc, ← two_zpow_add, add_sub_cancel, hmk]
    rw [hval, dbl_magBits (by omega) (by omega) (Or.inr (by omega))]
    omega
  apply BitVec.eq_of_toNat_eq
  have hd : (encD neg v).toNat = (if neg then 1 else 0) * 2 ^ 63 + (E * 2 ^ 52 + f * 2 ^ 29) := by
    rw [← hdbl]
    refine (signMag_toNat kSignBit_toNat neg h.magD.bits_lt').trans ?_
    cases neg <;> rfl
  have hs : (encS neg v).toNat = (if neg then 1 else 0) * 2 ^ 31 + ((E - 896) * 2 ^ 23 + f) := by
    rw [← hsgl]
    refine (signMag_toNat kSignBitS_toNat neg h.bits_lt').trans ?_
    cases neg <;> rfl
  rw [hs]
  exact storeSingle_normal (by omega) (by omega) (by omega) hd

/-! ## Rounding to single -/

theorem vecEnv_std : vecEnv.Std := ⟨by decide, rfl, rfl, rfl⟩

theorem rspModel_bits {fb : U64} (hfin : FiniteD fb) (h0 : valD fb ≠ 0)
    (hlt : sgl.round .nearest |valD fb| < 2 ^ (128 : ℤ)) :
    (rspModel fb vecEnv).bits = encD (decide (valD fb < 0)) (sgl.round .nearest |valD fb|) := by
  have hmode : magMode vecEnv.rn (decide (valD fb < 0)) = .nearest := by
    unfold magMode
    split <;> rfl
  rw [rspModel_eq hfin h0 vecEnv_std false, ieee_of_ne_zero h0, hmode]
  have hno : ¬ 2 ^ (Tgt.Sgl.format.emax + 1) ≤ Tgt.Sgl.format.round .nearest |valD fb| := not_le.mpr hlt
  unfold Format.deliver
  dsimp only
  rw [if_neg hno]
  rfl

/-- Rounding to nearest does not look at the sign. -/
theorem abs_round_nearest (x : ℚ) : |sgl.round .nearest x| = sgl.round .nearest |x| := by
  have hnonneg : ∀ y : ℚ, 0 ≤ y → 0 ≤ sgl.round .nearest y := fun y hy =>
    Format.le_round_of_le Format.rep_zero hy
  rcases le_total 0 x with hx | hx
  · rw [abs_of_nonneg hx, abs_of_nonneg (hnonneg x hx)]
  · have hflip := Format.round_flip (f := sgl) .nearest (-x)
    rw [neg_neg] at hflip
    rw [abs_of_nonpos hx, hflip, abs_neg]
    exact abs_of_nonneg (hnonneg _ (by linarith))

/-- The single nearest to a number short of overflow. -/
theorem ieeeS_eq (zneg : Bool) {x : ℚ} (h0 : x ≠ 0) (hlt : sgl.round .nearest |x| < 2 ^ (128 : ℤ)) :
    ieeeS zneg x = encS (decide (x < 0)) (sgl.round .nearest |x|) := by
  have hin : |sgl.round .nearest x| < 2 ^ (sgl.emax + 1) := by
    rw [abs_round_nearest]
    exact hlt
  unfold ieeeS
  rw [if_neg h0, if_pos hin, abs_round_nearest]

theorem magS_round {x : ℚ} (hlt : sgl.round .nearest |x| < 2 ^ (128 : ℤ)) :
    MagS (sgl.round .nearest |x|) :=
  ⟨Format.round_rep _ _, Format.le_round_of_le Format.rep_zero (abs_nonneg x), hlt⟩

/-- **`rsp` rounds to nearest** on either arm. -/
theorem rsp_bits (h : Host) (off : U32) {fb : U64} (hfin : FiniteD fb) (h0 : valD fb ≠ 0)
    (hlt : sgl.round .nearest |valD fb| < 2 ^ (128 : ℤ)) :
    (rsp h off fb vecEnv).bits = encD (decide (valD fb < 0)) (sgl.round .nearest |valD fb|) := by
  have hslow := rspModel_bits hfin h0 hlt
  have hmag := magS_round hlt
  have hwide : h.widen (h.narrow fb)
      = encD (decide (valD fb < 0)) (sgl.round .nearest |valD fb|) := by
    rw [h.narrow_eq fb hfin, ieeeS_eq _ h0 hlt, h.widen_eq _ (finiteS_encS _ hmag),
      negS_encS _ hmag, absS_encS _ hmag]
  unfold rsp
  split
  next =>
    unfold rspFast
    dsimp only
    split
    next =>
      split
      next => exact hwide
      next => exact hslow
    next => exact hslow
  next => exact hslow

/-- **A number rounded into a lane**: from its double to the single nearest. -/
theorem dn_rsp (h : Host) (off : U32) (zneg : Bool) {fb : U64} (hfin : FiniteD fb)
    (hlow : 2 ^ (-126 : ℤ) ≤ |valD fb|) (hlt : sgl.round .nearest |valD fb| < 2 ^ (128 : ℤ)) :
    dn (rsp h off fb vecEnv).bits = ieeeS zneg (valD fb) := by
  have hpos := two_zpow_pos (K := ℚ) (-126)
  have h0 : valD fb ≠ 0 := by
    intro h0
    rw [h0, abs_zero] at hlow
    linarith
  have hge : 2 ^ (-126 : ℤ) ≤ sgl.round .nearest |valD fb| :=
    Format.le_round_of_le (Format.rep_two_zpow (by decide)) hlow
  rw [rsp_bits h off hfin h0 hlt, dn_encD _ (magS_round hlt) hge, ieeeS_eq zneg h0 hlt]

end Vec

end OpenPowerMac
