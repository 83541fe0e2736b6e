/-
The single format in a register: `loadSingle` and `storeSingle` of `core/src/softfp.cpp`.

A single is held as the double of the same value, a NaN as the double of the same digits. A store
gives the single back, whatever it is: a denormal single is a normal double, which the store shifts
back down by what the load shifted it up.
-/
import OpenPowerMac.AltiVecConvert

set_option autoImplicit false

namespace OpenPowerMac

open Rounding Sf Vec

/-! ## What a pattern stands for -/

/-- A number with its sign, which zero has too, an infinity, or a NaN with its digits after the
point, the first of which says that it is quiet. -/
inductive Datum where
  | number (neg : Bool) (mag : ℚ)
  | infinity (neg : Bool)
  | nan (neg : Bool) (digits : ℚ)

/-- What a single stands for. -/
def datumS (w : U32) : Datum :=
  if FiniteS w then .number (negS w) (absS w)
  else if w.toNat % 2 ^ 23 = 0 then .infinity (negS w)
  else .nan (negS w) (((w.toNat % 2 ^ 23 : ℕ) : ℚ) / 2 ^ 23)

/-- What a double stands for. -/
def datumD (d : U64) : Datum :=
  if FiniteD d then .number (negD d) (absD d)
  else if d.toNat % 2 ^ 52 = 0 then .infinity (negD d)
  else .nan (negD d) (((d.toNat % 2 ^ 52 : ℕ) : ℚ) / 2 ^ 52)

/-! ## Fields -/

/-- The sign of a single as a number. -/
def signS (w : U32) : ℕ := if negS w then 1 else 0

theorem single_fields (w : U32) : w.toNat
    = signS w * 2 ^ 31 + (w.toNat % 2 ^ 31 / 2 ^ 23 * 2 ^ 23 + w.toNat % 2 ^ 23) := by
  have hw := w.isLt
  unfold signS negS
  rw [BitVec.msb_eq_decide]
  by_cases h : 2 ^ 31 ≤ w.toNat
  · rw [if_pos (decide_eq_true h)]
    omega
  · rw [if_neg (by rw [decide_eq_true_iff]; exact h)]
    omega

theorem signS_le (w : U32) : signS w ≤ 1 := by
  unfold signS
  split <;> decide

/-- The sign, the exponent and the digits of a double put together. -/
theorem double_fields {s x y : U64} {S E F : ℕ} (hs : s.toNat = S * 2 ^ 63)
    (hx : x.toNat = E * 2 ^ 52) (hy : y.toNat = F) (hE : E < 2048) (hF : F < 2 ^ 52) :
    (s ||| x ||| y).toNat = S * 2 ^ 63 + (E * 2 ^ 52 + F) := by
  rw [BitVec.or_assoc]
  exact or_toNat _ _ hs (or_toNat _ _ hx hy hF) (by omega)

theorem sign_toNat (w : U32) : ((w >>> 31).setWidth 64 <<< 63 : U64).toNat = signS w * 2 ^ 63 := by
  rw [sign_up, signS]
  split <;> rfl

theorem digits_toNat (w : U32) (n : ℕ) (h : w.toNat % 2 ^ 23 * 2 ^ n < 2 ^ 64) :
    ((w &&& 0x7FFFFF#32).setWidth 64 <<< n : U64).toNat = w.toNat % 2 ^ 23 * 2 ^ n := by
  have hf : w.toNat % 2 ^ 23 < 2 ^ 23 := Nat.mod_lt _ (by decide)
  rw [BitVec.toNat_shiftLeft, Nat.shiftLeft_eq, BitVec.toNat_setWidth, fraction_up,
    Nat.mod_eq_of_lt (show w.toNat % 2 ^ 23 < 2 ^ 64 by omega), Nat.mod_eq_of_lt h]

theorem exponent_eq_iff (w : U32) {n : ℕ} (hn : n < 2 ^ 32) :
    (w >>> 23) &&& 0xFF#32 = BitVec.ofNat 32 n ↔ w.toNat % 2 ^ 31 / 2 ^ 23 = n := by
  rw [← BitVec.toNat_inj, exponent_up, BitVec.toNat_ofNat, Nat.mod_eq_of_lt hn]

/-! ## Loads -/

/-- An infinity or a NaN is loaded with its digits at the top. -/
theorem loadSingle_special {w : U32} (h : w.toNat % 2 ^ 31 / 2 ^ 23 = 255) :
    (loadSingle w).toNat = signS w * 2 ^ 63 + (2047 * 2 ^ 52 + w.toNat % 2 ^ 23 * 2 ^ 29) := by
  have hf : w.toNat % 2 ^ 23 < 2 ^ 23 := Nat.mod_lt _ (by decide)
  unfold loadSingle
  dsimp only
  rw [if_pos ((exponent_eq_iff w (by decide)).mpr h)]
  exact double_fields (sign_toNat w) rfl (digits_toNat w 29 (by omega)) (by decide) (by omega)

theorem loadSingle_normal {w : U32} (h : w.toNat % 2 ^ 31 / 2 ^ 23 ≠ 255)
    (h0 : w.toNat % 2 ^ 31 / 2 ^ 23 ≠ 0) : (loadSingle w).toNat = signS w * 2 ^ 63
      + ((w.toNat % 2 ^ 31 / 2 ^ 23 + 896) * 2 ^ 52 + w.toNat % 2 ^ 23 * 2 ^ 29) := by
  have hf : w.toNat % 2 ^ 23 < 2 ^ 23 := Nat.mod_lt _ (by decide)
  have hexp := exponent_up w
  have hfield : (((w >>> 23) &&& 0xFF#32) + 896#32).toNat = w.toNat % 2 ^ 31 / 2 ^ 23 + 896 := by
    rw [BitVec.toNat_add, hexp]
    change (_ + 896) % 2 ^ 32 = _
    omega
  unfold loadSingle
  dsimp only
  rw [if_neg (fun heq => h ((exponent_eq_iff w (by decide)).mp heq)),
    if_neg (fun heq => h0 ((exponent_eq_iff w (by decide)).mp heq))]
  refine double_fields (sign_toNat w) ?_ (digits_toNat w 29 (by omega)) (by omega) (by omega)
  rw [BitVec.toNat_shiftLeft, Nat.shiftLeft_eq, BitVec.toNat_setWidth, hfield]
  omega

/-- No exponent is zero and all ones. -/
theorem not_special {w : U32} (h0 : w.toNat % 2 ^ 31 / 2 ^ 23 = 0) :
    (w >>> 23) &&& 0xFF#32 ≠ 255#32 := by
  intro heq
  rw [(exponent_eq_iff w (by decide)).mp heq] at h0
  exact absurd h0 (by decide)

theorem loadSingle_zero {w : U32} (h0 : w.toNat % 2 ^ 31 / 2 ^ 23 = 0)
    (hf : w.toNat % 2 ^ 23 = 0) :
    (loadSingle w).toNat = signS w * 2 ^ 63 := by
  unfold loadSingle
  dsimp only
  have hnone : w &&& 0x7FFFFF#32 = 0#32 := BitVec.eq_of_toNat_eq ((fraction_up w).trans hf)
  rw [if_neg (not_special h0), if_pos ((exponent_eq_iff w (by decide)).mpr h0), if_pos hnone]
  exact sign_toNat w

/-- A denormal is loaded with its leading digit in front of the point. -/
theorem loadSingle_denormal {w : U32} (h0 : w.toNat % 2 ^ 31 / 2 ^ 23 = 0)
    (hf : w.toNat % 2 ^ 23 ≠ 0) : ∃ m ≤ 22,
      2 ^ 52 ≤ w.toNat % 2 ^ 23 * 2 ^ (52 - m) ∧ w.toNat % 2 ^ 23 * 2 ^ (52 - m) < 2 ^ 53
      ∧ (loadSingle w).toNat = signS w * 2 ^ 63
        + ((874 + m) * 2 ^ 52 + (w.toNat % 2 ^ 23 * 2 ^ (52 - m) - 2 ^ 52)) := by
  have hlt : w.toNat % 2 ^ 23 < 2 ^ 23 := Nat.mod_lt _ (by decide)
  obtain ⟨f, hw⟩ : ∃ f, w.toNat % 2 ^ 23 = f := ⟨_, rfl⟩
  rw [hw] at hf hlt ⊢
  have hm : f.log2 ≤ 22 := Nat.lt_succ_iff.mp ((Nat.log2_lt hf).mpr hlt)
  have hle : 2 ^ f.log2 ≤ f := Nat.log2_self_le hf
  have hup : f < 2 ^ (f.log2 + 1) := Nat.lt_log2_self
  have hlow : 2 ^ 52 ≤ f * 2 ^ (52 - f.log2) := by
    calc 2 ^ 52 = 2 ^ f.log2 * 2 ^ (52 - f.log2) := by rw [← pow_add]; congr 1; omega
      _ ≤ f * 2 ^ (52 - f.log2) := Nat.mul_le_mul_right _ hle
  have hhigh : f * 2 ^ (52 - f.log2) < 2 ^ 53 := by
    calc f * 2 ^ (52 - f.log2) < 2 ^ (f.log2 + 1) * 2 ^ (52 - f.log2) :=
          Nat.mul_lt_mul_of_pos_right hup (Nat.two_pow_pos _)
      _ = 2 ^ 53 := by rw [← pow_add]; congr 1; omega
  refine ⟨f.log2, hm, hlow, hhigh, ?_⟩
  have hsome : w &&& 0x7FFFFF#32 ≠ 0#32 := by
    intro heq
    have hz := fraction_up w
    rw [heq, hw] at hz
    exact hf hz.symm
  unfold loadSingle
  dsimp only
  rw [if_neg (not_special h0), if_pos ((exponent_eq_iff w (by decide)).mpr h0), if_neg hsome,
    fraction_up, hw]
  refine double_fields (sign_toNat w) ?_ ?_ (by omega) (by omega)
  · have hexp : ((f.log2 : ℤ) - 149 + 1023) = ((874 + f.log2 : ℕ) : ℤ) := by omega
    rw [hexp, BitVec.ofInt_natCast, BitVec.toNat_shiftLeft, Nat.shiftLeft_eq, BitVec.toNat_ofNat]
    omega
  · rw [BitVec.toNat_and, digits_toNat w _ (by rw [hw]; omega), hw,
      show (0x000FFFFFFFFFFFFF#64).toNat = 2 ^ 52 - 1 from rfl, Nat.and_two_pow_sub_one_eq_mod]
    omega

/-! ## Stores -/

/-- The denormal arm of `storeSingle`, on the fields of a double. -/
theorem storeSingle_denormal {S E F : ℕ} {d : U64} (hE : 874 ≤ E) (hE' : E ≤ 896)
    (hF : F < 2 ^ 52) (hd : d.toNat = S * 2 ^ 63 + (E * 2 ^ 52 + F)) :
    (storeSingle d).toNat = S * 2 ^ 31 + (2 ^ 52 + F) / 2 ^ (926 - E) := by
  have hlt := d.isLt
  have hexp : ((d >>> 52).setWidth 32 &&& 0x7FF#32).toNat = E := by
    rw [BitVec.toNat_and, show (0x7FF#32).toNat = 2 ^ 11 - 1 from rfl,
      Nat.and_two_pow_sub_one_eq_mod, BitVec.toNat_setWidth, BitVec.toNat_ushiftRight,
      Nat.shiftRight_eq_div_pow, hd]
    omega
  have hsign : ((d >>> 63).setWidth 32 <<< 31).toNat = S * 2 ^ 31 := by
    rw [BitVec.toNat_shiftLeft, Nat.shiftLeft_eq, BitVec.toNat_setWidth, BitVec.toNat_ushiftRight,
      Nat.shiftRight_eq_div_pow, hd]
    omega
  have hnz : d &&& 0x7FFFFFFFFFFFFFFF#64 ≠ 0#64 := by
    intro heq
    have hz := congrArg BitVec.toNat heq
    rw [BitVec.toNat_and, show (0x7FFFFFFFFFFFFFFF#64).toNat = 2 ^ 63 - 1 from rfl,
      Nat.and_two_pow_sub_one_eq_mod, hd] at hz
    simp only [BitVec.toNat_ofNat] at hz
    omega
  -- the hidden one goes in front of the fraction before the shift
  have hfrac : ((1#64 <<< 52) ||| (d &&& 0x000FFFFFFFFFFFFF#64)).toNat = 1 * 2 ^ 52 + F := by
    refine or_toNat _ _ rfl ?_ hF
    rw [BitVec.toNat_and, show (0x000FFFFFFFFFFFFF#64).toNat = 2 ^ 52 - 1 from rfl,
      Nat.and_two_pow_sub_one_eq_mod, hd]
    omega
  have hshift : (2 ^ 52 + F) / 2 ^ (926 - E) < 2 ^ 23 := by
    rw [Nat.div_lt_iff_lt_mul (Nat.two_pow_pos _)]
    calc 2 ^ 52 + F < 2 ^ 23 * 2 ^ 30 := by omega
      _ ≤ 2 ^ 23 * 2 ^ (926 - E) :=
        Nat.mul_le_mul_left _ (Nat.pow_le_pow_right (by decide) (by omega))
  unfold storeSingle
  dsimp only
  rw [if_neg, if_pos]
  · refine or_toNat _ _ hsign ?_ (show (2 ^ 52 + F) / 2 ^ (926 - E) < 2 ^ 31 by omega)
    rw [hexp, BitVec.toNat_and, BitVec.toNat_setWidth, BitVec.toNat_ushiftRight, hfrac,
      Nat.shiftRight_eq_div_pow, show (0x7FFFFF#32).toNat = 2 ^ 23 - 1 from rfl,
      Nat.and_two_pow_sub_one_eq_mod, show 896 + 1 - E + 29 = 926 - E by omega, one_mul,
      Nat.mod_eq_of_lt (hshift.trans (by decide)), Nat.mod_eq_of_lt hshift]
  · rw [BitVec.le_def, hexp]
    exact hE
  · rintro (h | h)
    · rw [BitVec.lt_def, hexp] at h
      exact absurd hE' (not_le.mpr h)
    · exact hnz h

theorem storeSingle_zero {S : ℕ} {d : U64} (hd : d.toNat = S * 2 ^ 63) :
    (storeSingle d).toNat = S * 2 ^ 31 := by
  have hlt := d.isLt
  have hz : d &&& 0x7FFFFFFFFFFFFFFF#64 = 0#64 := by
    apply BitVec.eq_of_toNat_eq
    rw [BitVec.toNat_and, show (0x7FFFFFFFFFFFFFFF#64).toNat = 2 ^ 63 - 1 from rfl,
      Nat.and_two_pow_sub_one_eq_mod, hd]
    simp only [BitVec.toNat_ofNat]
    omega
  unfold storeSingle
  dsimp only
  rw [if_pos (Or.inr hz)]
  have hhigh : ((d >>> 62).setWidth 32 <<< 30).toNat = 2 * S * 2 ^ 30 := by
    rw [BitVec.toNat_shiftLeft, Nat.shiftLeft_eq, BitVec.toNat_setWidth, BitVec.toNat_ushiftRight,
      Nat.shiftRight_eq_div_pow, hd]
    omega
  have hlow : ((d >>> 29).setWidth 32 &&& 0x3FFFFFFF#32).toNat = 0 := by
    rw [BitVec.toNat_and, show (0x3FFFFFFF#32).toNat = 2 ^ 30 - 1 from rfl,
      Nat.and_two_pow_sub_one_eq_mod, BitVec.toNat_setWidth, BitVec.toNat_ushiftRight,
      Nat.shiftRight_eq_div_pow, hd]
    omega
  rw [or_toNat _ _ hhigh hlow (by decide)]
  omega

/-! ## Together -/

theorem storeSingle_loadSingle (w : U32) : storeSingle (loadSingle w) = w := by
  have hw := single_fields w
  have hs := signS_le w
  have hlt := w.isLt
  have hf : w.toNat % 2 ^ 23 < 2 ^ 23 := Nat.mod_lt _ (by decide)
  apply BitVec.eq_of_toNat_eq
  by_cases h255 : w.toNat % 2 ^ 31 / 2 ^ 23 = 255
  · have h := storeSingle_high (by decide) (by decide) hf (loadSingle_special h255)
    omega
  by_cases h0 : w.toNat % 2 ^ 31 / 2 ^ 23 = 0
  · by_cases hz : w.toNat % 2 ^ 23 = 0
    · have h := storeSingle_zero (loadSingle_zero h0 hz)
      omega
    · obtain ⟨m, hm, hlow, hhigh, hd⟩ := loadSingle_denormal h0 hz
      have h := storeSingle_denormal (by omega) (by omega) (by omega) hd
      have hsh : 926 - (874 + m) = 52 - m := by omega
      have hback : (2 ^ 52 + (w.toNat % 2 ^ 23 * 2 ^ (52 - m) - 2 ^ 52)) / 2 ^ (52 - m)
          = w.toNat % 2 ^ 23 := by
        rw [Nat.add_sub_cancel' hlow]
        exact Nat.mul_div_cancel _ (Nat.two_pow_pos _)
      rw [hsh, hback] at h
      omega
  · have h := storeSingle_high (by omega) (by omega) hf (loadSingle_normal h255 h0)
    omega

/-- A load keeps what its operand stands for. -/
theorem datumD_loadSingle (w : U32) : datumD (loadSingle w) = datumS w := by
  have hs := signS_le w
  unfold datumS
  by_cases hfin : FiniteS w
  · have hup : loadSingle w = encD (negS w) (absS w) := up_eq hfin
    have hmag : MagD (absS w) := (magS_absS hfin).magD
    rw [if_pos hfin, hup, datumD, if_pos (finiteD_encD _ hmag), negD_encD _ hmag, absD_encD _ hmag]
  · have h255 : w.toNat % 2 ^ 31 / 2 ^ 23 = 255 := by
      have hlt := w.isLt
      unfold FiniteS at hfin
      omega
    have hd := loadSingle_special h255
    have hf : w.toNat % 2 ^ 23 < 2 ^ 23 := Nat.mod_lt _ (by decide)
    have hneg : negD (loadSingle w) = negS w := by
      have hw := single_fields w
      rw [negD, negS, BitVec.msb_eq_decide, BitVec.msb_eq_decide, decide_eq_decide]
      omega
    have hdig : (loadSingle w).toNat % 2 ^ 52 = w.toNat % 2 ^ 23 * 2 ^ 29 := by omega
    have hinf : ¬ FiniteD (loadSingle w) := by
      unfold FiniteD
      omega
    rw [if_neg hfin, datumD, if_neg hinf, hdig, hneg]
    by_cases hz : w.toNat % 2 ^ 23 = 0
    · rw [if_pos hz, if_pos (by omega)]
    · rw [if_neg hz, if_neg (by omega)]
      congr 1
      push_cast
      ring

/-- **The round trip.** A single that is loaded stands for what it did and is stored as it was, and
a register that a single was loaded in holds that double again after a store and a load. -/
theorem single_roundTrip :
    (∀ w : U32, storeSingle (loadSingle w) = w)
      ∧ (∀ w : U32, datumD (loadSingle w) = datumS w)
      ∧ ∀ f : U64, (∃ w, f = loadSingle w) → loadSingle (storeSingle f) = f := by
  refine ⟨storeSingle_loadSingle, datumD_loadSingle, ?_⟩
  rintro f ⟨w, rfl⟩
  rw [storeSingle_loadSingle]

/-- The least denormal. -/
theorem single_roundTrip_least :
    loadSingle (storeSingle (loadSingle 1#32)) = loadSingle 1#32 :=
  single_roundTrip.2.2 _ ⟨1#32, rfl⟩

end OpenPowerMac
