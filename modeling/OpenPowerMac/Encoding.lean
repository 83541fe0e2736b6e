/-
Reading back an encoding.

A word made of a sign and a magnitude has that sign and that magnitude, and every
finite word is made so. Doubles and singles differ in their width and format only,
so what is said of them is said once, of a sign and magnitude in any width.
-/
import OpenPowerMac.HostFloat

set_option autoImplicit false

namespace OpenPowerMac

open Rounding

namespace Sf

/-! ## A sign bit over a magnitude -/

section SignMagnitude

variable {w : ℕ} {s : BitVec (w + 1)}

/-- The number of such a word: the sign bit stands above every bit of the magnitude. -/
theorem signMag_toNat (hs : s.toNat = 2 ^ w) (neg : Bool) {n : ℕ} (h : n < 2 ^ w) :
    ((if neg then s else 0) ||| BitVec.ofNat (w + 1) n).toNat = (if neg then 2 ^ w else 0) + n := by
  have hn : n % 2 ^ (w + 1) = n :=
    Nat.mod_eq_of_lt (h.trans (Nat.pow_lt_pow_right one_lt_two (Nat.lt_succ_self w)))
  rw [BitVec.toNat_or, BitVec.toNat_ofNat, hn]
  cases neg with
  | false => simp
  | true =>
      rw [if_pos rfl, if_pos rfl, hs]
      have := Nat.two_pow_add_eq_or_of_lt h 1
      rw [mul_one] at this
      exact this.symm

/-- The sign reads back. -/
theorem signMag_msb (hs : s.toNat = 2 ^ w) (neg : Bool) {n : ℕ} (h : n < 2 ^ w) :
    ((if neg then s else 0) ||| BitVec.ofNat (w + 1) n).msb = neg := by
  rw [BitVec.msb_eq_decide, signMag_toNat hs neg h, Nat.add_sub_cancel]
  cases neg with
  | false => simpa using h
  | true => simp

/-- So does the magnitude. -/
theorem signMag_mod (hs : s.toNat = 2 ^ w) (neg : Bool) {n : ℕ} (h : n < 2 ^ w) :
    ((if neg then s else 0) ||| BitVec.ofNat (w + 1) n).toNat % 2 ^ w = n := by
  rw [signMag_toNat hs neg h]
  cases neg with
  | false => simpa using Nat.mod_eq_of_lt h
  | true =>
      rw [if_pos rfl, Nat.add_mod_left]
      exact Nat.mod_eq_of_lt h

end SignMagnitude

/-! ## Doubles -/

/-- A magnitude below the overflow threshold. -/
structure MagD (v : ℚ) : Prop where
  rep : Format.Rep dbl v
  nonneg : 0 ≤ v
  lt : v < 2 ^ (1024 : ℤ)

/-- Its exponent field is below the one of infinities and NaNs. -/
theorem MagD.bits_lt {v : ℚ} (h : MagD v) : dbl.magBits v < 2047 * 2 ^ 52 :=
  Format.magBits_lt (f := dbl) h.rep h.nonneg h.lt

/-- It leaves the sign bit free. -/
theorem MagD.bits_lt' {v : ℚ} (h : MagD v) : dbl.magBits v < 2 ^ 63 := by
  have := h.bits_lt
  omega

theorem kSignBit_toNat : kSignBit.toNat = 2 ^ 63 := rfl

/-- A double reads back as the sign it was made of, -/
theorem negD_encD (neg : Bool) {v : ℚ} (h : MagD v) : negD (encD neg v) = neg :=
  signMag_msb kSignBit_toNat neg h.bits_lt'

theorem encD_mod (neg : Bool) {v : ℚ} (h : MagD v) : (encD neg v).toNat % 2 ^ 63 = dbl.magBits v :=
  signMag_mod kSignBit_toNat neg h.bits_lt'

/-- and as the magnitude. -/
theorem absD_encD (neg : Bool) {v : ℚ} (h : MagD v) : absD (encD neg v) = v := by
  unfold absD
  rw [encD_mod neg h]
  exact Format.magValue_magBits h.rep h.nonneg

/-- What is encoded is finite. -/
theorem finiteD_encD (neg : Bool) {v : ℚ} (h : MagD v) : FiniteD (encD neg v) := by
  have := h.bits_lt
  unfold FiniteD
  rw [encD_mod neg h]
  omega

/-! Turning the sign bit over. -/

/-- The sign is the other one, -/
theorem negD_xor (f : U64) : negD (f ^^^ kSignBit) = !negD f := by
  unfold negD
  rw [BitVec.msb_xor, show kSignBit.msb = true from rfl, Bool.xor_true]

theorem mod_xor (f : U64) : (f ^^^ kSignBit).toNat % 2 ^ 63 = f.toNat % 2 ^ 63 := by
  rw [BitVec.toNat_xor, Nat.xor_mod_two_pow, kSignBit_toNat, Nat.mod_self, Nat.xor_zero]

/-- the magnitude is the same. -/
theorem absD_xor (f : U64) : absD (f ^^^ kSignBit) = absD f := by
  unfold absD
  rw [mod_xor]

theorem finiteD_xor (f : U64) : FiniteD (f ^^^ kSignBit) ↔ FiniteD f := by
  unfold FiniteD
  rw [mod_xor]

/-- Turning the sign bit over negates the value. -/
theorem valD_xor (f : U64) : valD (f ^^^ kSignBit) = -valD f := by
  unfold valD
  rw [negD_xor, absD_xor]
  cases negD f
  · rfl
  · exact (neg_neg _).symm

/-! ## Singles -/

/-- A single's magnitude below the overflow threshold. -/
structure MagS (v : ℚ) : Prop where
  rep : Format.Rep sgl v
  nonneg : 0 ≤ v
  lt : v < 2 ^ (128 : ℤ)

/-- Its exponent field is below the one of infinities and NaNs. -/
theorem MagS.bits_lt {v : ℚ} (h : MagS v) : sgl.magBits v < 255 * 2 ^ 23 :=
  Format.magBits_lt (f := sgl) h.rep h.nonneg h.lt

theorem MagS.bits_lt' {v : ℚ} (h : MagS v) : sgl.magBits v < 2 ^ 31 := by
  have := h.bits_lt
  omega

theorem kSignBitS_toNat : kSignBitS.toNat = 2 ^ 31 := rfl

/-- A single reads back as the sign it was made of, -/
theorem negS_encS (neg : Bool) {v : ℚ} (h : MagS v) : negS (encS neg v) = neg :=
  signMag_msb kSignBitS_toNat neg h.bits_lt'

theorem encS_mod (neg : Bool) {v : ℚ} (h : MagS v) : (encS neg v).toNat % 2 ^ 31 = sgl.magBits v :=
  signMag_mod kSignBitS_toNat neg h.bits_lt'

/-- and as the magnitude. -/
theorem absS_encS (neg : Bool) {v : ℚ} (h : MagS v) : absS (encS neg v) = v := by
  unfold absS
  rw [encS_mod neg h]
  exact Format.magValue_magBits h.rep h.nonneg

theorem finiteS_encS (neg : Bool) {v : ℚ} (h : MagS v) : FiniteS (encS neg v) := by
  have := h.bits_lt
  unfold FiniteS
  rw [encS_mod neg h]
  omega

/-- A single's magnitude is a double's. -/
theorem MagS.magD {v : ℚ} (h : MagS v) : MagD v :=
  ⟨Format.Rep.widen (f := sgl) (g := dbl) (by decide) (by decide) h.rep, h.nonneg,
    h.lt.trans_le (two_zpow_le (by norm_num))⟩

end Sf

end OpenPowerMac
