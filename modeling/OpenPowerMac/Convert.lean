/-
The conversion to an integer word.

`Converted` is what `ctiw` is to deliver: the operand rounded to an integer and saturated to
the word, and the flags. Below one half, below one and above it the code takes its guard and
sticky digits from different places; all three hold the same number (`ctiw_held`), and one
argument does the rest.
-/
import OpenPowerMac.Divide
import OpenPowerMac.FmaCore

set_option autoImplicit false

namespace OpenPowerMac

open Rounding

namespace Sf

/-! ## What is to be delivered -/

/-- Neither finite nor an infinity. -/
def NaND (f : U64) : Prop := 2047 * 2 ^ 52 < f.toNat % 2 ^ 63

instance (f : U64) : Decidable (NaND f) := inferInstanceAs (Decidable (_ < _))

/-- The operand, rounded to an integer. -/
def asInteger (rn : U32) (f : U64) : ℤ := (roundMode rn).toInt (valD f)

/-- A word has room for it. -/
def FitsWord (n : ℤ) : Prop := -2 ^ 31 ≤ n ∧ n ≤ 2 ^ 31 - 1

/-- The word that is to be delivered, as a signed number. -/
def wordOf (rn : U32) (f : U64) : ℤ :=
  if FiniteD f then max (-2 ^ 31) (min (2 ^ 31 - 1) (asInteger rn f))
  else if NaND f ∨ negD f then -2 ^ 31
  else 2 ^ 31 - 1

/-- **The requirement** on a conversion. -/
structure Converted (rn : U32) (f : U64) (r : R) : Prop where
  word : (r.bits.setWidth 32).toInt = wordOf rn f
  invalid : r.fl &&& kVxcvi ≠ 0#32 ↔ ¬ (FiniteD f ∧ FitsWord (asInteger rn f))
  inexact : r.fl &&& kXx ≠ 0#32 ↔
    FiniteD f ∧ FitsWord (asInteger rn f) ∧ (asInteger rn f : ℚ) ≠ valD f
  raised : r.fl &&& kFr ≠ 0#32 ↔
    FiniteD f ∧ FitsWord (asInteger rn f) ∧ |valD f| < |(asInteger rn f : ℚ)|

/-! ## The digits -/

/-- The guard and sticky digits that `ctiw` takes, and the digits above them. -/
structure CtiwDigits where
  whole : U64
  g : Bool
  x : Bool

/-- The digits of `ctiw`. -/
def ctiwDigits (b : Un) : CtiwDigits where
  whole := if b.e < 0 then 0#64 else b.m >>> (63 - b.e).toNat
  g :=
    if b.e < 0 then b.e = -1 && b.m >>> 63 != 0#64
    else (b.m <<< (64 - (63 - b.e).toNat)) >>> 63 != 0#64
  x :=
    if b.e < 0 then (if b.e = -1 then b.m <<< 1 != 0#64 else b.m != 0#64)
    else (b.m <<< (64 - (63 - b.e).toNat)) <<< 1 != 0#64

theorem ctiwInc_eq (rn : U32) (sign g x odd : Bool) (hrn : rn.toNat < 4) :
    ctiwInc rn sign g x odd = roundInc rn sign g false x odd (g || false || x) := by
  rcases rn_cases hrn with rfl | rfl | rfl | rfl <;> revert sign g x odd <;> decide

/-- What a left shift keeps. -/
theorem shiftLeft_low (m : U64) {n : ℕ} (hn : n ≤ 64) :
    (m <<< (64 - n)).toNat = m.toNat % 2 ^ n * 2 ^ (64 - n) := by
  rw [shiftLeft_toNat]
  conv_lhs => rw [pow_split hn]
  exact Nat.mul_mod_mul_right _ _ _

/-- The topmost of the bits that a right shift drops. -/
theorem guard_bit (m : U64) {k : ℕ} (hk : k < 63) :
    ((m <<< (64 - (k + 1))) >>> 63 != 0#64) = (m.toNat / 2 ^ k % 2 == 1) := by
  have hbit : ((m <<< (64 - (k + 1))) >>> 63).toNat = m.toNat / 2 ^ k % 2 := by
    have hsplit : 2 ^ 63 = 2 ^ k * 2 ^ (64 - (k + 1)) := by
      rw [← pow_add]
      congr 1
      omega
    rw [shiftRight_toNat, shiftLeft_low m (by omega), hsplit,
      Nat.mul_div_mul_right _ _ (Nat.two_pow_pos _), pow_succ, Nat.mod_mul_right_div_self]
  rw [bne_zero, hbit]
  rcases Nat.mod_two_eq_zero_or_one (m.toNat / 2 ^ k) with h | h <;> rw [h] <;> rfl

/-- The bits below it. -/
theorem rest_bits (m : U64) {k : ℕ} (hk : k < 63) :
    ((m <<< (64 - (k + 1))) <<< 1 != 0#64) = (m.toNat % 2 ^ k != 0) := by
  have hshift : (m <<< (64 - (k + 1))) <<< 1 = m <<< (64 - k) := by
    rw [← BitVec.shiftLeft_add]
    congr 1
    omega
  rw [hshift, bne_zero, shiftLeft_low m (by omega), Bool.eq_iff_iff, bne_iff_ne, bne_iff_ne, ne_eq,
    ne_eq, Nat.mul_eq_zero]
  have hpos := Nat.two_pow_pos (64 - k)
  omega

/-- The digits hold a magnitude up to the place of the half: `n` counts the halves. -/
def CtiwHeld (b : Un) (x : ℚ) : Prop :=
  ∃ n : ℕ, Held n (ctiwDigits b).x (2 * x) ∧ n / 2 = (ctiwDigits b).whole.toNat
    ∧ (ctiwDigits b).g = (n % 2 == 1) ∧ (ctiwDigits b).whole.toNat < 2 ^ 63

/-- Between one half and one, the leading one is the guard. -/
theorem ctiw_held_half {b : Un} {neg : Bool} {x : ℚ} (h : b.Holds neg x) (hone : b.e = -1) :
    CtiwHeld b x := by
  have hm := h.m
  have hlt := b.m.isLt
  have hneg : b.e < 0 := by omega
  have hx2 : 2 * x = (b.m.toNat : ℚ) / 2 ^ 63 := by
    rw [h.x, hone]
    norm_num
    ring
  have hheld := (Held.natCast (K := ℚ) b.m.toNat).shift 63
  rw [Bool.false_or] at hheld
  have hrest : (b.m <<< 1 != 0#64) = (b.m.toNat % 2 ^ 63 != 0) :=
    shiftLeft_ne_zero b.m (show 0 < 63 by decide) (show 63 < 64 by decide)
  have htop : b.m.toNat / 2 ^ 63 = 1 := by omega
  have hguard : (b.m >>> 63 != 0#64) = true := by
    rw [bne_zero, shiftRight_toNat, htop]
    rfl
  rw [← hx2, ← hrest, htop] at hheld
  unfold CtiwHeld ctiwDigits
  dsimp only
  rw [if_pos hneg, if_pos hneg, if_pos hneg, if_pos hone, hguard, decide_eq_true hone]
  exact ⟨1, hheld, rfl, rfl, by decide⟩

/-- Below one half there is only the sticky digit. -/
theorem ctiw_held_small {b : Un} {neg : Bool} {x : ℚ} (h : b.Holds neg x) (hsmall : b.e < -1) :
    CtiwHeld b x := by
  have hm := h.m
  have hneg : b.e < 0 := by omega
  have hone : ¬ b.e = -1 := by omega
  have hless : 2 * x < 1 := by
    have hpow : (2 : ℚ) ^ (b.e - 63) ≤ 2 ^ (-65 : ℤ) := two_zpow_le (by omega)
    have hmq : (b.m.toNat : ℚ) < 2 ^ (64 : ℤ) := by exact_mod_cast b.m.isLt
    have hmul : x < 2 ^ (64 : ℤ) * 2 ^ (-65 : ℤ) := by
      rw [h.x]
      exact lt_of_lt_of_le (mul_lt_mul_of_pos_right hmq (two_zpow_pos _))
        (mul_le_mul_of_nonneg_left hpow (two_zpow_pos _).le)
    rw [← two_zpow_add] at hmul
    norm_num at hmul
    linarith
  have hm0 : (b.m != 0#64) = true := by
    rw [bne_zero, bne_iff_ne]
    omega
  have hheld : Held 0 true (2 * x) := by
    apply Held.of_lt
    · push_cast
      linarith [h.pos]
    · push_cast
      linarith
  unfold CtiwHeld ctiwDigits
  dsimp only
  rw [if_pos hneg, if_pos hneg, if_pos hneg, if_neg hone, hm0, decide_eq_false hone]
  exact ⟨0, hheld, rfl, rfl, by decide⟩

/-- From one on, the shift by `63 - e` splits the digits at the point. -/
theorem ctiw_held_whole {b : Un} {neg : Bool} {x : ℚ} (h : b.Holds neg x) (hneg : ¬ b.e < 0)
    (he : b.e ≤ 62) : CtiwHeld b x := by
  have hlt := b.m.isLt
  obtain ⟨k, hk⟩ : ∃ k : ℕ, 63 - b.e = k + 1 := ⟨(62 - b.e).toNat, by omega⟩
  have hsh : (63 - b.e).toNat = k + 1 := by omega
  have hx2 : 2 * x = (b.m.toNat : ℚ) / 2 ^ k := by
    rw [h.x, show b.e - 63 = -((k : ℤ) + 1) by omega, zpow_neg, zpow_add₀ two_ne_zero,
      zpow_natCast]
    field_simp
  have hheld := (Held.natCast (K := ℚ) b.m.toNat).shift k
  rw [Bool.false_or, ← hx2] at hheld
  unfold CtiwHeld ctiwDigits
  dsimp only
  rw [if_neg hneg, if_neg hneg, if_neg hneg, hsh, rest_bits b.m (by omega),
    guard_bit b.m (by omega), shiftRight_toNat, pow_succ, ← Nat.div_div_eq_div_mul]
  refine ⟨b.m.toNat / 2 ^ k, hheld, rfl, rfl, ?_⟩
  have hpos := Nat.two_pow_pos k
  rw [Nat.div_div_eq_div_mul, Nat.div_lt_iff_lt_mul (by omega)]
  nlinarith

/-- **The digits hold the magnitude**, up to the place of the half. -/
theorem ctiw_held {b : Un} {neg : Bool} {x : ℚ} (h : b.Holds neg x) (he : b.e ≤ 62) :
    CtiwHeld b x := by
  by_cases hneg : b.e < 0
  · by_cases hone : b.e = -1
    · exact ctiw_held_half h hone
    · exact ctiw_held_small h (by omega)
  · exact ctiw_held_whole h hneg he

/-! ## The conversion -/

/-- A rounded magnitude: its digits and the increment. -/
theorem ctiw_rounded {b : Un} {neg : Bool} {x : ℚ} (h : b.Holds neg x) (he : b.e ≤ 62) {rn : U32}
    (hrn : rn.toNat < 4) {d : CtiwDigits} (hd : ctiwDigits b = d) {inc : Bool}
    (hinc : ctiwInc rn neg d.g d.x (d.whole &&& 1#64 != 0#64) = inc) :
    (magMode rn neg).toInt x = d.whole.toNat + inc.toNat
      ∧ ((d.g || d.x) = true ↔ ((d.whole.toNat + inc.toNat : ℕ) : ℚ) ≠ x)
      ∧ (inc = true ↔ x < ((d.whole.toNat + inc.toNat : ℕ) : ℚ)) := by
  obtain ⟨n, hheld, hwhole, hg, -⟩ := ctiw_held h he
  rw [hd] at hheld hwhole hg
  have hodd : (d.whole &&& 1#64 != 0#64) = (n / 2 % 2 == 1) := by
    have hbit := bit_eq d.whole 0
    rw [BitVec.ushiftRight_zero, pow_zero, Nat.div_one] at hbit
    rw [hbit, hwhole]
  have hround := roundInc_eq hrn neg hheld hg (r := false) (x := d.x) (Bool.false_or _) hodd
  rw [← ctiwInc_eq rn neg d.g d.x _ hrn, hinc, mul_div_cancel_left₀ x two_ne_zero, hwhole] at hround
  have hhalf := hheld.shift 1
  rw [pow_one, pow_one, mul_div_cancel_left₀ x two_ne_zero, hwhole] at hhalf
  have hsticky : (d.x || n % 2 != 0) = (d.g || d.x) := by
    rw [hg, Bool.or_comm]
    congr 1
    rcases Nat.mod_two_eq_zero_or_one n with h | h <;> rw [h] <;> rfl
  rw [hsticky] at hhalf
  have himp : inc = true → (d.g || d.x) = true := by
    intro hi
    rw [ctiwInc_eq rn neg d.g d.x _ hrn] at hinc
    have hinx := roundInc_inx (hinc.trans hi)
    rwa [Bool.or_false] at hinx
  exact ⟨hround, (hhalf.stepped_ne_iff himp).symm, hhalf.lt_stepped_iff.symm⟩

/-! ## Special operands -/

theorem expField_special {f : U64} (h : ¬ FiniteD f) : expField f = 0x7FF#11 := by
  unfold FiniteD at h
  rw [← BitVec.toNat_inj, expField_toNat]
  show _ = 2047
  omega

theorem unpack_nan {f : U64} (h : NaND f) : (unpack f).c.nan = true := by
  unfold NaND at h
  have he : expField f = 0x7FF#11 := expField_special (by unfold FiniteD; omega)
  have hf : fracField f ≠ 0#64 := by
    rw [ne_eq, ← BitVec.toNat_inj, fracField_toNat, BitVec.toNat_ofNat]
    omega
  unfold unpack
  dsimp only
  rw [if_pos he, if_neg hf]
  split_ifs <;> rfl

theorem unpack_inf {f : U64} (h : ¬ FiniteD f) (hn : ¬ NaND f) : (unpack f).c = .cInf := by
  have he := expField_special h
  unfold FiniteD at h
  unfold NaND at hn
  have hf : fracField f = 0#64 := by
    rw [← BitVec.toNat_inj, fracField_toNat, BitVec.toNat_ofNat]
    omega
  unfold unpack
  dsimp only
  rw [if_pos he, if_pos hf]

theorem unpack_zero_e {f : U64} (h : absD f = 0) : (unpack f).e = 0 := by
  rw [absD_eq_zero_iff] at h
  have he : expField f = 0#11 := by
    rw [← BitVec.toNat_inj, expField_toNat, h]
    rfl
  have hf : fracField f = 0#64 := by
    rw [← BitVec.toNat_inj, fracField_toNat, h]
    rfl
  unfold unpack
  dsimp only
  rw [he, hf, if_neg (by decide), if_pos rfl, if_pos rfl]

/-! ## The result word -/

/-- The greatest magnitude of a sign. -/
def wordLimit (neg : Bool) : ℕ := if neg then 2 ^ 31 else 2 ^ 31 - 1

/-- The word at the end of the range. -/
def saturated (neg : Bool) : U64 := if neg then 0x80000000#64 else 0x7FFFFFFF#64

theorem saturated_toNat (neg : Bool) : (saturated neg).toNat = wordLimit neg := by
  cases neg <;> rfl

/-- The upper word leaves the result alone. -/
theorem ctiwHi_word (w : U32) : (ctiwHi ||| w.setWidth 64).setWidth 32 = w := by
  have hhi : ctiwHi.setWidth 32 = 0#32 := by decide
  rw [BitVec.setWidth_or, hhi, BitVec.setWidth_setWidth_of_le _ (by decide), BitVec.setWidth_eq,
    BitVec.zero_or]

theorem saturated_word (neg : Bool) :
    ((ctiwHi ||| saturated neg).setWidth 32).toInt = if neg then -2 ^ 31 else 2 ^ 31 - 1 := by
  cases neg <;> decide

/-- A magnitude in range, negated where the sign asks for it. -/
theorem signedWord_toInt {neg : Bool} {mag : U64} (h : mag.toNat ≤ wordLimit neg) :
    (if neg then 0#32 - mag.setWidth 32 else mag.setWidth 32).toInt
      = if neg then -(mag.toNat : ℤ) else mag.toNat := by
  have hmod : (mag.setWidth 32).toNat = mag.toNat := by
    rw [BitVec.toNat_setWidth, Nat.mod_eq_of_lt]
    cases neg <;> unfold wordLimit at h <;> simp at h <;> omega
  cases neg with
  | false =>
      unfold wordLimit at h
      simp only [Bool.false_eq_true, if_false] at h ⊢
      rw [BitVec.toInt_eq_toNat_cond, hmod, if_pos (by omega)]
  | true =>
      unfold wordLimit at h
      simp only [if_true] at h ⊢
      rw [BitVec.toInt_eq_toNat_cond, BitVec.toNat_sub, hmod, BitVec.toNat_ofNat]
      split_ifs <;> omega

/-- What `ctiw` makes of the digits and the increment. -/
def ctiwPacked (sign : Bool) (d : CtiwDigits) (inc : Bool) : R :=
  let mag := d.whole + (if inc then 1#64 else 0#64)
  if mag > saturated sign then { bits := ctiwHi ||| saturated sign, fl := kVxcvi }
  else
    let res32 : U32 := if sign then 0#32 - mag.setWidth 32 else mag.setWidth 32
    { bits := ctiwHi ||| res32.setWidth 64
      fl := (if d.g || d.x then kXx else 0#32) ||| (if inc then kFr else 0#32) }

/-- A finite operand that may be in range goes by its digits. -/
theorem ctiw_digits {f : U64} {rn : U32} (hc : (unpack f).c = .cFin) (he : (unpack f).e ≤ 62) :
    ctiw f rn = ctiwPacked (unpack f).s (ctiwDigits (unpack f))
      (ctiwInc rn (unpack f).s (ctiwDigits (unpack f)).g (ctiwDigits (unpack f)).x
        ((ctiwDigits (unpack f)).whole &&& 1#64 != 0#64)) := by
  unfold ctiw
  dsimp only
  rw [if_neg (by rw [hc]; exact Bool.false_ne_true), if_neg (by rw [hc]; simpa using he),
    if_neg (by rw [hc]; exact Cls.noConfusion)]
  rfl

/-! ## The flags -/

/-- The flags of a result in range. -/
def ctiwFlags (inexact inc : Bool) : U32 :=
  (if inexact then kXx else 0#32) ||| (if inc then kFr else 0#32)

theorem ctiwFlags_invalid (inexact inc : Bool) : ¬ ctiwFlags inexact inc &&& kVxcvi ≠ 0#32 := by
  cases inexact <;> cases inc <;> decide

theorem ctiwFlags_inexact (inexact inc : Bool) :
    ctiwFlags inexact inc &&& kXx ≠ 0#32 ↔ inexact = true := by
  cases inexact <;> cases inc <;> decide

theorem ctiwFlags_raised (inexact inc : Bool) :
    ctiwFlags inexact inc &&& kFr ≠ 0#32 ↔ inc = true := by
  cases inexact <;> cases inc <;> decide

/-! ## The rounded operand -/

section Rounded

variable {rn : U32} {f : U64} {M : ℕ}

/-- The operand's integer, from its magnitude's. -/
theorem asInteger_eq (hM : (magMode rn (negD f)).toInt (absD f) = M) :
    asInteger rn f = if negD f then -(M : ℤ) else M := by
  unfold asInteger valD
  unfold magMode at hM
  cases hneg : negD f with
  | false =>
      rw [hneg, if_neg Bool.false_ne_true] at hM
      rw [if_neg Bool.false_ne_true, if_neg Bool.false_ne_true]
      exact hM
  | true =>
      rw [hneg, if_pos rfl] at hM
      rw [if_pos rfl, if_pos rfl, Mode.toInt_neg, hM]

theorem fitsWord_iff (hM : (magMode rn (negD f)).toInt (absD f) = M) :
    FitsWord (asInteger rn f) ↔ M ≤ wordLimit (negD f) := by
  rw [asInteger_eq hM]
  unfold FitsWord wordLimit
  cases negD f
  · simp only [Bool.false_eq_true, if_false]
    omega
  · simp only [if_true]
    omega

theorem asInteger_cast (hM : (magMode rn (negD f)).toInt (absD f) = M) :
    (asInteger rn f : ℚ) = signed (negD f) M := by
  rw [asInteger_eq hM]
  unfold signed
  cases negD f <;> simp

theorem asInteger_ne_iff (hM : (magMode rn (negD f)).toInt (absD f) = M) :
    (asInteger rn f : ℚ) ≠ valD f ↔ (M : ℚ) ≠ absD f := by
  rw [asInteger_cast hM, valD_eq]
  unfold signed
  cases negD f <;> simp

theorem abs_lt_asInteger_iff (hM : (magMode rn (negD f)).toInt (absD f) = M) :
    |valD f| < |(asInteger rn f : ℚ)| ↔ absD f < M := by
  rw [asInteger_cast hM, abs_valD, abs_signed _ (Nat.cast_nonneg M)]

/-- **Out of range**: the end of the range, and the invalid flag alone. -/
theorem converted_saturated (hfin : FiniteD f)
    (hM : (magMode rn (negD f)).toInt (absD f) = M) (hout : wordLimit (negD f) < M) :
    Converted rn f { bits := ctiwHi ||| saturated (negD f), fl := kVxcvi } := by
  have hfit : ¬ FitsWord (asInteger rn f) := by
    rw [fitsWord_iff hM]
    omega
  refine ⟨?_, ?_, ?_, ?_⟩
  · dsimp only
    unfold wordOf
    rw [saturated_word, if_pos hfin, asInteger_eq hM]
    unfold wordLimit at hout
    cases hneg : negD f with
    | false =>
        rw [hneg] at hout
        simp only [Bool.false_eq_true, if_false] at hout ⊢
        omega
    | true =>
        rw [hneg] at hout
        simp only [if_true] at hout ⊢
        omega
  · exact iff_of_true (show kVxcvi &&& kVxcvi ≠ 0#32 by decide) fun h => hfit h.2
  · exact iff_of_false (show ¬ kVxcvi &&& kXx ≠ 0#32 by decide) fun h => hfit h.2.1
  · exact iff_of_false (show ¬ kVxcvi &&& kFr ≠ 0#32 by decide) fun h => hfit h.2.1

/-- **In range**: the integer, and what the digits say of it. -/
theorem converted_inRange (hfin : FiniteD f) {mag : U64} {inexact inc : Bool}
    (hM : (magMode rn (negD f)).toInt (absD f) = mag.toNat) (hin : mag.toNat ≤ wordLimit (negD f))
    (hx : inexact = true ↔ (mag.toNat : ℚ) ≠ absD f) (hi : inc = true ↔ absD f < mag.toNat) {w : U32}
    (hw : w = if negD f then 0#32 - mag.setWidth 32 else mag.setWidth 32) :
    Converted rn f
      { bits := ctiwHi ||| w.setWidth 64, fl := ctiwFlags inexact inc } := by
  have hfit : FitsWord (asInteger rn f) := (fitsWord_iff hM).mpr hin
  refine ⟨?_, ?_, ?_, ?_⟩
  · dsimp only
    unfold wordOf
    rw [ctiwHi_word, hw, signedWord_toInt hin, if_pos hfin, ← asInteger_eq hM]
    unfold FitsWord at hfit
    omega
  · exact iff_of_false (ctiwFlags_invalid inexact inc) fun h => h ⟨hfin, hfit⟩
  · rw [asInteger_ne_iff hM, ← hx]
    dsimp only
    rw [ctiwFlags_inexact]
    exact ⟨fun h => ⟨hfin, hfit, h⟩, fun h => h.2.2⟩
  · rw [abs_lt_asInteger_iff hM, ← hi]
    dsimp only
    rw [ctiwFlags_raised]
    exact ⟨fun h => ⟨hfin, hfit, h⟩, fun h => h.2.2⟩

end Rounded

/-- **Neither finite nor in range**: an end of the range, and the invalid flag. -/
theorem converted_special {rn : U32} {f : U64} (h : ¬ FiniteD f) (neg : Bool)
    (hneg : neg = true ↔ NaND f ∨ negD f = true) {fl : U32} (hfl : fl = kVxcvi ∨ fl = kVxcvi ||| kVxsnan) :
    Converted rn f { bits := ctiwHi ||| saturated neg, fl := fl } := by
  obtain ⟨hv, hx, hr⟩ : fl &&& kVxcvi ≠ 0#32 ∧ ¬ fl &&& kXx ≠ 0#32 ∧ ¬ fl &&& kFr ≠ 0#32 := by
    rcases hfl with rfl | rfl <;> decide
  refine ⟨?_, iff_of_true hv fun hh => h hh.1, iff_of_false hx fun hh => h hh.1,
    iff_of_false hr fun hh => h hh.1⟩
  dsimp only
  unfold wordOf
  rw [saturated_word, if_neg h]
  exact if_congr hneg rfl rfl

/-- A large exponent is out of range whatever the mode. -/
theorem large_magnitude {b : Un} {neg : Bool} {x : ℚ} (h : b.Holds neg x) (he : 62 < b.e)
    (mode : Mode) : ∃ M : ℕ, mode.toInt x = M ∧ wordLimit neg < M := by
  have hx : (2 : ℚ) ^ (63 : ℤ) ≤ x := by
    have hm : (2 : ℚ) ^ (63 : ℤ) ≤ b.m.toNat := by exact_mod_cast h.m
    have hone : (1 : ℚ) ≤ 2 ^ (b.e - 63) := by
      have := two_zpow_le (K := ℚ) (show (0 : ℤ) ≤ b.e - 63 by omega)
      rwa [zpow_zero] at this
    rw [h.x]
    nlinarith [two_zpow_pos (K := ℚ) 63]
  have hclose := (abs_lt.mp (toInt_abs_lt mode x)).2
  have hgt : ((2 ^ 63 - 1 : ℤ) : ℚ) < (mode.toInt x : ℚ) := by
    push_cast
    norm_num at hx ⊢
    linarith
  have hgt' : 2 ^ 63 - 1 < mode.toInt x := by exact_mod_cast hgt
  refine ⟨(mode.toInt x).toNat, by omega, ?_⟩
  have hlim : wordLimit neg ≤ 2 ^ 31 := by cases neg <;> decide
  omega

/-- A zero converts to zero. -/
theorem converted_zero {f : U64} {rn : U32} (hfin : FiniteD f) (h0 : absD f = 0) :
    Converted rn f (ctiw f rn) := by
  have hc := unpack_zero h0
  have hM : (magMode rn (negD f)).toInt (absD f) = (0#64).toNat := by
    rw [h0]
    exact_mod_cast Mode.toInt_intCast (K := ℚ) _ 0
  have hz : ctiw f rn = { bits := ctiwHi ||| (0#32).setWidth 64, fl := ctiwFlags false false } := by
    unfold ctiw
    dsimp only
    rw [hc, unpack_zero_e h0]
    rfl
  rw [hz]
  apply converted_inRange hfin hM (Nat.zero_le _)
  · simp [h0]
  · simp [h0]
  · cases negD f <;> rfl

/-- Digits in range and out of it. -/
theorem converted_packed {f : U64} {rn : U32} (hfin : FiniteD f)
    (hh : (unpack f).Holds (negD f) (absD f)) (he : (unpack f).e ≤ 62) (hrn : rn.toNat < 4) {inc : Bool}
    (hinc : ctiwInc rn (negD f) (ctiwDigits (unpack f)).g (ctiwDigits (unpack f)).x
      ((ctiwDigits (unpack f)).whole &&& 1#64 != 0#64) = inc) :
    Converted rn f (ctiwPacked (negD f) (ctiwDigits (unpack f)) inc) := by
  obtain ⟨-, -, -, -, hwhole⟩ := ctiw_held hh he
  obtain ⟨d, hd⟩ : ∃ d, ctiwDigits (unpack f) = d := ⟨_, rfl⟩
  rw [hd] at hinc hwhole ⊢
  obtain ⟨hM, hx, hi⟩ := ctiw_rounded hh he hrn hd hinc
  have hmag : (d.whole + (if inc then 1#64 else 0#64)).toNat = d.whole.toNat + inc.toNat := by
    rw [BitVec.toNat_add]
    cases inc <;> simp <;> omega
  rw [← hmag] at hx hi
  rw [← Nat.cast_add, ← hmag] at hM
  unfold ctiwPacked
  dsimp only
  by_cases hout : d.whole + (if inc then 1#64 else 0#64) > saturated (negD f)
  · rw [if_pos hout]
    rw [gt_iff_lt, BitVec.lt_def, saturated_toNat] at hout
    exact converted_saturated hfin hM hout
  · rw [if_neg hout]
    rw [gt_iff_lt, BitVec.lt_def, saturated_toNat, not_lt] at hout
    exact converted_inRange hfin hM hout hx hi rfl

/-- **The conversion is exact**: the operand rounded to an integer and saturated, and the
flags. -/
theorem ctiw_converted (f : U64) (rn : U32) (hrn : rn.toNat < 4) : Converted rn f (ctiw f rn) := by
  by_cases hfin : FiniteD f
  · by_cases h0 : absD f = 0
    · exact converted_zero hfin h0
    · have hh := unpack_holds hfin h0
      by_cases he : 62 < (unpack f).e
      · -- out of range by the exponent alone
        obtain ⟨M, hM, hout⟩ := large_magnitude hh he (magMode rn (negD f))
        have hbig : ctiw f rn = { bits := ctiwHi ||| saturated (negD f), fl := kVxcvi } := by
          unfold ctiw
          dsimp only
          rw [if_neg (by rw [hh.c]; exact Bool.false_ne_true), if_pos (Or.inr he), hh.s]
          rfl
        rw [hbig]
        exact converted_saturated hfin hM hout
      · rw [ctiw_digits hh.c (not_lt.mp he), hh.s]
        exact converted_packed hfin hh (not_lt.mp he) hrn rfl
  · unfold ctiw
    dsimp only
    by_cases hn : NaND f
    · rw [if_pos (unpack_nan hn)]
      refine converted_special hfin true (iff_of_true rfl (Or.inl hn)) ?_
      split_ifs
      · exact Or.inr rfl
      · exact Or.inl rfl
    · have hc := unpack_inf hfin hn
      rw [if_neg (by rw [hc]; exact Bool.false_ne_true), if_pos (Or.inl hc), unpack_s]
      exact converted_special hfin _ ⟨Or.inr, fun h => h.resolve_left hn⟩ (Or.inl rfl)

theorem ctiw_converted_half :
    (2#32).toNat < 4 ∧ Converted 2#32 0x3FE0000000000000#64 (ctiw 0x3FE0000000000000#64 2#32) :=
  ⟨by decide, ctiw_converted 0x3FE0000000000000#64 2#32 (by decide)⟩

end Sf

end OpenPowerMac
