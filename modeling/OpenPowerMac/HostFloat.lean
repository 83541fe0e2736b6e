/-
Doubles and floats as bit patterns, and what the host is relied on for.

A bit pattern's value is the interchange decoding of its magnitude with its sign
bit. `Host` is the machine the emulator runs on, as far as the fast paths of the
software floating point use it: the operations are taken as they come, and the
laws say that on finite operands each delivers the IEEE-754 result in
round-to-nearest-even. Nothing is asked of them on infinities and NaNs, which no
fast path feeds them, but the widening of an infinity.
-/
import OpenPowerMac.Word
import OpenPowerMac.Interchange
import Mathlib.Data.Rat.Floor

set_option autoImplicit false

namespace OpenPowerMac

open Rounding

namespace Sf

/-! ## The two formats -/

/-- Double precision. -/
def dbl : Format where
  prec := 53
  emin := -1022
  emax := 1023
  three_le := by norm_num
  emin_lt := by norm_num

/-- Single precision. -/
def sgl : Format where
  prec := 24
  emin := -126
  emax := 127
  three_le := by norm_num
  emin_lt := by norm_num

def kSignBit : U64 := 0x8000000000000000#64
def kInf : U64 := 0x7FF0000000000000#64

/-- The sign bit of a single. -/
def kSignBitS : U32 := 0x80000000#32

/-- A single's infinity. -/
def kInfS : U32 := 0x7F800000#32

/-- A double's sign, magnitude and value. -/
def negD (x : U64) : Bool := x.msb

def absD (x : U64) : ℚ := dbl.magValue (x.toNat % 2 ^ 63)

def valD (x : U64) : ℚ := if negD x then -absD x else absD x

/-- Neither an infinity nor a NaN. -/
def FiniteD (x : U64) : Prop := x.toNat % 2 ^ 63 / 2 ^ 52 < 2047

instance (x : U64) : Decidable (FiniteD x) := inferInstanceAs (Decidable (_ < _))

/-- A single's sign, magnitude and value. -/
def negS (x : U32) : Bool := x.msb

def absS (x : U32) : ℚ := sgl.magValue (x.toNat % 2 ^ 31)

def valS (x : U32) : ℚ := if negS x then -absS x else absS x

def FiniteS (x : U32) : Prop := x.toNat % 2 ^ 31 / 2 ^ 23 < 255

instance (x : U32) : Decidable (FiniteS x) := inferInstanceAs (Decidable (_ < _))

/-- The double of a sign and a magnitude. -/
def encD (neg : Bool) (v : ℚ) : U64 :=
  (if neg then kSignBit else 0#64) ||| BitVec.ofNat 64 (dbl.magBits v)

def encS (neg : Bool) (v : ℚ) : U32 :=
  (if neg then kSignBitS else 0#32) ||| BitVec.ofNat 32 (sgl.magBits v)

/-- The IEEE-754 double of an exact result, to nearest: `zneg` is the sign a zero
result takes. -/
def ieeeD (zneg : Bool) (x : ℚ) : U64 :=
  if x = 0 then encD zneg 0
  else if |dbl.round .nearest x| < 2 ^ (dbl.emax + 1) then
    encD (decide (x < 0)) |dbl.round .nearest x|
  else (if x < 0 then kSignBit else 0#64) ||| kInf

/-- The IEEE-754 single of an exact result, to nearest. -/
def ieeeS (zneg : Bool) (x : ℚ) : U32 :=
  if x = 0 then encS zneg 0
  else if |sgl.round .nearest x| < 2 ^ (sgl.emax + 1) then
    encS (decide (x < 0)) |sgl.round .nearest x|
  else (if x < 0 then kSignBitS else 0#32) ||| kInfS

/-! ## The host -/

/-- The host's floating point, and the laws it keeps. -/
structure Host where
  /-- `kHaveFma`: there is a fused multiply-add unit. -/
  haveFma : Bool
  addD : U64 → U64 → U64
  mulD : U64 → U64 → U64
  fmaD : U64 → U64 → U64 → U64
  addS : U32 → U32 → U32
  fmaS : U32 → U32 → U32 → U32
  /-- `static_cast<float>`. -/
  narrow : U64 → U32
  /-- `static_cast<double>`. -/
  widen : U32 → U64
  addD_eq : ∀ x y, FiniteD x → FiniteD y →
    addD x y = ieeeD (negD x && negD y) (valD x + valD y)
  mulD_eq : ∀ x y, FiniteD x → FiniteD y →
    mulD x y = ieeeD (negD x != negD y) (valD x * valD y)
  fmaD_eq : ∀ x y z, FiniteD x → FiniteD y → FiniteD z →
    fmaD x y z = ieeeD ((negD x != negD y) && negD z) (valD x * valD y + valD z)
  addS_eq : ∀ x y, FiniteS x → FiniteS y →
    addS x y = ieeeS (negS x && negS y) (valS x + valS y)
  fmaS_eq : ∀ x y z, FiniteS x → FiniteS y → FiniteS z →
    fmaS x y z = ieeeS ((negS x != negS y) && negS z) (valS x * valS y + valS z)
  narrow_eq : ∀ x, FiniteD x → narrow x = ieeeS (negD x) (valD x)
  widen_eq : ∀ x, FiniteS x → widen x = encD (negS x) (absS x)
  widen_inf : ∀ x, x &&& 0x7FFFFFFF#32 = kInfS → widen x &&& ~~~kSignBit = kInf

/-- A host that is its own specification. -/
def softHost : Host where
  haveFma := true
  addD x y := ieeeD (negD x && negD y) (valD x + valD y)
  mulD x y := ieeeD (negD x != negD y) (valD x * valD y)
  fmaD x y z := ieeeD ((negD x != negD y) && negD z) (valD x * valD y + valD z)
  addS x y := ieeeS (negS x && negS y) (valS x + valS y)
  fmaS x y z := ieeeS ((negS x != negS y) && negS z) (valS x * valS y + valS z)
  narrow x := ieeeS (negD x) (valD x)
  widen x :=
    if x &&& 0x7FFFFFFF#32 = kInfS then kInf else encD (negS x) (absS x)
  addD_eq _ _ _ _ := rfl
  mulD_eq _ _ _ _ := rfl
  fmaD_eq _ _ _ _ _ _ := rfl
  addS_eq _ _ _ _ := rfl
  fmaS_eq _ _ _ _ _ _ := rfl
  narrow_eq _ _ := rfl
  widen_eq x hx := by
    apply if_neg
    intro h
    unfold FiniteS at hx
    have hnat := congrArg BitVec.toNat h
    rw [BitVec.toNat_and, show (0x7FFFFFFF#32).toNat = 2 ^ 31 - 1 from rfl,
      Nat.and_two_pow_sub_one_eq_mod] at hnat
    rw [hnat] at hx
    exact absurd hx (by decide)
  widen_inf x hx := by
    rw [if_pos hx]
    decide

instance : Nonempty Host := ⟨softHost⟩

end Sf

end OpenPowerMac
