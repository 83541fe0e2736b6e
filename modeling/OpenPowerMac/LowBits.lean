/-
Words rounded down: what is left of a word when its low bits are cleared.
-/
import Mathlib.Data.BitVec
import Mathlib.Data.Nat.Bitwise

set_option autoImplicit false

namespace OpenPowerMac

variable {w : ℕ}

theorem not_low (w k : ℕ) : ~~~BitVec.ofNat w (2 ^ k - 1) = BitVec.allOnes w <<< k := by
  ext i hi
  simp only [BitVec.getElem_not, BitVec.getElem_shiftLeft, BitVec.getElem_allOnes]
  rw [← BitVec.getLsbD_eq_getElem, BitVec.getLsbD_ofNat, Nat.testBit_two_pow_sub_one]
  simp [hi]

/-- The low `k` bits cleared are shifted out and back. -/
theorem and_not_low (x : BitVec w) (k : ℕ) :
    x &&& ~~~BitVec.ofNat w (2 ^ k - 1) = x >>> k <<< k := by
  rw [BitVec.shiftLeft_ushiftRight, not_low]

/-- The largest multiple of `2 ^ k` that is no more than the word. -/
theorem toNat_and_not_low (x : BitVec w) (k : ℕ) :
    (x &&& ~~~BitVec.ofNat w (2 ^ k - 1)).toNat = x.toNat / 2 ^ k * 2 ^ k := by
  have hle : x.toNat / 2 ^ k * 2 ^ k ≤ x.toNat := Nat.div_mul_le_self _ _
  rw [and_not_low, BitVec.toNat_shiftLeft, BitVec.toNat_ushiftRight, Nat.shiftLeft_eq,
    Nat.shiftRight_eq_div_pow, Nat.mod_eq_of_lt (hle.trans_lt x.isLt)]

end OpenPowerMac
