/-
The square root of a natural number, two binary digits of the number for each digit of the root.

A number is read in base 4 from its most significant digit on. Beside the root of what has been
read there is the remainder, and a digit of the root is one where the remainder can pay for it.
-/
import Mathlib.Data.Nat.Sqrt
import Mathlib.Tactic.Ring

set_option autoImplicit false

/-- `q` is the root of `v` and `r` is left over. -/
structure IsRoot (v q r : ℕ) : Prop where
  sum : q * q + r = v
  small : r ≤ 2 * q

namespace IsRoot

variable {v q r d : ℕ}

theorem zero : IsRoot 0 0 0 := ⟨rfl, le_refl 0⟩

/-- The digit is one: appending it costs four roots and one. -/
theorem take (h : IsRoot v q r) (hd : d < 4) (hle : 4 * q + 1 ≤ 4 * r + d) :
    IsRoot (4 * v + d) (2 * q + 1) (4 * r + d - (4 * q + 1)) := by
  have hsq : (2 * q + 1) * (2 * q + 1) = 4 * (q * q) + (4 * q + 1) := by ring
  have hsum := h.sum
  have hsmall := h.small
  constructor
  · omega
  · omega

/-- The digit is zero. -/
theorem skip (h : IsRoot v q r) (hlt : ¬ 4 * q + 1 ≤ 4 * r + d) :
    IsRoot (4 * v + d) (2 * q) (4 * r + d) := by
  have hsq : 2 * q * (2 * q) = 4 * (q * q) := by ring
  have hsum := h.sum
  constructor
  · omega
  · omega

theorem sqrt (h : IsRoot v q r) : q = Nat.sqrt v := by
  have hsum := h.sum
  have hsmall := h.small
  have hsq : (q + 1) * (q + 1) = q * q + 2 * q + 1 := by ring
  exact Nat.eq_sqrt.mpr ⟨by omega, by omega⟩

/-- Nothing is left over where the number is a square. -/
theorem rest_eq_zero_iff (h : IsRoot v q r) : r = 0 ↔ q * q = v := by
  have hsum := h.sum
  omega

end IsRoot
