/-
Long addition in a base: digits added one after the other, each with the carry of the last.

`Chain b c steps c'` says that the carry `c` comes in under the digits of `steps` and `c'` comes
out. Each step is the two digits and the digit they make.
-/
import Mathlib.Data.Nat.Digits.Defs
import Mathlib.Tactic.Ring

set_option autoImplicit false

/-- A step of a long addition: the digits and what they come to. -/
structure DigitStep where
  x : ℕ
  y : ℕ
  r : ℕ

namespace DigitStep

variable (b : ℕ)

/-- The digit and the carry are the sum, and the carry comes in under the next. -/
inductive Chain : ℕ → List DigitStep → ℕ → Prop
  | nil (c : ℕ) : Chain c [] c
  | cons {c c₁ c' : ℕ} {s : DigitStep} {steps : List DigitStep} :
      s.r + b * c₁ = s.x + s.y + c → Chain c₁ steps c' → Chain c (s :: steps) c'

variable {b : ℕ}

/-- **Long addition.** The digits made are the sum, but for the carry out of the last. -/
theorem Chain.sum {c c' : ℕ} {steps : List DigitStep} (h : Chain b c steps c') :
    Nat.ofDigits b (steps.map DigitStep.r) + b ^ steps.length * c'
      = Nat.ofDigits b (steps.map DigitStep.x) + Nat.ofDigits b (steps.map DigitStep.y) + c := by
  induction h with
  | nil c => simp
  | @cons c c₁ c' s steps hs _ ih =>
    simp only [List.map_cons, Nat.ofDigits_cons, List.length_cons]
    calc s.r + b * Nat.ofDigits b (steps.map DigitStep.r) + b ^ (steps.length + 1) * c'
        = s.r + b * (Nat.ofDigits b (steps.map DigitStep.r) + b ^ steps.length * c') := by ring
      _ = s.r + b * c₁ + b * (Nat.ofDigits b (steps.map DigitStep.x)
          + Nat.ofDigits b (steps.map DigitStep.y)) := by rw [ih]; ring
      _ = s.x + b * Nat.ofDigits b (steps.map DigitStep.x)
          + (s.y + b * Nat.ofDigits b (steps.map DigitStep.y)) + c := by rw [hs]; ring

end DigitStep
