/-
Machines that turn until they are stuck, over what has been pushed to them.

A turn that is made is made again, and in the same way, when more has been pushed behind. So it
does not matter where the machine is let settle on the way (`Settles.push`).
-/
import Mathlib.Data.List.Basic

set_option autoImplicit false

namespace OpenPowerMac

namespace Settling

variable {S V : Type}

/-- `turn` is made until it is not made. -/
inductive Settles (turn : S → Option S) : S → S → Prop
  | done {s : S} (h : turn s = none) : Settles turn s s
  | turn {s s' t : S} (h : turn s = some s') (hrest : Settles turn s' t) : Settles turn s t

variable {turn : S → Option S}

theorem Settles.stuck {s t : S} (h : Settles turn s t) : turn t = none := by
  induction h with
  | done h => exact h
  | turn _ _ ih => exact ih

theorem Settles.unique {s t t' : S} (h : Settles turn s t) (h' : Settles turn s t') : t = t' := by
  induction h with
  | done h =>
      cases h' with
      | done _ => rfl
      | turn h₁ _ => exact absurd (h.symm.trans h₁) nofun
  | turn h _ ih =>
      cases h' with
      | done h₁ => exact absurd (h₁.symm.trans h) nofun
      | turn h₁ hrest =>
          rw [Option.some.inj (h.symm.trans h₁)] at ih
          exact ih hrest

/-- What every turn keeps is kept until the machine is stuck. -/
theorem Settles.keeps {P : S → Prop} (hstep : ∀ s s', turn s = some s' → P s → P s') {s t : S}
    (h : Settles turn s t) (hs : P s) : P t := by
  induction h with
  | done _ => exact hs
  | turn h _ ih => exact ih (hstep _ _ h hs)

/-- What is pushed waits behind what the machine turns on. -/
def Behind (turn : S → Option S) (push : S → V → S) : Prop :=
  ∀ s s' v, turn s = some s' → turn (push s v) = some (push s' v)

/-- The machine may settle before more is pushed. -/
theorem Settles.push {push : S → V → S} (hpush : Behind turn push) {s t u : S} {v : V}
    (h : Settles turn s t) (hu : Settles turn (push s v) u) : Settles turn (push t v) u := by
  induction h with
  | done _ => exact hu
  | turn h _ ih =>
      refine ih ?_
      cases hu with
      | done h₁ => exact absurd (h₁.symm.trans (hpush _ _ v h)) nofun
      | turn h₁ hrest =>
          rw [Option.some.inj (h₁.symm.trans (hpush _ _ v h))] at hrest
          exact hrest

end Settling

end OpenPowerMac
