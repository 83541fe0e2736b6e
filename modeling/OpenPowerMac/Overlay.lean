/-
Writing a list of entries over a function.

Two facts over any addresses and values: an address outside the list is untouched,
and where no address is written twice each holds what was written there
(`overlay_mem`).
-/
import Mathlib.Data.List.Basic
import Mathlib.Logic.Function.Basic

set_option autoImplicit false

namespace OpenPowerMac

section Overlay

variable {α β : Type} [DecidableEq α]

/-- The function `m` with the writes of `l` made over it, in order. -/
def overlay (m : α → β) (l : List (α × β)) : α → β :=
  l.foldl (fun m w => Function.update m w.1 w.2) m

/-- The addresses a list of writes reaches. -/
def Reaches (l : List (α × β)) (a : α) : Prop := ∃ w ∈ l, w.1 = a

@[simp] theorem overlay_nil (m : α → β) : overlay m [] = m := rfl

theorem overlay_cons (m : α → β) (w : α × β) (l : List (α × β)) :
    overlay m (w :: l) = overlay (Function.update m w.1 w.2) l := rfl

/-- An address outside the list is untouched. -/
theorem overlay_of_not_reaches (l : List (α × β)) : ∀ {m : α → β} {a : α},
    ¬ Reaches l a → overlay m l a = m a := by
  induction l with
  | nil => exact fun _ => rfl
  | cons w l ih =>
      intro m a h
      rw [overlay_cons, ih fun ⟨w', hw', ha⟩ => h ⟨w', List.mem_cons_of_mem w hw', ha⟩]
      exact Function.update_of_ne (fun ha => h ⟨w, List.mem_cons_self, ha.symm⟩) _ _

/-- Where no address is written twice, each holds what was written there. -/
theorem overlay_mem (l : List (α × β)) : ∀ {m : α → β} {w : α × β},
    (l.map Prod.fst).Nodup → w ∈ l → overlay m l w.1 = w.2 := by
  induction l with
  | nil => exact fun _ h => absurd h List.not_mem_nil
  | cons w' l ih =>
      intro m w hnodup hw
      rw [List.map_cons, List.nodup_cons] at hnodup
      rw [overlay_cons]
      rcases List.mem_cons.mp hw with rfl | hmem
      · rw [overlay_of_not_reaches l, Function.update_self]
        rintro ⟨w', hw', ha⟩
        exact hnodup.1 (List.mem_map.mpr ⟨w', hw', ha⟩)
      · exact ih hnodup.2 hmem

end Overlay

end OpenPowerMac
