/-
A slot that holds one thing until it is due.

What is issued takes the slot, whatever it held; what is cancelled leaves it; and a look at
the clock runs what is held if and only if it is due. Where each step of a system keeps to this,
a run in which nothing is issued leaves the slot as it was, quietly, or empty (`held_or_gone`):
what is run after it is what was held before it, and for the first time.
-/
import Mathlib.Data.List.Basic

set_option autoImplicit false

namespace OpenPowerMac

namespace Deferral

variable {κ τ σ ε : Type}

/-- What is held, and when it is due. -/
structure Ticket (κ τ : Type) where
  what : κ
  due : τ

/-- What a step of a system shows of its slot. -/
inductive Note (κ τ : Type) where
  | issued (k : Ticket κ τ)
  | cancelled
  | ran (what : κ) (now : τ)
  | waited (now : τ)
  | silent

/-- The slot is left as it is. -/
def Note.Quiet : Note κ τ → Prop
  | .waited _ | .silent => True
  | _ => False

variable [LE τ]

/-- What may be noted of a slot, and what the slot is then. -/
inductive Allows : Option (Ticket κ τ) → Note κ τ → Option (Ticket κ τ) → Prop
  | issued (k? : Option (Ticket κ τ)) (k : Ticket κ τ) : Allows k? (.issued k) (some k)
  | cancelled (k? : Option (Ticket κ τ)) : Allows k? .cancelled none
  | ran (k : Ticket κ τ) {now : τ} (hdue : k.due ≤ now) : Allows (some k) (.ran k.what now) none
  | waited {k? : Option (Ticket κ τ)} {now : τ} (hnot : ∀ k, k? = some k → ¬ k.due ≤ now) :
      Allows k? (.waited now) k?
  | silent (k? : Option (Ticket κ τ)) : Allows k? .silent k?

theorem Allows.of_quiet {k? k' : Option (Ticket κ τ)} {n : Note κ τ} (h : Allows k? n k')
    (hn : n.Quiet) : k' = k? := by
  cases h with
  | issued _ k => exact hn.elim
  | cancelled => exact hn.elim
  | ran k hdue => exact hn.elim
  | waited hnot => rfl
  | silent => rfl

/-- Where nothing is issued, the slot is left as it is, quietly, or it is emptied. -/
theorem Allows.kept_or_gone {k? k' : Option (Ticket κ τ)} {n : Note κ τ} (h : Allows k? n k')
    (hn : ∀ k, n ≠ .issued k) : (k' = k? ∧ n.Quiet) ∨ k' = none := by
  cases h with
  | issued _ k => exact absurd rfl (hn k)
  | cancelled => exact .inr rfl
  | ran k hdue => exact .inr rfl
  | waited hnot => exact .inl ⟨rfl, trivial⟩
  | silent => exact .inl ⟨rfl, trivial⟩

/-! ## Runs -/

/-- The notes of a system's run, up to a step that it does not make. -/
def trace (step : σ → ε → Option (Note κ τ × σ)) : σ → List ε → List (Note κ τ)
  | _, [] => []
  | s, e :: es =>
      match step s e with
      | none => []
      | some (n, s') => n :: trace step s' es

/-- The state a run ends in, if it makes all of its steps. -/
def after (step : σ → ε → Option (Note κ τ × σ)) : σ → List ε → Option σ
  | s, [] => some s
  | s, e :: es =>
      match step s e with
      | none => none
      | some (_, s') => after step s' es

section System

variable {step : σ → ε → Option (Note κ τ × σ)} {slot : σ → Option (Ticket κ τ)}
  (hstep : ∀ {s e n s'}, step s e = some (n, s') → Allows (slot s) n (slot s'))
include hstep

/-- A run of quiet steps leaves the slot. -/
theorem held_of_quiet (es : List ε) : ∀ {s s' : σ}, after step s es = some s' →
    (∀ n ∈ trace step s es, n.Quiet) → slot s' = slot s := by
  induction es with
  | nil =>
      rintro s _ ⟨⟩ -
      rfl
  | cons e es ih =>
      intro s s' hrun hquiet
      rw [after] at hrun
      rw [trace] at hquiet
      cases hs : step s e with
      | none =>
          rw [hs] at hrun
          cases hrun
      | some r =>
          rw [hs] at hrun hquiet
          obtain ⟨hn, hrest⟩ := List.forall_mem_cons.mp hquiet
          rw [ih hrun hrest, (hstep hs).of_quiet hn]

/-- An empty slot stays empty while nothing is issued. -/
theorem gone_stays (es : List ε) : ∀ {s s' : σ}, after step s es = some s' →
    (∀ n ∈ trace step s es, ∀ k, n ≠ .issued k) → slot s = none → slot s' = none := by
  induction es with
  | nil =>
      rintro s _ ⟨⟩ -
      exact id
  | cons e es ih =>
      intro s s' hrun hnew hempty
      rw [after] at hrun
      rw [trace] at hnew
      cases hs : step s e with
      | none =>
          rw [hs] at hrun
          cases hrun
      | some r =>
          rw [hs] at hrun hnew
          obtain ⟨hn, hrest⟩ := List.forall_mem_cons.mp hnew
          refine ih hrun hrest ?_
          rcases (hstep hs).kept_or_gone hn with ⟨hkept, -⟩ | hgone
          · rw [hkept, hempty]
          · exact hgone

/-- **What is held** is held still, and every step was quiet, or it is gone. -/
theorem held_or_gone (es : List ε) : ∀ {s s' : σ}, after step s es = some s' →
    (∀ n ∈ trace step s es, ∀ k, n ≠ .issued k) →
    (slot s' = slot s ∧ ∀ n ∈ trace step s es, n.Quiet) ∨ slot s' = none := by
  induction es with
  | nil =>
      rintro s _ ⟨⟩ -
      exact .inl ⟨rfl, fun n hn => absurd hn List.not_mem_nil⟩
  | cons e es ih =>
      intro s s' hrun hnew
      rw [after] at hrun
      rw [trace] at hnew ⊢
      cases hs : step s e with
      | none =>
          rw [hs] at hrun
          cases hrun
      | some r =>
          rw [hs] at hrun hnew
          obtain ⟨hn, hrest⟩ := List.forall_mem_cons.mp hnew
          rcases (hstep hs).kept_or_gone hn with ⟨hkept, hquiet⟩ | hgone
          · rcases ih hrun hrest with ⟨hslot, hall⟩ | hgone
            · exact .inl ⟨hslot.trans hkept, List.forall_mem_cons.mpr ⟨hquiet, hall⟩⟩
            · exact .inr hgone
          · exact .inr (gone_stays hstep es hrun hrest hgone)

end System

end Deferral

end OpenPowerMac
