/-
Extents laid end to end on a line, each behind a gap.

`Laid b gs es stop` says that the extents `es` begin at `b`, that each stands behind
its gap of `gs` and that gap behind the extent before, and that the last ends at
`stop`. What is laid so is sorted and disjoint, and a search for the last start at or
before a point finds the extent the point lies in, or the one before its gap.
-/
import Mathlib.Data.List.Basic
import Mathlib.Data.List.Induction
import Mathlib.Tactic.Common

set_option autoImplicit false

namespace Extents

structure Extent where
  start : ℕ
  len : ℕ
  deriving DecidableEq

namespace Extent

def stop (e : Extent) : ℕ := e.start + e.len

/-- The points of an extent. -/
def Has (e : Extent) (x : ℕ) : Prop := e.start ≤ x ∧ x < e.stop

end Extent

inductive Laid : ℕ → List ℕ → List Extent → ℕ → Prop
  | nil (b : ℕ) : Laid b [] [] b
  | cons {b g stop : ℕ} {gs : List ℕ} {e : Extent} {es : List Extent} (h : e.start = b + g)
      (rest : Laid e.stop gs es stop) : Laid b (g :: gs) (e :: es) stop

variable {b m stop : ℕ} {gs gs' : List ℕ} {e : Extent} {es es' : List Extent}

theorem Laid.length_eq (h : Laid b gs es stop) : gs.length = es.length := by
  induction h with
  | nil b => rfl
  | cons h rest ih => rw [List.length_cons, List.length_cons, ih]

theorem Laid.append (h : Laid b gs es m) (h' : Laid m gs' es' stop) :
    Laid b (gs ++ gs') (es ++ es') stop := by
  induction h with
  | nil b => exact h'
  | cons h rest ih => exact .cons h (ih h')

/-- What is laid can be cut between two extents. -/
theorem Laid.split (hlen : gs.length = es.length) (h : Laid b (gs ++ gs') (es ++ es') stop) :
    ∃ m, Laid b gs es m ∧ Laid m gs' es' stop := by
  induction gs generalizing b es with
  | nil =>
      obtain rfl : es = [] := List.length_eq_zero_iff.mp hlen.symm
      exact ⟨b, .nil b, h⟩
  | cons g gs ih =>
      rcases es with _ | ⟨e, es⟩
      · simp at hlen
      · cases h with
        | cons hstart rest =>
            obtain ⟨m, hl, hr⟩ := ih (by simpa using hlen) rest
            exact ⟨m, .cons hstart hl, hr⟩

/-- Everything lies between the base and the stop. -/
theorem Laid.within (h : Laid b gs es stop) :
    b ≤ stop ∧ ∀ e ∈ es, b ≤ e.start ∧ e.stop ≤ stop := by
  induction h with
  | nil b => exact ⟨Nat.le_refl b, fun e he => absurd he List.not_mem_nil⟩
  | @cons b g stop gs e es h rest ih =>
      obtain ⟨hstop, hin⟩ := ih
      have he : e.start ≤ e.stop := Nat.le_add_right _ _
      refine ⟨by omega, ?_⟩
      intro e' he'
      rcases List.mem_cons.mp he' with rfl | hmem
      · exact ⟨by omega, hstop⟩
      · have hin' := hin e' hmem
        omega

/-- An extent lies behind the base and its own gap. -/
theorem Laid.start_ge (h : Laid b gs es stop) {i g : ℕ} (hg : gs[i]? = some g)
    (he : es[i]? = some e) : b + g ≤ e.start := by
  induction h generalizing i with
  | nil b => simp at he
  | @cons b g₀ stop gs e₀ es hstart rest ih =>
      rcases i with _ | i
      · rw [List.getElem?_cons_zero] at hg he
        injection hg with hg
        injection he with he
        subst hg he
        omega
      · rw [List.getElem?_cons_succ] at hg he
        have hle := ih hg he
        have hstop : e₀.stop = e₀.start + e₀.len := rfl
        omega

theorem Laid.pairwise (h : Laid b gs es stop) : es.Pairwise fun e e' => e.stop ≤ e'.start := by
  induction h with
  | nil b => exact .nil
  | cons h rest ih => exact .cons (fun e' he' => (rest.within.2 e' he').1) ih

/-- The last extent ends where everything does. -/
theorem Laid.stop_last (h : Laid b gs (es ++ [e]) stop) : e.stop = stop := by
  have hlen := h.length_eq
  rw [List.length_append, List.length_singleton] at hlen
  obtain ⟨hs, g, rfl⟩ : ∃ hs g, gs = hs ++ [g] := by
    rcases List.eq_nil_or_concat' gs with rfl | ⟨hs, g, rfl⟩
    · simp at hlen
    · exact ⟨hs, g, rfl⟩
  obtain ⟨m, -, hlast⟩ := h.split (by simpa using hlen)
  cases hlast with
  | cons _ rest =>
      cases rest with
      | nil => rfl

/-- In front of an extent its gap is free. -/
theorem Laid.gap_free (h : Laid b gs es stop) {i j g : ℕ} {e' : Extent} (hg : gs[i]? = some g)
    (he : es[i]? = some e) (he' : es[j]? = some e') (hlt : j < i) : e'.stop + g ≤ e.start := by
  induction h generalizing i j with
  | nil b => simp at he
  | @cons b g₀ stop gs e₀ es hstart rest ih =>
      rcases i with _ | i
      · omega
      · rw [List.getElem?_cons_succ] at hg he
        rcases j with _ | j
        · rw [List.getElem?_cons_zero] at he'
          injection he' with he'
          subst he'
          exact rest.start_ge hg he
        · rw [List.getElem?_cons_succ] at he'
          exact ih hg he he' (by omega)

/-- No two extents share a point. -/
theorem disjoint_of_pairwise (h : es.Pairwise fun e e' => e.stop ≤ e'.start) {i j : ℕ}
    {e e' : Extent} (hi : es[i]? = some e) (hj : es[j]? = some e') (hne : i ≠ j) {x : ℕ} :
    ¬ (e.Has x ∧ e'.Has x) := by
  obtain ⟨hi', rfl⟩ := List.getElem?_eq_some_iff.mp hi
  obtain ⟨hj', rfl⟩ := List.getElem?_eq_some_iff.mp hj
  rw [List.pairwise_iff_getElem] at h
  rintro ⟨⟨hx, hx'⟩, ⟨hy, hy'⟩⟩
  rcases Nat.lt_or_gt_of_ne hne with hlt | hgt
  · have hle := h i j hi' hj' hlt
    omega
  · have hle := h j i hj' hi' hgt
    omega

theorem sorted_of_pairwise (h : es.Pairwise fun e e' => e.stop ≤ e'.start) :
    es.Pairwise fun e e' => e.start ≤ e'.start :=
  h.imp fun hle => Nat.le_trans (Nat.le_add_right _ _) hle

/-! ## The last start at or before a point -/

/-- Scan on while the next starts at or before `x`. -/
def lastFrom {α : Type} (start : α → ℕ) (x : ℕ) : α → List α → α
  | a, [] => a
  | a, c :: cs => if start c ≤ x then lastFrom start x c cs else a

section LastFrom

variable {α : Type} {start : α → ℕ} {x : ℕ}

theorem lastFrom_mem (start : α → ℕ) (x : ℕ) (a : α) (cs : List α) : lastFrom start x a cs ∈ a :: cs := by
  induction cs generalizing a with
  | nil => exact List.mem_cons_self
  | cons c cs ih =>
      rw [lastFrom]
      split_ifs
      · exact List.mem_cons_of_mem a (ih c)
      · exact List.mem_cons_self

/-- Nothing past `x` is reached. -/
theorem lastFrom_of_lt {a : α} {cs : List α} (h : ∀ c ∈ cs, x < start c) :
    lastFrom start x a cs = a := by
  cases cs with
  | nil => rfl
  | cons c cs =>
      have hc := h c List.mem_cons_self
      rw [lastFrom, if_neg (by omega)]

/-- The last one of a run that starts at or before `x` is found. -/
theorem lastFrom_append {a t : α} {pre post : List α} (hpre : ∀ c ∈ pre, start c ≤ x)
    (ht : start t ≤ x) (hpost : ∀ c ∈ post, x < start c) :
    lastFrom start x a (pre ++ t :: post) = t := by
  induction pre generalizing a with
  | nil =>
      rw [List.nil_append, lastFrom, if_pos ht]
      exact lastFrom_of_lt hpost
  | cons c pre ih =>
      rw [List.cons_append, lastFrom, if_pos (hpre c List.mem_cons_self)]
      exact ih fun c' hc' => hpre c' (List.mem_cons_of_mem c hc')

end LastFrom

end Extents
