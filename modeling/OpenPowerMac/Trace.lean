/-
Programs that log what they do, and a logic for what they log.

A `Prog` changes a state, appends to a log, and may give up part-way because a
budget ran out; what it had logged by then is kept. `Meets` is a rely/guarantee
reading of such a program: if everything it logs is as its environment promises,
then everything it logs is as it promises itself, and the state it ends in is as
stated. `Tallies` is the same where what is promised of an event depends on what
the log before it adds up to. `Costs` bounds how many logged events count,
whatever the state.

`Act` is an actor beside the program: it works on its own part of the state and
issues at most `n` requests, each answered before it goes on.
-/
import Mathlib.Algebra.BigOperators.Group.List.Basic
import Mathlib.Algebra.Order.BigOperators.Group.List
import Mathlib.Tactic.Common
import Mathlib.Tactic.Ring

set_option autoImplicit false

namespace Trace

/-- A run's outcome, and what it logged. -/
structure Traced (σ ε α : Type) where
  out : Option (α × σ)
  log : List ε

/-- A program over a state `σ` that logs events `ε`, and may quit. -/
def Prog (σ ε α : Type) : Type := σ → Traced σ ε α

variable {σ ε α β γ : Type}

namespace Prog

def ret (a : α) : Prog σ ε α := fun s => ⟨some (a, s), []⟩

/-- What is logged first stands first; a program that has quit goes no further. -/
def andThen (x : Prog σ ε α) (f : α → Prog σ ε β) : Prog σ ε β := fun s =>
  match (x s).out with
  | none => ⟨none, (x s).log⟩
  | some (a, s') => ⟨(f a s').out, (x s).log ++ (f a s').log⟩

instance : Monad (Prog σ ε) where
  pure := ret
  bind := andThen

/-- The state. -/
def look : Prog σ ε σ := fun s => ⟨some (s, s), []⟩

def change (f : σ → σ) : Prog σ ε Unit := fun s => ⟨some ((), f s), []⟩

/-- One event. -/
def note (e : ε) : Prog σ ε Unit := fun s => ⟨some ((), s), [e]⟩

/-- The budget is gone. -/
def quit : Prog σ ε α := fun _ => ⟨none, []⟩

/-- A loop over a list. -/
def forEach (l : List γ) (f : γ → Prog σ ε Unit) : Prog σ ε Unit :=
  match l with
  | [] => pure ()
  | c :: cs => do f c; forEach cs f

/-- A loop that gathers a result for each. -/
def collect (l : List γ) (f : γ → Prog σ ε α) : Prog σ ε (List α) :=
  match l with
  | [] => pure []
  | c :: cs => do
      let a ← f c
      let as ← collect cs f
      pure (a :: as)

end Prog

open Prog

/-! ## What a program meets -/

/-- What the environment promises of every event, what the program promises in
return, and what must hold for the program to give up. -/
structure Pact (ε : Type) where
  rely : ε → Prop
  keep : ε → Prop
  mayQuit : Prop

/-- How a run ended. -/
def Traced.Ends (q : Prop) (Q : α → σ → Prop) (t : Traced σ ε α) : Prop :=
  match t.out with
  | none => q
  | some (a, s) => Q a s

/-- What a run of `x` from `s` comes to under a pact: as long as the events it relies on hold,
those it is to keep hold, and it ends in `Q` or quits where it may. -/
def Meets (P : Pact ε) (x : Prog σ ε α) (s : σ) (Q : α → σ → Prop) : Prop :=
  (∀ e ∈ (x s).log, P.rely e) → (∀ e ∈ (x s).log, P.keep e) ∧ (x s).Ends P.mayQuit Q

variable {P : Pact ε} {s : σ}

@[simp] theorem meets_pure {a : α} {Q : α → σ → Prop} :
    Meets P (pure a : Prog σ ε α) s Q ↔ Q a s := by
  simp [Meets, pure, ret, Traced.Ends]

@[simp] theorem meets_look {Q : σ → σ → Prop} : Meets P (look : Prog σ ε σ) s Q ↔ Q s s := by
  simp [Meets, look, Traced.Ends]

@[simp] theorem meets_change {f : σ → σ} {Q : Unit → σ → Prop} :
    Meets P (change f : Prog σ ε Unit) s Q ↔ Q () (f s) := by
  simp [Meets, change, Traced.Ends]

/-- An event is kept to where it is logged, on what is relied on of it. -/
@[simp] theorem meets_note {e : ε} {Q : Unit → σ → Prop} :
    Meets P (note e : Prog σ ε Unit) s Q ↔ (P.rely e → P.keep e ∧ Q () s) := by
  simp [Meets, note, Traced.Ends]

@[simp] theorem meets_quit {Q : α → σ → Prop} :
    Meets P (quit : Prog σ ε α) s Q ↔ P.mayQuit := by
  simp [Meets, quit, Traced.Ends]

/-- Sequencing: what the first part ends in is where the second part starts. -/
theorem meets_bind {x : Prog σ ε α} {f : α → Prog σ ε β} {Q : β → σ → Prop}
    (h : Meets P x s fun a s' => Meets P (f a) s' Q) : Meets P (x >>= f) s Q := by
  show Meets P (andThen x f) s Q
  intro hrely
  rcases hx : (x s).out with _ | ⟨a, s'⟩
  · have he : andThen x f s = ⟨none, (x s).log⟩ := by rw [andThen, hx]
    rw [he] at hrely ⊢
    obtain ⟨hkeep, hend⟩ := h hrely
    rw [Traced.Ends, hx] at hend
    exact ⟨hkeep, hend⟩
  · have he : andThen x f s = ⟨(f a s').out, (x s).log ++ (f a s').log⟩ := by rw [andThen, hx]
    rw [he] at hrely ⊢
    obtain ⟨hkeep, hend⟩ := h fun e hm => hrely e (List.mem_append_left _ hm)
    rw [Traced.Ends, hx] at hend
    obtain ⟨hkeep', hend'⟩ := hend fun e hm => hrely e (List.mem_append_right _ hm)
    refine ⟨?_, hend'⟩
    intro e hm
    rcases List.mem_append.mp hm with hm | hm
    · exact hkeep e hm
    · exact hkeep' e hm

theorem Meets.mono {x : Prog σ ε α} {Q R : α → σ → Prop} (h : Meets P x s Q)
    (himp : ∀ a s', Q a s' → R a s') : Meets P x s R := by
  intro hrely
  obtain ⟨hkeep, hend⟩ := h hrely
  refine ⟨hkeep, ?_⟩
  rcases hx : (x s).out with _ | ⟨a, s'⟩
  · rw [Traced.Ends, hx] at hend ⊢
    exact hend
  · rw [Traced.Ends, hx] at hend ⊢
    exact himp a s' hend

/-- A loop over a list keeps what each turn keeps. -/
theorem meets_forEach {I : σ → Prop} {f : γ → Prog σ ε Unit}
    (hf : ∀ c s, I s → Meets P (f c) s fun _ => I) (l : List γ) {s : σ} (hs : I s) :
    Meets P (forEach l f) s fun _ => I := by
  induction l generalizing s with
  | nil => exact meets_pure.mpr hs
  | cons c cs ih => exact meets_bind ((hf c s hs).mono fun _ _ h => ih h)

theorem meets_collect {I : σ → Prop} {f : γ → Prog σ ε α}
    (hf : ∀ c s, I s → Meets P (f c) s fun _ => I) (l : List γ) {s : σ} (hs : I s) :
    Meets P (collect l f) s fun _ => I := by
  induction l generalizing s with
  | nil => exact meets_pure.mpr hs
  | cons c cs ih =>
      apply meets_bind
      refine (hf c s hs).mono fun a s' h => ?_
      apply meets_bind
      exact (ih h).mono fun as s'' h' => meets_pure.mpr h'

/-! ## How a program ends -/

/-- A part that ends somewhere hands on from there. -/
theorem out_bind_some {x : Prog σ ε α} {f : α → Prog σ ε β} {a : α} {s t : σ}
    (h : (x s).out = some (a, t)) : ((x >>= f) s).out = (f a t).out := by
  show (andThen x f s).out = _
  rw [andThen, h]

theorem out_bind_none {x : Prog σ ε α} {f : α → Prog σ ε β} {s : σ} (h : (x s).out = none) :
    ((x >>= f) s).out = none := by
  show (andThen x f s).out = _
  rw [andThen, h]

/-- Nothing is promised of the log, and the budget does not run out. -/
def Pact.total : Pact ε := ⟨fun _ => True, fun _ => True, False⟩

/-- A program that cannot give up ends somewhere. -/
theorem Meets.out {x : Prog σ ε α} {Q : α → σ → Prop} (h : Meets Pact.total x s Q) :
    ∃ a s', (x s).out = some (a, s') ∧ Q a s' := by
  obtain ⟨-, hends⟩ := h fun _ _ => trivial
  rcases hx : (x s).out with _ | ⟨a, s'⟩
  · rw [Traced.Ends, hx] at hends
    exact absurd hends id
  · rw [Traced.Ends, hx] at hends
    exact ⟨a, s', rfl, hends⟩

theorem meets_note_total {e : ε} {Q : Unit → σ → Prop} (h : Q () s) :
    Meets Pact.total (note e) s Q :=
  meets_note.mpr fun _ => ⟨trivial, h⟩

/-! ## What a program tallies -/

section Ledger

variable {κ : Type}

/-- A log that is summed up as it grows, and what is promised of an event when the
log before it has come to a sum. -/
structure Ledger (ε κ : Type) where
  post : κ → ε → κ
  rely : κ → ε → Prop
  keep : κ → ε → Prop

/-- Every event of a log is as promised where it stands. -/
def Along (post : κ → ε → κ) (p : κ → ε → Prop) : κ → List ε → Prop
  | _, [] => True
  | g, e :: l => p g e ∧ Along post p (post g e) l

instance {post : κ → ε → κ} {p : κ → ε → Prop} [∀ g e, Decidable (p g e)] :
    ∀ (g : κ) (l : List ε), Decidable (Along post p g l)
  | _, [] => isTrue trivial
  | g, e :: l => @instDecidableAnd _ _ _ (instDecidableAlong (post g e) l)

/-- A bound along one log, and then along another from where the first ends. -/
theorem along_append {post : κ → ε → κ} {p : κ → ε → Prop} (l l' : List ε) :
    ∀ g, Along post p g (l ++ l')
      ↔ Along post p g l ∧ Along post p (l.foldl post g) l' := by
  induction l with
  | nil => exact fun g => ⟨fun h => ⟨trivial, h⟩, And.right⟩
  | cons e l ih =>
      intro g
      rw [List.cons_append, Along, Along, ih, List.foldl_cons, and_assoc]

/-- What holds of every sum along the log holds of every event of it. -/
theorem Along.forall {post : κ → ε → κ} {p : κ → ε → Prop} {q : ε → Prop}
    (hpq : ∀ g e, p g e → q e) {l : List ε} :
    ∀ {g}, Along post p g l → ∀ e ∈ l, q e := by
  induction l with
  | nil => exact fun _ e he => absurd he List.not_mem_nil
  | cons e l ih =>
      rintro g ⟨h, hl⟩ e' he'
      rcases List.mem_cons.mp he' with rfl | he'
      · exact hpq g _ h
      · exact ih hl e' he'

/-- From a sum on: if the log is relied on rightly, it is kept to, and a run that
ends does so in a state and with a sum as stated. Giving up is allowed. -/
def Tallies (L : Ledger ε κ) (x : Prog σ ε α) (s : σ) (g : κ) (Q : α → σ → κ → Prop) : Prop :=
  Along L.post L.rely g (x s).log → Along L.post L.keep g (x s).log
    ∧ ∀ a s', (x s).out = some (a, s') → Q a s' ((x s).log.foldl L.post g)

variable {L : Ledger ε κ} {g : κ}

theorem tallies_pure {a : α} {Q : α → σ → κ → Prop} (h : Q a s g) :
    Tallies L (pure a : Prog σ ε α) s g Q := by
  rintro -
  refine ⟨trivial, ?_⟩
  rintro _ _ ⟨⟩
  exact h

theorem tallies_look {Q : σ → σ → κ → Prop} (h : Q s s g) :
    Tallies L (look : Prog σ ε σ) s g Q := by
  rintro -
  refine ⟨trivial, ?_⟩
  rintro _ _ ⟨⟩
  exact h

theorem tallies_change {f : σ → σ} {Q : Unit → σ → κ → Prop} (h : Q () (f s) g) :
    Tallies L (change f : Prog σ ε Unit) s g Q := by
  rintro -
  refine ⟨trivial, ?_⟩
  rintro _ _ ⟨⟩
  exact h

/-- An event moves the count. -/
theorem tallies_note {e : ε} {Q : Unit → σ → κ → Prop}
    (h : L.rely g e → L.keep g e ∧ Q () s (L.post g e)) :
    Tallies L (note e : Prog σ ε Unit) s g Q := by
  rintro ⟨hrely, -⟩
  obtain ⟨hkeep, hQ⟩ := h hrely
  refine ⟨⟨hkeep, trivial⟩, ?_⟩
  rintro _ _ ⟨⟩
  exact hQ

theorem tallies_quit {Q : α → σ → κ → Prop} : Tallies L (quit : Prog σ ε α) s g Q := by
  rintro -
  refine ⟨trivial, ?_⟩
  rintro _ _ ⟨⟩

/-- One after the other, the count handed on. -/
theorem tallies_bind {x : Prog σ ε α} {f : α → Prog σ ε β} {Q : β → σ → κ → Prop}
    (h : Tallies L x s g fun a s' g' => Tallies L (f a) s' g' Q) :
    Tallies L (x >>= f) s g Q := by
  show Tallies L (andThen x f) s g Q
  intro hrely
  rcases hx : (x s).out with _ | ⟨a, s'⟩
  · have he : andThen x f s = ⟨none, (x s).log⟩ := by rw [andThen, hx]
    rw [he] at hrely ⊢
    refine ⟨(h hrely).1, ?_⟩
    rintro _ _ ⟨⟩
  · have he : andThen x f s = ⟨(f a s').out, (x s).log ++ (f a s').log⟩ := by rw [andThen, hx]
    rw [he] at hrely ⊢
    obtain ⟨hfirst, hsecond⟩ := (along_append _ _ _).mp hrely
    obtain ⟨hkeep, hend⟩ := h hfirst
    obtain ⟨hkeep', hend'⟩ := hend a s' hx hsecond
    refine ⟨(along_append _ _ _).mpr ⟨hkeep, hkeep'⟩, ?_⟩
    intro b s'' hb
    rw [List.foldl_append]
    exact hend' b s'' hb

theorem Tallies.mono {x : Prog σ ε α} {Q R : α → σ → κ → Prop} (h : Tallies L x s g Q)
    (himp : ∀ a s' g', Q a s' g' → R a s' g') : Tallies L x s g R := by
  intro hrely
  obtain ⟨hkeep, hend⟩ := h hrely
  exact ⟨hkeep, fun a s' hx => himp _ _ _ (hend a s' hx)⟩

/-- A loop, by induction on its list. -/
theorem tallies_forEach {I : σ → κ → Prop} {f : γ → Prog σ ε Unit}
    (hf : ∀ c s g, I s g → Tallies L (f c) s g fun _ => I) (l : List γ) :
    ∀ {s : σ} {g : κ}, I s g → Tallies L (forEach l f) s g fun _ => I := by
  induction l with
  | nil => exact fun hs => tallies_pure hs
  | cons c cs ih => exact fun hs => tallies_bind ((hf c _ _ hs).mono fun _ _ _ h => ih h)

/-- What is collected is as long as the list it is collected over. -/
theorem tallies_collect {I : σ → κ → Prop} {f : γ → Prog σ ε α}
    (hf : ∀ c s g, I s g → Tallies L (f c) s g fun _ => I) (l : List γ) :
    ∀ {s : σ} {g : κ}, I s g →
      Tallies L (collect l f) s g fun as s' g' => as.length = l.length ∧ I s' g' := by
  induction l with
  | nil => exact fun hs => tallies_pure ⟨rfl, hs⟩
  | cons c cs ih =>
      intro s g hs
      apply tallies_bind
      refine (hf c s g hs).mono fun a s' g' h => ?_
      apply tallies_bind
      refine (ih h).mono fun as s'' g'' h' => tallies_pure ⟨?_, h'.2⟩
      rw [List.length_cons, List.length_cons, h'.1]

end Ledger

/-! ## What a program costs -/

/-- The events of a log that count, weighed. -/
def weigh (c : ε → ℕ) (l : List ε) : ℕ := (l.map c).sum

@[simp] theorem weigh_nil (c : ε → ℕ) : weigh c [] = 0 := rfl

/-- Weights add up. -/
@[simp] theorem weigh_append (c : ε → ℕ) (l l' : List ε) :
    weigh c (l ++ l') = weigh c l + weigh c l' := by
  simp [weigh]

/-- What is logged weighs `k` at most, from every state. -/
def Costs (c : ε → ℕ) (x : Prog σ ε α) (k : ℕ) : Prop := ∀ s, weigh c (x s).log ≤ k

variable {c : ε → ℕ} {k k' : ℕ}

theorem Costs.mono {x : Prog σ ε α} (h : Costs c x k) (hk : k ≤ k') : Costs c x k' :=
  fun s => (h s).trans hk

theorem costs_pure (a : α) : Costs c (pure a : Prog σ ε α) 0 := fun _ => Nat.le_refl _

theorem costs_look : Costs c (look : Prog σ ε σ) 0 := fun _ => Nat.le_refl _

theorem costs_change (f : σ → σ) : Costs c (change f : Prog σ ε Unit) 0 := fun _ => Nat.le_refl _

theorem costs_quit : Costs c (quit : Prog σ ε α) 0 := fun _ => Nat.le_refl _

theorem costs_note (e : ε) : Costs c (note e : Prog σ ε Unit) (c e) := by
  intro s
  simp [note, weigh]

/-- The costs of two programs, one after the other. -/
theorem costs_bind {x : Prog σ ε α} {f : α → Prog σ ε β} (hx : Costs c x k)
    (hf : ∀ a, Costs c (f a) k') : Costs c (x >>= f) (k + k') := by
  intro s
  show weigh c (andThen x f s).log ≤ _
  rw [andThen]
  rcases (x s).out with _ | ⟨a, s'⟩
  · exact (hx s).trans (Nat.le_add_right _ _)
  · rw [weigh_append]
    exact Nat.add_le_add (hx s) (hf a s')

/-- A loop costs its length times a turn. -/
theorem costs_forEach {f : γ → Prog σ ε Unit} (hf : ∀ x, Costs c (f x) k) (l : List γ) :
    Costs c (forEach l f) (l.length * k) := by
  induction l with
  | nil => exact (costs_pure ()).mono (Nat.zero_le _)
  | cons x xs ih =>
      refine (costs_bind (hf x) fun _ => ih).mono ?_
      rw [List.length_cons]
      exact Nat.le_of_eq (by ring)

theorem costs_collect {f : γ → Prog σ ε α} (hf : ∀ x, Costs c (f x) k) (l : List γ) :
    Costs c (collect l f) (l.length * k) := by
  induction l with
  | nil => exact (costs_pure []).mono (Nat.zero_le _)
  | cons x xs ih =>
      have hstep := costs_bind (hf x) fun a => costs_bind ih fun as => costs_pure (a :: as)
      refine hstep.mono ?_
      rw [List.length_cons]
      exact Nat.le_of_eq (by ring)

/-! ## Actors -/

/-- An actor with its own state `ρ`: it is done, or it issues a request and goes
on from the state it is handed back. At most `n` requests are left to it. -/
inductive Act (ρ ω α : Type) : ℕ → Type
  | done {n : ℕ} (r : ρ) (a : α) : Act ρ ω α n
  | ask {n : ℕ} (r : ρ) (q : ω) (next : ρ → Act ρ ω α n) : Act ρ ω α (n + 1)

/-- Where in the whole state the actor's own part is. -/
structure Part (σ ρ : Type) where
  get : σ → ρ
  set : ρ → σ → σ

variable {ρ ω : Type}

/-- Run an actor, its requests answered by `serve`. -/
def Act.exec (p : Part σ ρ) (serve : ω → Prog σ ε Unit) {n : ℕ} : Act ρ ω α n → Prog σ ε α
  | .done r a => do change (p.set r); pure a
  | .ask r q next => do
      change (p.set r)
      serve q
      let s ← look
      (next (p.get s)).exec p serve

variable {n : ℕ}

/-- An actor keeps what does not depend on its own part and what serving a
request keeps. -/
theorem meets_exec {p : Part σ ρ} {serve : ω → Prog σ ε Unit} {I : σ → Prop}
    (hown : ∀ r s, I s → I (p.set r s))
    (hserve : ∀ q s, I s → Meets P (serve q) s fun _ => I) (act : Act ρ ω α n) {s : σ}
    (hs : I s) : Meets P (act.exec p serve) s fun _ => I := by
  induction act generalizing s with
  | done r a =>
      rw [Act.exec]
      exact meets_bind (meets_change.mpr (meets_pure.mpr (hown r s hs)))
  | ask r q next ih =>
      rw [Act.exec]
      refine meets_bind (meets_change.mpr (meets_bind ?_))
      refine (hserve q _ (hown r s hs)).mono fun _ s' h => ?_
      exact meets_bind (meets_look.mpr (ih (p.get s') h))

/-- An operation of a part of the state, whose hits are served. -/
theorem tallies_exec {κ : Type} {L : Ledger ε κ} {p : Part σ ρ} {serve : ω → Prog σ ε Unit}
    {I : σ → κ → Prop} (hown : ∀ r s g, I s g → I (p.set r s) g)
    (hserve : ∀ q s g, I s g → Tallies L (serve q) s g fun _ => I) (act : Act ρ ω α n) :
    ∀ {s : σ} {g : κ}, I s g → Tallies L (act.exec p serve) s g fun _ => I := by
  induction act with
  | done r a =>
      intro s g hs
      rw [Act.exec]
      exact tallies_bind (tallies_change (tallies_pure (hown r s g hs)))
  | ask r q next ih =>
      intro s g hs
      rw [Act.exec]
      refine tallies_bind (tallies_change (tallies_bind ?_))
      refine (hserve q _ _ (hown r s g hs)).mono fun _ s' g' h => ?_
      exact tallies_bind (tallies_look (ih (p.get s') h))

/-- An actor without requests. -/
theorem meets_exec_done {p : Part σ ρ} {serve : ω → Prog σ ε Unit} {r : ρ} {a : α}
    {Q : α → σ → Prop} (h : Q a (p.set r s)) :
    Meets P ((Act.done r a : Act ρ ω α n).exec p serve) s Q := by
  rw [Act.exec]
  exact meets_bind (meets_change.mpr (meets_pure.mpr h))

/-- An operation that issues `n` hits costs what they do. -/
theorem costs_exec {p : Part σ ρ} {serve : ω → Prog σ ε Unit} (hserve : ∀ q, Costs c (serve q) k)
    (act : Act ρ ω α n) : Costs c (act.exec p serve : Prog σ ε α) (n * k) := by
  induction act with
  | done r a =>
      rw [Act.exec]
      exact (costs_bind (costs_change _) fun _ => costs_pure a).mono (Nat.zero_le _)
  | @ask n r q next ih =>
      rw [Act.exec]
      have hrest := costs_bind costs_look fun s : σ => ih (p.get s)
      refine (costs_bind (costs_change (p.set r)) fun _ =>
        costs_bind (hserve q) fun _ => hrest).mono ?_
      exact Nat.le_of_eq (by ring)

end Trace
