/-
Updates of a memory that read and write where they say, one after the other.

Where no update writes what a later one reads or writes, the run of them is what each would
make of the memory as it was (`runAll_written`), and where that holds both ways their order
does not matter (`run_comm`).
-/
import Mathlib

set_option autoImplicit false

namespace OpenPowerMac

/-- An update of a memory: what it writes is made of what it reads, and the rest is kept. -/
structure Job (A B : Type) where
  reads : Set A
  writes : Set A
  run : (A → B) → A → B
  frame : ∀ m, ∀ a ∉ writes, run m a = m a
  reads_only : ∀ m m', (∀ a ∈ reads, m a = m' a) → ∀ a ∈ writes, run m a = run m' a

namespace Job

variable {A B : Type}

/-- The first writes nothing the second reads or writes. -/
def Spares (j k : Job A B) : Prop := Disjoint j.writes k.reads ∧ Disjoint j.writes k.writes

/-- One update after the other. -/
def runAll (js : List (Job A B)) (m : A → B) : A → B := js.foldl (fun m j => j.run m) m

theorem runAll_cons (j : Job A B) (js : List (Job A B)) (m : A → B) :
    runAll (j :: js) m = runAll js (j.run m) := rfl

/-- An update that was spared makes what it would have made before. -/
theorem run_spared {j k : Job A B} (h : j.Spares k) (m : A → B) {a : A} (ha : a ∈ k.writes) :
    k.run (j.run m) a = k.run m a := by
  apply k.reads_only _ _ _ a ha
  intro b hb
  exact j.frame m b (Set.disjoint_right.mp h.1 hb)

theorem run_comm {j k : Job A B} (h : j.Spares k) (h' : k.Spares j) (m : A → B) :
    j.run (k.run m) = k.run (j.run m) := by
  funext a
  by_cases hj : a ∈ j.writes
  · have hk : a ∉ k.writes := Set.disjoint_left.mp h.2 hj
    rw [run_spared h' m hj, k.frame _ a hk]
  · by_cases hk : a ∈ k.writes
    · rw [run_spared h m hk, j.frame _ a hj]
    · rw [j.frame _ a hj, k.frame _ a hk, k.frame _ a hk, j.frame _ a hj]

/-- What no update writes is kept. -/
theorem runAll_frame (js : List (Job A B)) (m : A → B) {a : A} (h : ∀ j ∈ js, a ∉ j.writes) :
    runAll js m a = m a := by
  induction js generalizing m with
  | nil => rfl
  | cons j js ih =>
    rw [runAll_cons, ih _ fun k hk => h k (List.mem_cons_of_mem _ hk)]
    exact j.frame m a (h j List.mem_cons_self)

/-- **All at once.** Where each spares the later ones, each makes what it would have made of
the memory before all of them. -/
theorem runAll_written (js : List (Job A B)) (h : js.Pairwise Spares) (m : A → B) {j : Job A B}
    (hj : j ∈ js) {a : A} (ha : a ∈ j.writes) : runAll js m a = j.run m a := by
  induction js generalizing m with
  | nil => exact absurd hj List.not_mem_nil
  | cons k js ih =>
    rcases List.pairwise_cons.mp h with ⟨hk, hrest⟩
    rw [runAll_cons]
    rcases List.mem_cons.mp hj with rfl | hmem
    · -- the first one: none of the later writes over it
      apply runAll_frame
      intro j' hj'
      exact Set.disjoint_left.mp (hk j' hj').2 ha
    · rw [ih hrest _ hmem]
      exact run_spared (hk j hmem) m ha

theorem runAll_append (js ks : List (Job A B)) (m : A → B) :
    runAll (js ++ ks) m = runAll ks (runAll js m) := List.foldl_append

/-- Groups of updates, each of which comes to the same. -/
theorem runAll_flatMap_congr {ι : Type} (l : List ι) (f g : ι → List (Job A B))
    (h : ∀ i ∈ l, ∀ m, runAll (f i) m = runAll (g i) m) (m : A → B) :
    runAll (l.flatMap f) m = runAll (l.flatMap g) m := by
  induction l generalizing m with
  | nil => rfl
  | cons i l ih =>
    rw [List.flatMap_cons, List.flatMap_cons, runAll_append, runAll_append,
      h i List.mem_cons_self, ih fun k hk => h k (List.mem_cons_of_mem _ hk)]

/-- Updates that commute may be run in any order. -/
theorem runAll_perm {js ks : List (Job A B)} (hp : js.Perm ks)
    (h : ∀ j ∈ js, ∀ k ∈ js, ∀ m, j.run (k.run m) = k.run (j.run m)) (m : A → B) :
    runAll js m = runAll ks m :=
  hp.foldl_eq' (fun j hj k hk m => h k hk j hj m) m

end Job

end OpenPowerMac
