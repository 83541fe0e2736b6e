/-
Directories of slots, and two write-back levels over a memory.

A cache is a set of slots, each empty or holding one key with its value. What a
client of it sees is the lookup, a partial map from keys to values, and that
map is only well defined while no key sits in two slots (`Distinct`). The first
half of this file says what emptying, filling and rewriting one slot does to
the lookup.

The second half takes two such maps, `near` over `far` over a memory, each
entry carrying a dirty flag. `view` is what a read finds: the near copy, else
the far one, else memory. `Coherent` is the invariant that makes eviction safe
in any order: a clean copy equals what lies below it. A near copy and a far copy
of one key may both be dirty; the near one is then the newer. Every movement of
data between the levels keeps the view (`Moves`), and only a store, a memory
write under empty levels and a discard change it, at one key.

`Flows` is the same movements by name, with no invariant asked: a property of
one key that each of them keeps is kept by all of them (`Shown`), also where
the copies of another key are out of step.
-/
import Mathlib.Data.Finset.Basic
import Mathlib.Logic.Function.Basic
import Mathlib.Logic.Relation

set_option autoImplicit false

namespace Hierarchy

/-! ## Directories -/

section Directory

variable {ι κ ν : Type}

/-- No key is held by two slots. -/
def Distinct (dir : ι → Option (κ × ν)) : Prop :=
  ∀ i j k v v', dir i = some (k, v) → dir j = some (k, v') → i = j

open Classical in
/-- The value held for a key, wherever it sits. -/
noncomputable def lookup (dir : ι → Option (κ × ν)) (k : κ) : Option ν :=
  if h : ∃ v i, dir i = some (k, v) then some h.choose else none

theorem lookup_eq_some_iff {dir : ι → Option (κ × ν)} (hd : Distinct dir) (k : κ) (v : ν) :
    lookup dir k = some v ↔ ∃ i, dir i = some (k, v) := by
  unfold lookup
  constructor
  · intro h
    by_cases hex : ∃ v i, dir i = some (k, v)
    · rw [dif_pos hex, Option.some.injEq] at h
      rw [← h]
      exact hex.choose_spec
    · rw [dif_neg hex] at h
      exact absurd h (by simp)
  · rintro ⟨i, hi⟩
    have hex : ∃ v i, dir i = some (k, v) := ⟨v, i, hi⟩
    obtain ⟨j, hj⟩ := hex.choose_spec
    have hij := hd i j k v _ hi hj
    rw [dif_pos hex, Option.some.injEq]
    rw [← hij, hi, Option.some.injEq, Prod.mk.injEq] at hj
    exact hj.2.symm

theorem lookup_eq_none_iff {dir : ι → Option (κ × ν)} (hd : Distinct dir) (k : κ) :
    lookup dir k = none ↔ ∀ i v, dir i ≠ some (k, v) := by
  rw [Option.eq_none_iff_forall_ne_some]
  constructor
  · intro h i v hi
    exact h v ((lookup_eq_some_iff hd k v).mpr ⟨i, hi⟩)
  · intro h v hv
    obtain ⟨i, hi⟩ := (lookup_eq_some_iff hd k v).mp hv
    exact h i v hi

/-- A directory with nothing in it. -/
theorem lookup_empty {dir : ι → Option (κ × ν)} (h : ∀ i, dir i = none) :
    lookup dir = fun _ => none := by
  have hd : Distinct dir := by
    intro i j k v v' hi
    rw [h i] at hi
    exact absurd hi (by simp)
  funext k
  rw [lookup_eq_none_iff hd]
  intro i v
  rw [h i]
  simp

variable [DecidableEq ι]

/-- Emptying a slot keeps the directory. -/
theorem Distinct.clear {dir : ι → Option (κ × ν)} (hd : Distinct dir) (i : ι) :
    Distinct (Function.update dir i none) := by
  intro a b k v v' ha hb
  by_cases hai : a = i
  · rw [hai, Function.update_self] at ha
    exact absurd ha (by simp)
  · by_cases hbi : b = i
    · rw [hbi, Function.update_self] at hb
      exact absurd hb (by simp)
    · rw [Function.update_of_ne hai] at ha
      rw [Function.update_of_ne hbi] at hb
      exact hd a b k v v' ha hb

/-- A slot may take a key nothing else holds. -/
theorem Distinct.place {dir : ι → Option (κ × ν)} (hd : Distinct dir) (i : ι) (k : κ) (v : ν)
    (hfree : ∀ j w, j ≠ i → dir j ≠ some (k, w)) :
    Distinct (Function.update dir i (some (k, v))) := by
  intro a b k' u u' ha hb
  by_cases hai : a = i
  · by_cases hbi : b = i
    · rw [hai, hbi]
    · rw [hai, Function.update_self, Option.some.injEq, Prod.mk.injEq] at ha
      rw [Function.update_of_ne hbi, ← ha.1] at hb
      exact absurd hb (hfree b u' hbi)
  · rw [Function.update_of_ne hai] at ha
    by_cases hbi : b = i
    · rw [hbi, Function.update_self, Option.some.injEq, Prod.mk.injEq] at hb
      rw [← hb.1] at ha
      exact absurd ha (hfree a u hai)
    · rw [Function.update_of_ne hbi] at hb
      exact hd a b k' u u' ha hb

/-- Emptying an empty slot changes nothing. -/
theorem update_none_of_none {dir : ι → Option (κ × ν)} {i : ι} (hi : dir i = none) :
    Function.update dir i none = dir := by
  rw [← hi, Function.update_eq_self]

variable [DecidableEq κ]

theorem lookup_clear {dir : ι → Option (κ × ν)} (hd : Distinct dir) {i : ι} {k : κ} {v : ν}
    (hi : dir i = some (k, v)) :
    lookup (Function.update dir i none) = Function.update (lookup dir) k none := by
  funext k'
  have hd' := hd.clear i
  by_cases hk : k' = k
  · rw [hk, Function.update_self, lookup_eq_none_iff hd']
    intro j w hj
    by_cases hji : j = i
    · rw [hji, Function.update_self] at hj
      exact absurd hj (by simp)
    · rw [Function.update_of_ne hji] at hj
      exact hji (hd j i k w v hj hi)
  · rw [Function.update_of_ne hk]
    apply Option.ext
    intro w
    rw [lookup_eq_some_iff hd', lookup_eq_some_iff hd]
    constructor
    · rintro ⟨j, hj⟩
      by_cases hji : j = i
      · rw [hji, Function.update_self] at hj
        exact absurd hj (by simp)
      · rw [Function.update_of_ne hji] at hj
        exact ⟨j, hj⟩
    · rintro ⟨j, hj⟩
      have hji : j ≠ i := by
        intro h
        rw [h, hi, Option.some.injEq, Prod.mk.injEq] at hj
        exact hk hj.1.symm
      exact ⟨j, by rw [Function.update_of_ne hji]; exact hj⟩

/-- Placing a key into the slot that held it, or into an empty slot when nothing
held it. -/
theorem lookup_place {dir : ι → Option (κ × ν)} (hd : Distinct dir) (i : ι) (k : κ) (v : ν)
    (hfree : ∀ j w, j ≠ i → dir j ≠ some (k, w))
    (hold : ∀ k' w, dir i = some (k', w) → k' = k) :
    lookup (Function.update dir i (some (k, v))) = Function.update (lookup dir) k (some v) := by
  funext k'
  have hd' := hd.place i k v hfree
  by_cases hk : k' = k
  · rw [hk, Function.update_self, lookup_eq_some_iff hd']
    exact ⟨i, Function.update_self _ _ _⟩
  · rw [Function.update_of_ne hk]
    apply Option.ext
    intro w
    rw [lookup_eq_some_iff hd', lookup_eq_some_iff hd]
    constructor
    · rintro ⟨j, hj⟩
      by_cases hji : j = i
      · rw [hji, Function.update_self, Option.some.injEq, Prod.mk.injEq] at hj
        exact absurd hj.1.symm hk
      · rw [Function.update_of_ne hji] at hj
        exact ⟨j, hj⟩
    · rintro ⟨j, hj⟩
      have hji : j ≠ i := by
        intro h
        rw [h] at hj
        exact hk (hold k' w hj)
      exact ⟨j, by rw [Function.update_of_ne hji]; exact hj⟩

end Directory

/-! ## Two write-back levels -/

/-- The levels: each entry is a value and whether it is dirty. -/
structure Levels (κ ν : Type) where
  near : κ → Option (ν × Bool)
  far : κ → Option (ν × Bool)
  mem : κ → ν

namespace Levels

variable {κ ν : Type}

/-- What lies below the near level. -/
def below (h : Levels κ ν) (k : κ) : ν :=
  match h.far k with
  | some e => e.1
  | none => h.mem k

/-- What a read finds. -/
def view (h : Levels κ ν) (k : κ) : ν :=
  match h.near k with
  | some e => e.1
  | none => h.below k

/-- A clean copy equals what lies below it. -/
structure Coherent (h : Levels κ ν) : Prop where
  near : ∀ k v, h.near k = some (v, false) → v = h.below k
  far : ∀ k v, h.far k = some (v, false) → v = h.mem k

theorem below_of_far {h : Levels κ ν} {k : κ} {e : ν × Bool} (hf : h.far k = some e) :
    h.below k = e.1 := by simp only [below, hf]

theorem below_of_none {h : Levels κ ν} {k : κ} (hf : h.far k = none) : h.below k = h.mem k := by
  simp only [below, hf]

theorem view_of_near {h : Levels κ ν} {k : κ} {e : ν × Bool} (hn : h.near k = some e) :
    h.view k = e.1 := by simp only [view, hn]

theorem view_of_none {h : Levels κ ν} {k : κ} (hn : h.near k = none) : h.view k = h.below k := by
  simp only [view, hn]

/-- The view at a key depends on the levels at that key only. -/
theorem view_congr {h h' : Levels κ ν} {k : κ} (hn : h'.near k = h.near k)
    (hf : h'.far k = h.far k) (hm : h'.mem k = h.mem k) : h'.view k = h.view k := by
  simp only [view, below, hn, hf, hm]

/-- Coherence is a condition on each key by itself. -/
def CoherentAt (h : Levels κ ν) (k : κ) : Prop :=
  (∀ v, h.near k = some (v, false) → v = h.below k)
  ∧ (∀ v, h.far k = some (v, false) → v = h.mem k)

theorem coherent_iff (h : Levels κ ν) : h.Coherent ↔ ∀ k, h.CoherentAt k :=
  ⟨fun hc k => ⟨hc.near k, hc.far k⟩, fun hc => ⟨fun k => (hc k).1, fun k => (hc k).2⟩⟩

theorem coherentAt_congr {h h' : Levels κ ν} {k : κ} (hn : h'.near k = h.near k)
    (hf : h'.far k = h.far k) (hm : h'.mem k = h.mem k) (hc : h.CoherentAt k) :
    h'.CoherentAt k := by
  simpa only [CoherentAt, below, hn, hf, hm] using hc

/-- With both levels empty there is nothing to keep in step. -/
theorem coherent_of_empty {h : Levels κ ν} (hn : ∀ k, h.near k = none) (hf : ∀ k, h.far k = none) :
    h.Coherent :=
  ⟨fun k v hv => absurd hv (by rw [hn k]; simp), fun k v hv => absurd hv (by rw [hf k]; simp)⟩

/-- A movement of data: coherence is kept, and no read can tell. -/
def Moves (h h' : Levels κ ν) : Prop := h.Coherent → h'.Coherent ∧ h'.view = h.view

theorem Moves.refl (h : Levels κ ν) : Moves h h := fun hc => ⟨hc, rfl⟩

theorem Moves.trans {h₁ h₂ h₃ : Levels κ ν} (h₁₂ : Moves h₁ h₂) (h₂₃ : Moves h₂ h₃) :
    Moves h₁ h₃ := by
  intro hc
  obtain ⟨hc₂, hv₂⟩ := h₁₂ hc
  obtain ⟨hc₃, hv₃⟩ := h₂₃ hc₂
  exact ⟨hc₃, hv₃.trans hv₂⟩

/-- A change confined to one key is a movement when it is one at that key. -/
theorem moves_of_key {h h' : Levels κ ν} (k : κ)
    (hn : ∀ j, j ≠ k → h'.near j = h.near j) (hf : ∀ j, j ≠ k → h'.far j = h.far j)
    (hm : ∀ j, j ≠ k → h'.mem j = h.mem j)
    (hk : h.CoherentAt k → h'.CoherentAt k ∧ h'.view k = h.view k) : Moves h h' := by
  intro hc
  rw [coherent_iff] at hc ⊢
  obtain ⟨hck, hvk⟩ := hk (hc k)
  refine ⟨fun j => ?_, funext fun j => ?_⟩
  · by_cases hj : j = k
    · rw [hj]; exact hck
    · exact coherentAt_congr (hn j hj) (hf j hj) (hm j hj) (hc j)
  · by_cases hj : j = k
    · rw [hj]; exact hvk
    · exact view_congr (hn j hj) (hf j hj) (hm j hj)

/-- Neither level holds a modified copy of the key, nor, when asked, any copy. -/
structure Settled (h : Levels κ ν) (k : κ) (empty : Bool) : Prop where
  near : ∀ v, h.near k ≠ some (v, true)
  far : ∀ v, h.far k ≠ some (v, true)
  none : empty = true → h.near k = none ∧ h.far k = none

/-- A settled key's memory is what every read finds. -/
theorem Settled.view {h : Levels κ ν} (hc : h.Coherent) {k : κ} {empty : Bool}
    (hs : h.Settled k empty) : h.view k = h.mem k := by
  have hbelow : h.below k = h.mem k := by
    rcases hf : h.far k with _ | ⟨v, d⟩
    · exact below_of_none hf
    · cases d with
      | false =>
          rw [below_of_far hf]
          exact hc.far k v hf
      | true => exact absurd hf (hs.far v)
  rcases hn : h.near k with _ | ⟨v, d⟩
  · rw [view_of_none hn, hbelow]
  · cases d with
    | false =>
        rw [view_of_near hn, ← hbelow]
        exact hc.near k v hn
    | true => exact absurd hn (hs.near v)

/-- The two states agree at a key. -/
structure SameAt (k : κ) (h h' : Levels κ ν) : Prop where
  near : h'.near k = h.near k
  far : h'.far k = h.far k
  mem : h'.mem k = h.mem k

theorem SameAt.trans {k : κ} {h₁ h₂ h₃ : Levels κ ν} (h₁₂ : SameAt k h₁ h₂)
    (h₂₃ : SameAt k h₂ h₃) : SameAt k h₁ h₃ :=
  ⟨h₂₃.near.trans h₁₂.near, h₂₃.far.trans h₁₂.far, h₂₃.mem.trans h₁₂.mem⟩

theorem Settled.congr {h h' : Levels κ ν} {k : κ} {empty : Bool} (hs : h.Settled k empty)
    (hsame : SameAt k h h') : h'.Settled k empty := by
  refine ⟨?_, ?_, ?_⟩
  · rw [hsame.near]; exact hs.near
  · rw [hsame.far]; exact hs.far
  · rw [hsame.near, hsame.far]; exact hs.none

/-- A property of a key's value that a read finds, and goes on finding whatever moves: the near
copy has it, and so has what lies below, down to the first modified copy. -/
structure Shown (k : κ) (p : ν → Prop) (h : Levels κ ν) : Prop where
  near : ∀ v d, h.near k = some (v, d) → p v
  below : (∃ v, h.near k = some (v, true))
    ∨ (∀ v d, h.far k = some (v, d) → p v) ∧ ((∃ v, h.far k = some (v, true)) ∨ p (h.mem k))

theorem Shown.congr {k : κ} {p : ν → Prop} {h h' : Levels κ ν} (hs : Shown k p h)
    (hsame : SameAt k h h') : Shown k p h' := by
  refine ⟨?_, ?_⟩
  · rw [hsame.near]; exact hs.near
  · rw [hsame.near, hsame.far, hsame.mem]; exact hs.below

/-- What lies below an absent near copy has the property. -/
theorem Shown.below_of_none {k : κ} {p : ν → Prop} {h : Levels κ ν} (hs : Shown k p h)
    (hn : h.near k = none) : p (h.below k) := by
  have hfar := hs.below.resolve_left (by rw [hn]; simp)
  rcases hf : h.far k with _ | ⟨v, d⟩
  · rw [Levels.below_of_none hf]
    exact hfar.2.resolve_left (by rw [hf]; simp)
  · rw [below_of_far hf]
    exact hfar.1 v d hf

/-- A read finds it. -/
theorem Shown.view {k : κ} {p : ν → Prop} {h : Levels κ ν} (hs : Shown k p h) : p (h.view k) := by
  rcases hn : h.near k with _ | ⟨v, d⟩
  · rw [view_of_none hn]
    exact hs.below_of_none hn
  · rw [view_of_near hn]
    exact hs.near v d hn

variable [DecidableEq κ]

def setNear (h : Levels κ ν) (k : κ) (e : Option (ν × Bool)) : Levels κ ν :=
  { h with near := Function.update h.near k e }

def setFar (h : Levels κ ν) (k : κ) (e : Option (ν × Bool)) : Levels κ ν :=
  { h with far := Function.update h.far k e }

def setMem (h : Levels κ ν) (k : κ) (v : ν) : Levels κ ν :=
  { h with mem := Function.update h.mem k v }

theorem sameAt_setNear {h : Levels κ ν} {j k : κ} (hj : j ≠ k) (e : Option (ν × Bool)) :
    SameAt j h (h.setNear k e) :=
  ⟨Function.update_of_ne hj _ _, rfl, rfl⟩

theorem sameAt_setFar {h : Levels κ ν} {j k : κ} (hj : j ≠ k) (e : Option (ν × Bool)) :
    SameAt j h (h.setFar k e) :=
  ⟨rfl, Function.update_of_ne hj _ _, rfl⟩

theorem sameAt_setMem {h : Levels κ ν} {j k : κ} (hj : j ≠ k) (v : ν) :
    SameAt j h (h.setMem k v) :=
  ⟨rfl, rfl, Function.update_of_ne hj _ _⟩

theorem value_setNear {h : Levels κ ν} {k : κ} {v w : ν} {d e : Bool}
    (hw : (h.setNear k (some (v, d))).near k = some (w, e)) : v = w := by
  simp only [setNear, Function.update_self, Option.some.injEq, Prod.mk.injEq] at hw
  exact hw.1

theorem value_setFar {h : Levels κ ν} {k : κ} {v w : ν} {d e : Bool}
    (hw : (h.setFar k (some (v, d))).far k = some (w, e)) : v = w := by
  simp only [setFar, Function.update_self, Option.some.injEq, Prod.mk.injEq] at hw
  exact hw.1

/-- Dropping a clean near copy. -/
theorem moves_dropNear (h : Levels κ ν) (k : κ) (hclean : ∀ v, h.near k ≠ some (v, true)) :
    Moves h (h.setNear k none) := by
  apply moves_of_key k
  · intro j hj; exact Function.update_of_ne hj _ _
  · intro j _; rfl
  · intro j _; rfl
  · rintro ⟨hnear, hfar⟩
    refine ⟨⟨fun v hv => ?_, hfar⟩, ?_⟩
    · simp [setNear] at hv
    · rcases hn : h.near k with _ | ⟨v, d⟩
      · simp [view, setNear, hn, below]
      · have hd : d = false := by
          by_contra hd
          rw [Bool.not_eq_false] at hd
          exact hclean v (by rw [hn, hd])
        have := hnear v (by rw [hn, hd])
        simp [view, setNear, hn, below] at this ⊢
        exact this.symm

/-- Dropping a clean far copy. -/
theorem moves_dropFar (h : Levels κ ν) (k : κ) (hclean : ∀ v, h.far k ≠ some (v, true)) :
    Moves h (h.setFar k none) := by
  apply moves_of_key k
  · intro j _; rfl
  · intro j hj; exact Function.update_of_ne hj _ _
  · intro j _; rfl
  · rintro ⟨hnear, hfar⟩
    have hbelow : (h.setFar k none).below k = h.below k := by
      rcases hf : h.far k with _ | ⟨v, d⟩
      · simp [setFar, below, hf]
      · have hd : d = false := by
          by_contra hd
          rw [Bool.not_eq_false] at hd
          exact hclean v (by rw [hf, hd])
        have := hfar v (by rw [hf, hd])
        simp [setFar, below, hf, this]
    refine ⟨⟨fun v hv => ?_, fun v hv => ?_⟩, ?_⟩
    · rw [hbelow]; exact hnear v hv
    · simp [setFar] at hv
    · simp only [view, hbelow]
      rfl

/-- Writing a far copy back and leaving it clean. -/
theorem moves_cleanFar (h : Levels κ ν) (k : κ) {v : ν} {d : Bool}
    (hf : h.far k = some (v, d)) : Moves h ((h.setMem k v).setFar k (some (v, false))) := by
  apply moves_of_key k
  · intro j _; rfl
  · intro j hj; exact Function.update_of_ne hj _ _
  · intro j hj; exact Function.update_of_ne hj _ _
  · rintro ⟨hnear, hfar⟩
    have hbelow : ((h.setMem k v).setFar k (some (v, false))).below k = h.below k := by
      simp [setFar, setMem, below, hf]
    refine ⟨⟨fun w hw => ?_, fun w hw => ?_⟩, ?_⟩
    · rw [hbelow]; exact hnear w hw
    · simp [setFar, setMem] at hw ⊢
      exact hw.symm
    · simp only [view, hbelow]
      rfl

/-- Filling the near level from below. -/
theorem moves_fillNear (h : Levels κ ν) (k : κ) (hn : h.near k = none) :
    Moves h (h.setNear k (some (h.below k, false))) := by
  apply moves_of_key k
  · intro j hj; exact Function.update_of_ne hj _ _
  · intro j _; rfl
  · intro j _; rfl
  · rintro ⟨_, hfar⟩
    refine ⟨⟨fun v hv => ?_, hfar⟩, ?_⟩
    · simp [setNear] at hv
      rw [← hv]
      rfl
    · simp [view, setNear, hn]

/-- Leaving a clean far copy of memory. -/
theorem moves_fillFar (h : Levels κ ν) (k : κ) (hf : h.far k = none) :
    Moves h (h.setFar k (some (h.mem k, false))) := by
  apply moves_of_key k
  · intro j _; rfl
  · intro j hj; exact Function.update_of_ne hj _ _
  · intro j _; rfl
  · rintro ⟨hnear, _⟩
    have hbelow : (h.setFar k (some (h.mem k, false))).below k = h.below k := by
      simp [setFar, below, hf]
    refine ⟨⟨fun v hv => ?_, fun v hv => ?_⟩, ?_⟩
    · rw [hbelow]; exact hnear v hv
    · simp [setFar] at hv ⊢
      exact hv.symm
    · simp only [view, hbelow]
      rfl

/-- Casting a near copy out into the far level, over any older far copy. -/
theorem moves_castNear (h : Levels κ ν) (k : κ) {v : ν} {d : Bool}
    (hn : h.near k = some (v, d)) :
    Moves h ((h.setFar k (some (v, true))).setNear k (some (v, false))) := by
  apply moves_of_key k
  · intro j hj; exact Function.update_of_ne hj _ _
  · intro j hj; exact Function.update_of_ne hj _ _
  · intro j _; rfl
  · intro _
    refine ⟨⟨fun w hw => ?_, fun w hw => ?_⟩, ?_⟩
    · simp [setNear, setFar, below] at hw ⊢
      exact hw.symm
    · simp [setNear, setFar] at hw
    · simp [view, setNear, setFar, hn]

/-- Pushing a near copy to memory, an older far copy dying with it. -/
theorem moves_pushNear (h : Levels κ ν) (k : κ) {v : ν} {d : Bool}
    (hn : h.near k = some (v, d)) :
    Moves h (((h.setMem k v).setFar k none).setNear k (some (v, false))) := by
  apply moves_of_key k
  · intro j hj; exact Function.update_of_ne hj _ _
  · intro j hj; exact Function.update_of_ne hj _ _
  · intro j hj; exact Function.update_of_ne hj _ _
  · intro _
    refine ⟨⟨fun w hw => ?_, fun w hw => ?_⟩, ?_⟩
    · simp [setNear, setFar, setMem, below] at hw ⊢
      exact hw.symm
    · simp [setNear, setFar, setMem] at hw
    · simp [view, setNear, setMem, setFar, hn]

/-! ## Movements without an invariant -/

/-- One movement. `may` names the keys a fill may bring in. -/
inductive Flow (may : κ → Prop) : Levels κ ν → Levels κ ν → Prop
  | dropNear (h : Levels κ ν) (k : κ) (hclean : ∀ v, h.near k ≠ some (v, true)) :
      Flow may h (h.setNear k none)
  | dropFar (h : Levels κ ν) (k : κ) (hclean : ∀ v, h.far k ≠ some (v, true)) :
      Flow may h (h.setFar k none)
  | cleanFar (h : Levels κ ν) (k : κ) (v : ν) (d : Bool) (hf : h.far k = some (v, d)) :
      Flow may h ((h.setMem k v).setFar k (some (v, false)))
  | fillNear (h : Levels κ ν) (k : κ) (hmay : may k) (hn : h.near k = none) :
      Flow may h (h.setNear k (some (h.below k, false)))
  | fillFar (h : Levels κ ν) (k : κ) (hmay : may k) (hf : h.far k = none) :
      Flow may h (h.setFar k (some (h.mem k, false)))
  | castNear (h : Levels κ ν) (k : κ) (v : ν) (d : Bool) (hn : h.near k = some (v, d)) :
      Flow may h ((h.setFar k (some (v, true))).setNear k (some (v, false)))
  | pushNear (h : Levels κ ν) (k : κ) (v : ν) (d : Bool) (hn : h.near k = some (v, d)) :
      Flow may h (((h.setMem k v).setFar k none).setNear k (some (v, false)))

/-- Any number of them. -/
abbrev Flows (may : κ → Prop) : Levels κ ν → Levels κ ν → Prop :=
  Relation.ReflTransGen (Flow may)

variable {may : κ → Prop}

theorem Flow.moves {h h' : Levels κ ν} (hflow : Flow may h h') : Moves h h' := by
  cases hflow with
  | dropNear k hclean => exact moves_dropNear h k hclean
  | dropFar k hclean => exact moves_dropFar h k hclean
  | cleanFar k v d hf => exact moves_cleanFar h k hf
  | fillNear k _ hn => exact moves_fillNear h k hn
  | fillFar k _ hf => exact moves_fillFar h k hf
  | castNear k v d hn => exact moves_castNear h k hn
  | pushNear k v d hn => exact moves_pushNear h k hn

theorem Flows.moves {h h' : Levels κ ν} (hflows : Flows may h h') : Moves h h' := by
  induction hflows with
  | refl => exact Moves.refl h
  | tail _ hstep ih => exact ih.trans hstep.moves

theorem Flow.mono {may' : κ → Prop} (hsub : ∀ k, may k → may' k) {h h' : Levels κ ν}
    (hflow : Flow may h h') : Flow may' h h' := by
  cases hflow with
  | dropNear k hclean => exact Flow.dropNear h k hclean
  | dropFar k hclean => exact Flow.dropFar h k hclean
  | cleanFar k v d hf => exact Flow.cleanFar h k v d hf
  | fillNear k hmay hn => exact Flow.fillNear h k (hsub k hmay) hn
  | fillFar k hmay hf => exact Flow.fillFar h k (hsub k hmay) hf
  | castNear k v d hn => exact Flow.castNear h k v d hn
  | pushNear k v d hn => exact Flow.pushNear h k v d hn

theorem Flows.mono {may' : κ → Prop} (hsub : ∀ k, may k → may' k) {h h' : Levels κ ν}
    (hflows : Flows may h h') : Flows may' h h' :=
  Relation.ReflTransGen.mono (fun _ _ hstep => Flow.mono hsub hstep) _ _ hflows

/-- What every movement keeps, any number of them keep. -/
theorem Flows.keeps {P : Levels κ ν → Prop} (hkeep : ∀ h h', Flow may h h' → P h → P h')
    {h h' : Levels κ ν} (hflows : Flows may h h') (hP : P h) : P h' := by
  induction hflows with
  | refl => exact hP
  | tail _ hstep ih => exact hkeep _ _ hstep ih

/-- Evicting a far copy, written back first when it is dirty. -/
theorem flows_evictFar (h : Levels κ ν) (j : κ) {v : ν} {d : Bool} (hf : h.far j = some (v, d)) :
    Flows may h ((if d then h.setMem j v else h).setFar j none) := by
  cases d with
  | false =>
      have hclean : ∀ w, h.far j ≠ some (w, true) := by
        intro w
        rw [hf]
        simp
      exact Relation.ReflTransGen.single (Flow.dropFar h j hclean)
  | true =>
      -- written back it is clean, and a clean copy may be dropped
      have hclean : ∀ w, ((h.setMem j v).setFar j (some (v, false))).far j ≠ some (w, true) := by
        intro w
        simp [setFar]
      have hdrop : Flow may _ _ := Flow.dropFar _ j hclean
      have hsame : ((h.setMem j v).setFar j (some (v, false))).setFar j none
          = (h.setMem j v).setFar j none := by
        simp only [setFar, Function.update_idem]
      rw [hsame] at hdrop
      exact (Relation.ReflTransGen.single (Flow.cleanFar h j v true hf)).tail hdrop

/-- Movements that leave the near level and the key `k` alone. -/
structure FlowsOff (k : κ) (h h' : Levels κ ν) : Prop where
  flows : Flows (fun _ => False) h h'
  near : h'.near = h.near
  far : h'.far k = h.far k
  mem : h'.mem k = h.mem k

theorem FlowsOff.refl (k : κ) (h : Levels κ ν) : FlowsOff k h h :=
  ⟨Relation.ReflTransGen.refl, rfl, rfl, rfl⟩

/-- Evicting another key's far copy leaves a key alone. -/
theorem flowsOff_evictFar (h : Levels κ ν) {k j : κ} (hjk : j ≠ k) {v : ν} {d : Bool}
    (hf : h.far j = some (v, d)) :
    FlowsOff k h ((if d then h.setMem j v else h).setFar j none) := by
  have hkj : k ≠ j := fun hkj => hjk hkj.symm
  cases d with
  | false => exact ⟨flows_evictFar h j hf, rfl, Function.update_of_ne hkj _ _, rfl⟩
  | true =>
      exact ⟨flows_evictFar h j hf, rfl, Function.update_of_ne hkj _ _,
        Function.update_of_ne hkj _ _⟩

/-- Every movement keeps what is shown. -/
theorem Shown.flow {k : κ} {p : ν → Prop} {h h' : Levels κ ν} (hs : Shown k p h)
    (hflow : Flow may h h') : Shown k p h' := by
  obtain ⟨hnear, hbelow⟩ := hs
  -- a movement at another key leaves this one alone; at this key, one argument a movement
  cases hflow with
  | dropNear j hclean =>
      by_cases hk : k = j
      · subst hk
        have hfar := hbelow.resolve_left fun hdirty => hclean _ hdirty.choose_spec
        exact ⟨by simp [setNear], Or.inr hfar⟩
      · exact Shown.congr ⟨hnear, hbelow⟩ (sameAt_setNear hk _)
  | dropFar j hclean =>
      by_cases hk : k = j
      · subst hk
        refine ⟨hnear, hbelow.imp_right ?_⟩
        rintro ⟨_, hlast⟩
        have hmem := hlast.resolve_left fun hdirty => hclean _ hdirty.choose_spec
        exact ⟨by simp [setFar], Or.inr hmem⟩
      · exact Shown.congr ⟨hnear, hbelow⟩ (sameAt_setFar hk _)
  | cleanFar j v d hf =>
      by_cases hk : k = j
      · subst hk
        refine ⟨hnear, hbelow.imp_right ?_⟩
        rintro ⟨hfar, _⟩
        have hv := hfar v d hf
        refine ⟨fun w e hw => ?_, Or.inr (by simpa [setFar, setMem] using hv)⟩
        rw [← value_setFar hw]
        exact hv
      · exact Shown.congr ⟨hnear, hbelow⟩ ((sameAt_setMem hk _).trans (sameAt_setFar hk _))
  | fillNear j hmay hn =>
      by_cases hk : k = j
      · subst hk
        have hval := Shown.below_of_none ⟨hnear, hbelow⟩ hn
        have hfar := hbelow.resolve_left (by rw [hn]; simp)
        refine ⟨fun w e hw => ?_, Or.inr hfar⟩
        rw [← value_setNear hw]
        exact hval
      · exact Shown.congr ⟨hnear, hbelow⟩ (sameAt_setNear hk _)
  | fillFar j hmay hf =>
      by_cases hk : k = j
      · subst hk
        refine ⟨hnear, hbelow.imp_right ?_⟩
        rintro ⟨_, hlast⟩
        have hmem := hlast.resolve_left (by rw [hf]; simp)
        refine ⟨fun w e hw => ?_, Or.inr hmem⟩
        rw [← value_setFar hw]
        exact hmem
      · exact Shown.congr ⟨hnear, hbelow⟩ (sameAt_setFar hk _)
  | castNear j v d hn =>
      by_cases hk : k = j
      · subst hk
        have hv := hnear v d hn
        refine ⟨fun w e hw => ?_, Or.inr ⟨fun w e hw => ?_, Or.inl ⟨v, ?_⟩⟩⟩
        · rw [← value_setNear hw]
          exact hv
        · rw [← value_setFar (h := h) hw]
          exact hv
        · simp [setNear, setFar]
      · exact Shown.congr ⟨hnear, hbelow⟩ ((sameAt_setFar hk _).trans (sameAt_setNear hk _))
  | pushNear j v d hn =>
      by_cases hk : k = j
      · subst hk
        have hv := hnear v d hn
        refine ⟨fun w e hw => ?_, Or.inr ⟨by simp [setNear, setFar], Or.inr ?_⟩⟩
        · rw [← value_setNear hw]
          exact hv
        · simpa [setNear, setFar, setMem] using hv
      · exact Shown.congr ⟨hnear, hbelow⟩
          (((sameAt_setMem hk _).trans (sameAt_setFar hk _)).trans (sameAt_setNear hk _))

theorem Shown.flows {k : κ} {p : ν → Prop} {h h' : Levels κ ν} (hs : Shown k p h)
    (hflows : Flows may h h') : Shown k p h' :=
  hflows.keeps (fun _ _ hflow hP => hP.flow hflow) hs

/-- A store into the near level: the view changes at that key only. -/
theorem store_coherent {h : Levels κ ν} (hc : h.Coherent) (k : κ) (v : ν) :
    (h.setNear k (some (v, true))).Coherent
      ∧ (h.setNear k (some (v, true))).view = Function.update h.view k v := by
  refine ⟨⟨fun j w hw => ?_, hc.far⟩, funext fun j => ?_⟩
  · by_cases hj : j = k
    · simp [setNear, hj] at hw
    · simp only [setNear, Function.update_of_ne hj] at hw
      exact hc.near j w hw
  · by_cases hj : j = k
    · simp [view, setNear, hj]
    · simp [view, setNear, hj, below]

/-- A write of memory under a key that neither level holds. -/
theorem writeMem_coherent {h : Levels κ ν} (hc : h.Coherent) (k : κ) (v : ν)
    (hn : h.near k = none) (hf : h.far k = none) :
    (h.setMem k v).Coherent ∧ (h.setMem k v).view = Function.update h.view k v := by
  refine ⟨⟨fun j w hw => ?_, fun j w hw => ?_⟩, funext fun j => ?_⟩
  · by_cases hj : j = k
    · rw [hj] at hw
      exact absurd (hn.symm.trans hw) (by simp)
    · rw [hc.near j w hw]
      simp [below, setMem, hj]
  · by_cases hj : j = k
    · rw [hj] at hw
      exact absurd (hf.symm.trans hw) (by simp)
    · rw [hc.far j w hw]
      simp [setMem, hj]
  · by_cases hj : j = k
    · simp [view, below, setMem, hj, hn, hf]
    · simp [view, below, setMem, hj]

/-- Discarding a key from both levels, dirty or not: memory is what is left. -/
theorem discard_coherent {h : Levels κ ν} (hc : h.Coherent) (k : κ) :
    ((h.setNear k none).setFar k none).Coherent
      ∧ ((h.setNear k none).setFar k none).view = Function.update h.view k (h.mem k) := by
  refine ⟨⟨fun j w hw => ?_, fun j w hw => ?_⟩, funext fun j => ?_⟩
  · by_cases hj : j = k
    · simp [setNear, setFar, hj] at hw
    · simp only [setNear, setFar, Function.update_of_ne hj] at hw
      rw [hc.near j w hw]
      simp [below, setFar, setNear, hj]
  · by_cases hj : j = k
    · simp [setNear, setFar, hj] at hw
    · simp only [setNear, setFar, Function.update_of_ne hj] at hw
      exact hc.far j w hw
  · by_cases hj : j = k
    · simp [view, below, setNear, setFar, hj]
    · simp [view, below, setNear, setFar, hj]

end Levels

end Hierarchy
