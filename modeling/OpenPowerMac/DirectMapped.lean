/-
A direct-mapped write-back cache over a backing array.

Every key has one slot. A line that is not there is brought in by `route`, which first puts
back a dirty line it replaces; an access to a single cell is served by the line when the
line is there, and by the array when it is not. The cells of a line have their homes in the
array through a partial map that may send two cells to one home. `Coherent` is stated for a
set of cells that the map does not confuse, and on it every operation keeps what is seen:
`view` is the line's cell when the line is there, and the home's otherwise.
-/
import Mathlib.Logic.Function.Basic
import Mathlib.Data.List.Basic

set_option autoImplicit false

namespace DirectMapped

/-- A line in its slot. -/
structure Line (κ ο β : Type) where
  key : κ
  dirty : Bool
  cells : ο → β

/-- The slots, and the array behind them. -/
structure State (ι κ ο ρ β : Type) where
  dir : ι → Option (Line κ ο β)
  mem : ρ → β

/-- The slot of a key, and the home of a cell. -/
structure Plan (ι κ ο ρ : Type) where
  slot : κ → ι
  home : κ → ο → Option ρ

variable {ι κ ο ρ β : Type}

namespace Plan

variable (p : Plan ι κ ο ρ)

/-- The line of a key, if it is there. -/
def held [DecidableEq κ] (s : State ι κ ο ρ β) (k : κ) : Option (Line κ ο β) :=
  (s.dir (p.slot k)).filter fun e => decide (e.key = k)

/-- What a cell is seen to hold; `blank` where it has no home. -/
def view [DecidableEq κ] (blank : β) (s : State ι κ ο ρ β) (k : κ) (o : ο) : β :=
  match p.held s k with
  | some e => e.cells o
  | none =>
    match p.home k o with
    | some r => s.mem r
    | none => blank

/-- The cells of a line put back, one by one. -/
def putBack [DecidableEq ρ] (os : List ο) (e : Line κ ο β) (m : ρ → β) : ρ → β :=
  os.foldl
    (fun m o =>
      match p.home e.key o with
      | some r => Function.update m r (e.cells o)
      | none => m)
    m

/-- The line as the array has it. -/
def fetched (blank : β) (m : ρ → β) (k : κ) : Line κ ο β where
  key := k
  dirty := false
  cells := fun o =>
    match p.home k o with
    | some r => m r
    | none => blank

/-- The array once the slot of `k` has been given up. -/
def vacated [DecidableEq ρ] (os : List ο) (s : State ι κ ο ρ β) (k : κ) : ρ → β :=
  match s.dir (p.slot k) with
  | some e => if e.dirty then p.putBack os e s.mem else s.mem
  | none => s.mem

/-- The line of `k` brought in, unless it is there. -/
def route [DecidableEq ι] [DecidableEq κ] [DecidableEq ρ] (blank : β) (os : List ο) (s : State ι κ ο ρ β) (k : κ) : State ι κ ο ρ β :=
  if (p.held s k).isSome then s
  else
    { dir := Function.update s.dir (p.slot k) (some (p.fetched blank (p.vacated os s k) k))
      mem := p.vacated os s k }

/-- New cells for the line of `k`, which is then dirty. -/
def putLine [DecidableEq ι] (s : State ι κ ο ρ β) (k : κ) (cells : ο → β) : State ι κ ο ρ β :=
  { s with dir := Function.update s.dir (p.slot k) (some ⟨k, true, cells⟩) }

/-- The cells of `used` all have homes, and different ones. -/
structure Apart (used : κ → ο → Prop) : Prop where
  home : ∀ k o, used k o → ∃ r, p.home k o = some r
  inj : ∀ k o k' o' r, used k o → used k' o' → p.home k o = some r → p.home k' o' = some r →
    k = k' ∧ o = o'

/-- Lines sit in their slots, consist of used cells, and agree with the array until they
are dirty. -/
structure Coherent (used : κ → ο → Prop) (s : State ι κ ο ρ β) : Prop where
  placed : ∀ i e, s.dir i = some e → p.slot e.key = i
  inside : ∀ i e, s.dir i = some e → ∀ o, used e.key o
  clean : ∀ i e, s.dir i = some e → e.dirty = false →
    ∀ o r, p.home e.key o = some r → s.mem r = e.cells o

variable {p} {used : κ → ο → Prop} {s : State ι κ ο ρ β} {blank : β} {os : List ο}

section Lookup

variable [DecidableEq κ]

theorem held_eq_some {k : κ} {e : Line κ ο β} :
    p.held s k = some e ↔ s.dir (p.slot k) = some e ∧ e.key = k := by
  rw [held, Option.filter_eq_some_iff, decide_eq_true_eq]

theorem held_none {k : κ} (h : s.dir (p.slot k) = none) : p.held s k = none := by
  rw [held, h]
  rfl

/-- A slot with another line in it. -/
theorem held_other {k : κ} {e : Line κ ο β} (h : s.dir (p.slot k) = some e) (hk : e.key ≠ k) :
    p.held s k = none := by
  rw [held, h, Option.filter_eq_none_iff]
  intro a ha
  rw [← Option.some.inj ha]
  simpa using hk

theorem held_of_dir (hc : p.Coherent used s) {i : ι} {e : Line κ ο β} (h : s.dir i = some e) :
    p.held s e.key = some e := by
  rw [held_eq_some, hc.placed i e h]
  exact ⟨h, rfl⟩

theorem view_held {k : κ} {e : Line κ ο β} (h : p.held s k = some e) (o : ο) :
    p.view blank s k o = e.cells o := by
  rw [view, h]

theorem view_missing {k : κ} {o : ο} {r : ρ} (h : p.held s k = none) (hr : p.home k o = some r) :
    p.view blank s k o = s.mem r := by
  rw [view, h, hr]

/-- With nothing in the cache every cell is seen at home. -/
theorem view_empty (h : ∀ i, s.dir i = none) {k : κ} {o : ο} {r : ρ} (hr : p.home k o = some r) :
    p.view blank s k o = s.mem r := by
  exact view_missing (held_none (h _)) hr

end Lookup

theorem Coherent.of_empty (h : ∀ i, s.dir i = none) : p.Coherent used s := by
  constructor <;> intro i e hi <;> rw [h i] at hi <;> cases hi

/-! ## Putting a line back -/

section PuttingBack

variable [DecidableEq ρ]

theorem putBack_other {e : Line κ ο β} {m : ρ → β} {r : ρ} (h : ∀ o, p.home e.key o ≠ some r) :
    p.putBack os e m r = m r := by
  unfold putBack
  induction os generalizing m with
  | nil => rfl
  | cons o os ih =>
    rw [List.foldl_cons, ih]
    cases hr : p.home e.key o with
    | none => rfl
    | some r' =>
      have hne : r ≠ r' := by
        rintro rfl
        exact h o hr
      exact Function.update_of_ne hne _ _

theorem putBack_home [DecidableEq ο] (ha : p.Apart used) {e : Line κ ο β} (he : ∀ o, used e.key o) {m : ρ → β} {o : ο}
    {r : ρ} (hr : p.home e.key o = some r) (hmem : o ∈ os ∨ m r = e.cells o) :
    p.putBack os e m r = e.cells o := by
  unfold putBack
  induction os generalizing m with
  | nil => exact hmem.resolve_left List.not_mem_nil
  | cons o' os ih =>
    rw [List.foldl_cons]
    apply ih
    by_cases ho : o' = o
    · right
      rw [ho, hr]
      exact Function.update_self _ _ _
    · rcases hmem with hmem | hmem
      · left
        exact (List.mem_cons.mp hmem).resolve_left (Ne.symm ho)
      · right
        cases hr' : p.home e.key o' with
        | none => exact hmem
        | some r' =>
          have hne : r ≠ r' := by
            rintro rfl
            exact ho (ha.inj _ _ _ _ _ (he o') (he o) hr' hr).2
          rw [← hmem]
          exact Function.update_of_ne hne _ _

/-- Giving up a slot leaves every used cell where a reader who looks past the slot expects
it. -/
theorem vacated_home [DecidableEq κ] [DecidableEq ο] (ha : p.Apart used) (hc : p.Coherent used s) (hos : ∀ o, o ∈ os) {k k' : κ} {o : ο}
    {r : ρ} (hu : used k' o) (hr : p.home k' o = some r) :
    p.vacated os s k r =
      match s.dir (p.slot k) with
      | some e => if e.key = k' then e.cells o else s.mem r
      | none => s.mem r := by
  unfold vacated
  cases hd : s.dir (p.slot k) with
  | none => rfl
  | some e =>
    have he := hc.inside _ e hd
    by_cases hk : e.key = k'
    · subst hk
      simp only [if_true]
      by_cases hdirty : e.dirty = true
      · rw [if_pos hdirty]
        exact putBack_home ha he hr (Or.inl (hos o))
      · rw [if_neg hdirty]
        exact hc.clean _ e hd (Bool.eq_false_iff.mpr hdirty) o r hr
    · simp only [if_neg hk]
      by_cases hdirty : e.dirty = true
      · rw [if_pos hdirty]
        apply putBack_other
        intro o' ho'
        exact hk (ha.inj _ _ _ _ _ (he o') hu ho' hr).1
      · rw [if_neg hdirty]

end PuttingBack

/-! ## The operations -/

section Operations

variable [DecidableEq ι] [DecidableEq κ] [DecidableEq ρ]

/-- Bringing a line in changes nothing that is seen. -/
theorem view_route [DecidableEq ο] (ha : p.Apart used) (hc : p.Coherent used s) (hos : ∀ o, o ∈ os) (k : κ) {k' : κ}
    {o : ο} (hu : used k' o) : p.view blank (p.route blank os s k) k' o = p.view blank s k' o := by
  unfold route
  by_cases hheld : (p.held s k).isSome = true
  · rw [if_pos hheld]
  rw [if_neg hheld]
  obtain ⟨r, hr⟩ := ha.home k' o hu
  have hvac := vacated_home (k := k) ha hc hos hu hr
  by_cases hk : k' = k
  · -- the line itself, fetched from an array that has what was seen
    subst hk
    have hmiss : p.held s k' = none := by simpa using hheld
    have hdir : (p.held ⟨Function.update s.dir (p.slot k')
        (some (p.fetched blank (p.vacated os s k') k')), p.vacated os s k'⟩ k') =
        some (p.fetched blank (p.vacated os s k') k') := by
      rw [held_eq_some]
      exact ⟨Function.update_self _ _ _, rfl⟩
    rw [view_held hdir, view_missing hmiss hr]
    change (match p.home k' o with
      | some r => p.vacated os s k' r
      | none => blank) = _
    rw [hr]
    change p.vacated os s k' r = _
    rw [hvac]
    cases hd : s.dir (p.slot k') with
    | none => rfl
    | some e =>
      have hne : e.key ≠ k' := by
        intro heq
        have := held_eq_some.mpr ⟨hd, heq⟩
        rw [hmiss] at this
        cases this
      exact if_neg hne
  · by_cases hslot : p.slot k' = p.slot k
    · -- a line of the same slot, now gone if it was there
      have hgone : p.held ⟨Function.update s.dir (p.slot k)
          (some (p.fetched blank (p.vacated os s k) k)), p.vacated os s k⟩ k' = none := by
        apply held_other
        · rw [hslot]
          exact Function.update_self _ _ _
        · exact fun h => hk h.symm
      rw [view_missing hgone hr]
      change p.vacated os s k r = _
      rw [hvac]
      cases hd : s.dir (p.slot k) with
      | none => exact (view_missing (held_none (hslot ▸ hd)) hr).symm
      | some e =>
        by_cases he : e.key = k'
        · simp only [if_pos he]
          exact (view_held (held_eq_some.mpr ⟨hslot ▸ hd, he⟩) o).symm
        · simp only [if_neg he]
          exact (view_missing (held_other (hslot ▸ hd) he) hr).symm
    · -- a line of another slot
      have hsame : p.held ⟨Function.update s.dir (p.slot k)
          (some (p.fetched blank (p.vacated os s k) k)), p.vacated os s k⟩ k' = p.held s k' := by
        rw [held, held]
        dsimp only
        rw [Function.update_of_ne hslot]
      rw [view, view, hsame]
      cases hh : p.held s k' with
      | some e => rfl
      | none =>
        simp only [hr]
        rw [hvac]
        cases hd : s.dir (p.slot k) with
        | none => rfl
        | some e =>
          have hne : e.key ≠ k' := by
            intro heq
            exact hslot (heq ▸ hc.placed _ e hd)
          exact if_neg hne

/-- The line is there once it has been brought in. -/
theorem held_route (blank : β) (os : List ο) (s : State ι κ ο ρ β) (k : κ) :
    ∃ e, p.held (p.route blank os s k) k = some e := by
  unfold route
  by_cases hheld : (p.held s k).isSome = true
  · rw [if_pos hheld]
    exact Option.isSome_iff_exists.mp hheld
  · rw [if_neg hheld]
    refine ⟨_, held_eq_some.mpr ⟨Function.update_self _ _ _, rfl⟩⟩

omit [DecidableEq κ] [DecidableEq ρ] in
/-- What a slot holds after one slot has been written. -/
theorem slot_cases {f : ι → Option (Line κ ο β)} {i j : ι} {x e : Line κ ο β}
    (h : Function.update f j (some x) i = some e) : (i = j ∧ e = x) ∨ (i ≠ j ∧ f i = some e) := by
  by_cases hij : i = j
  · subst hij
    rw [Function.update_self, Option.some.injEq] at h
    exact Or.inl ⟨rfl, h.symm⟩
  · rw [Function.update_of_ne hij] at h
    exact Or.inr ⟨hij, h⟩

theorem Coherent.route [DecidableEq ο] (ha : p.Apart used) (hc : p.Coherent used s) (hos : ∀ o, o ∈ os)
    {k : κ} (hk : ∀ o, used k o) : p.Coherent used (p.route blank os s k) := by
  unfold Plan.route
  by_cases hheld : (p.held s k).isSome = true
  · rw [if_pos hheld]
    exact hc
  rw [if_neg hheld]
  constructor
  · intro i e hi
    rcases slot_cases hi with ⟨rfl, rfl⟩ | ⟨_, hi⟩
    · rfl
    · exact hc.placed i e hi
  · intro i e hi
    rcases slot_cases hi with ⟨rfl, rfl⟩ | ⟨_, hi⟩
    · exact hk
    · exact hc.inside i e hi
  · intro i e hi hdirty o r hr
    rcases slot_cases hi with ⟨rfl, rfl⟩ | ⟨hik, hi⟩
    · change p.home k o = some r at hr
      change _ = match p.home k o with
        | some r => p.vacated os s k r
        | none => blank
      rw [hr]
    · -- a clean line elsewhere has none of its homes among those put back
      change p.vacated os s k r = _
      rw [vacated_home ha hc hos (hc.inside i e hi o) hr]
      cases hd : s.dir (p.slot k) with
      | none => exact hc.clean i e hi hdirty o r hr
      | some e' =>
        have hne : e'.key ≠ e.key := by
          intro heq
          apply hik
          rw [← hc.placed i e hi, ← heq, hc.placed _ e' hd]
        simp only [if_neg hne]
        exact hc.clean i e hi hdirty o r hr

omit [DecidableEq ρ] in
theorem view_putLine {k : κ} {e : Line κ ο β} (h : p.held s k = some e) (cells : ο → β) (k' : κ) (o : ο) :
    p.view blank (p.putLine s k cells) k' o = if k' = k then cells o else p.view blank s k' o := by
  by_cases hk : k' = k
  · subst hk
    have hnew : p.held (p.putLine s k' cells) k' = some ⟨k', true, cells⟩ :=
      held_eq_some.mpr ⟨Function.update_self _ _ _, rfl⟩
    rw [if_pos rfl, view_held hnew]
  · rw [if_neg hk, view, view]
    have hsame : p.held (p.putLine s k cells) k' = p.held s k' := by
      by_cases hslot : p.slot k' = p.slot k
      · have hd := held_eq_some.mp h
        have hne : e.key ≠ k' := fun heq => hk (heq.symm.trans hd.2)
        have hnew : p.held (p.putLine s k cells) k' = none := by
          apply held_other
          · rw [hslot]
            exact Function.update_self _ _ _
          · exact Ne.symm hk
        rw [hnew, held_other (hslot ▸ hd.1) hne]
      · rw [held, held, putLine]
        simp only [Function.update_of_ne hslot]
    rw [hsame]
    rfl

omit [DecidableEq κ] [DecidableEq ρ] in
theorem Coherent.putLine (hc : p.Coherent used s) {k : κ} (hk : ∀ o, used k o) (cells : ο → β) :
    p.Coherent used (p.putLine s k cells) := by
  constructor
  · intro i e hi
    rcases slot_cases hi with ⟨rfl, rfl⟩ | ⟨_, hi⟩
    · rfl
    · exact hc.placed i e hi
  · intro i e hi
    rcases slot_cases hi with ⟨rfl, rfl⟩ | ⟨_, hi⟩
    · exact hk
    · exact hc.inside i e hi
  · intro i e hi hdirty
    rcases slot_cases hi with ⟨rfl, rfl⟩ | ⟨_, hi⟩
    · cases hdirty
    · exact hc.clean i e hi hdirty

end Operations

/-! ## Writes past the cache -/

section Past

variable [DecidableEq ρ]

/-- A cell written past the cache. -/
def putHome (s : State ι κ ο ρ β) (r : ρ) (v : β) : State ι κ ο ρ β :=
  { s with mem := Function.update s.mem r v }

theorem view_putHome [DecidableEq κ] [DecidableEq ο] (ha : p.Apart used) {k : κ} {o : ο} {r : ρ} (hmiss : p.held s k = none)
    (hu : used k o) (hr : p.home k o = some r) (v : β) {k' : κ} {o' : ο} (hu' : used k' o') :
    p.view blank (putHome s r v) k' o' =
      if k' = k ∧ o' = o then v else p.view blank s k' o' := by
  obtain ⟨r', hr'⟩ := ha.home k' o' hu'
  have hsame : p.held (putHome s r v) k' = p.held s k' := rfl
  by_cases hk : k' = k ∧ o' = o
  · obtain ⟨rfl, rfl⟩ := hk
    rw [if_pos ⟨rfl, rfl⟩, view_missing (by rw [hsame]; exact hmiss) hr]
    exact Function.update_self _ _ _
  · rw [if_neg hk, view, view, hsame]
    cases p.held s k' with
    | some e => rfl
    | none =>
      simp only [hr']
      have hne : r' ≠ r := by
        rintro rfl
        exact hk (ha.inj _ _ _ _ _ hu' hu hr' hr)
      exact Function.update_of_ne hne _ _

theorem Coherent.putHome [DecidableEq κ] (ha : p.Apart used) (hc : p.Coherent used s) {k : κ} {o : ο} {r : ρ}
    (hmiss : p.held s k = none) (hu : used k o) (hr : p.home k o = some r) (v : β) :
    p.Coherent used (putHome s r v) := by
  refine ⟨hc.placed, hc.inside, ?_⟩
  intro i e hi hdirty o' r' hr'
  have hne : r' ≠ r := by
    rintro rfl
    have hk := (ha.inj _ _ _ _ _ (hc.inside i e hi o') hu hr' hr).1
    have hheld := held_of_dir hc hi
    rw [hk, hmiss] at hheld
    cases hheld
  change Function.update s.mem r v r' = _
  rw [Function.update_of_ne hne]
  exact hc.clean i e hi hdirty o' r' hr'

end Past

end Plan

end DirectMapped
