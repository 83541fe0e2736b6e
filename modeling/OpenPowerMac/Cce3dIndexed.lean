/-
Indexed vertices as a driver submits them: the indices packed two to a word, over one packet
with a count and any number of bundles without.

Of a bundle the unit knows only the words, so an odd list is drawn with the zero it was filled
up with. Whole lines and whole triangles of a list leave that zero in an incomplete tail; a
point, a piece of a polyline, a fan and a strip do not.
-/
import OpenPowerMac.Cce3d

set_option autoImplicit false

namespace OpenPowerMac

/-- The primitives a walk draws, by the packet's code. -/
inductive PrimType where
  | points
  | lines
  | polyline
  | triangles
  | fan
  | strip
  deriving DecidableEq

namespace PrimType

def code : PrimType → U32
  | points => 1#32
  | lines => 2#32
  | polyline => 3#32
  | triangles => 4#32
  | fan => 5#32
  | strip => 6#32

end PrimType

/-! ## The primitives of a list -/

section Prims

variable {α β : Type}

def Prim.map (f : α → β) (p : Prim α) : Prim β := ⟨p.shape, p.verts.map f⟩

/-- Lines of their own. -/
def linesOf : List α → List (Prim α)
  | a :: b :: l => ⟨.line, [a, b]⟩ :: linesOf l
  | _ => []

/-- Triangles of their own. -/
def trianglesOf : List α → List (Prim α)
  | a :: b :: c :: l => ⟨.triangle false, [a, b, c]⟩ :: trianglesOf l
  | _ => []

/-- A line from each to the next. -/
def polylineOf : List α → List (Prim α)
  | a :: b :: l => ⟨.line, [a, b]⟩ :: polylineOf (b :: l)
  | _ => []

/-- A triangle from one vertex to each line of the rest. -/
def fanOf (a : α) : List α → List (Prim α)
  | b :: c :: l => ⟨.triangle false, [a, b, c]⟩ :: fanOf a (c :: l)
  | _ => []

/-- A triangle from each to the next two, every other one wound the other way. -/
def stripOf (odd : Bool) : List α → List (Prim α)
  | a :: b :: c :: l => ⟨.triangle odd, [a, b, c]⟩ :: stripOf (!odd) (b :: c :: l)
  | _ => []

/-- The primitives of a list of vertices. -/
def prims : PrimType → List α → List (Prim α)
  | .points, l => l.map fun a => ⟨.point, [a]⟩
  | .lines, l => linesOf l
  | .polyline, l => polylineOf l
  | .triangles, l => trianglesOf l
  | .fan, a :: l => fanOf a l
  | .fan, [] => []
  | .strip, l => stripOf false l

/-- A list that leaves no vertex without its primitive. -/
def Whole (t : PrimType) (n : ℕ) : Prop :=
  match t with
  | .points => True
  | .lines => 2 ∣ n
  | .polyline => n ≠ 1
  | .triangles => 3 ∣ n
  | .fan | .strip => n ≠ 1 ∧ n ≠ 2

/-- The primitives a walk takes, by position. -/
def primsAt (t : PrimType) (n : ℕ) : List (Prim ℕ) :=
  match t with
  | .points => (List.range n).map fun i => ⟨.point, [i]⟩
  | .lines => (List.range (n / 2)).map fun k => ⟨.line, [2 * k, 2 * k + 1]⟩
  | .polyline => (List.range (n - 1)).map fun i => ⟨.line, [i, i + 1]⟩
  | .triangles =>
    (List.range (n / 3)).map fun k => ⟨.triangle false, [3 * k, 3 * k + 1, 3 * k + 2]⟩
  | .fan => (List.range (n - 2)).map fun i => ⟨.triangle false, [0, i + 1, i + 2]⟩
  | .strip =>
    (List.range (n - 2)).map fun i => ⟨.triangle (decide (i % 2 = 1)), [i, i + 1, i + 2]⟩

/-- What is drawn of a sequence of primitives: up to the first that cannot be had. -/
def upToRefused : List (Option β) → List β
  | some b :: l => b :: upToRefused l
  | _ => []

/-! ### By position -/

theorem linesOf_eq (d : α) (l : List α) : linesOf l =
    (List.range (l.length / 2)).map fun k =>
      ⟨.line, [l.getD (2 * k) d, l.getD (2 * k + 1) d]⟩ := by
  induction l using linesOf.induct with
  | case1 a b l ih =>
    have hlen : (a :: b :: l).length / 2 = l.length / 2 + 1 := by
      simp only [List.length_cons]
      omega
    rw [linesOf, ih, hlen, List.range_succ_eq_map, List.map_cons, List.map_map]
    rfl
  | case2 l hl =>
    have hlen : l.length / 2 = 0 := by
      rcases l with - | ⟨a, - | ⟨b, l⟩⟩
      · simp
      · simp
      · exact absurd rfl (hl a b l)
    rw [linesOf, hlen]
    · rfl
    · exact hl

theorem trianglesOf_eq (d : α) (l : List α) : trianglesOf l =
    (List.range (l.length / 3)).map fun k =>
      ⟨.triangle false, [l.getD (3 * k) d, l.getD (3 * k + 1) d, l.getD (3 * k + 2) d]⟩ := by
  induction l using trianglesOf.induct with
  | case1 a b c l ih =>
    have hlen : (a :: b :: c :: l).length / 3 = l.length / 3 + 1 := by
      simp only [List.length_cons]
      omega
    rw [trianglesOf, ih, hlen, List.range_succ_eq_map, List.map_cons, List.map_map]
    rfl
  | case2 l hl =>
    have hlen : l.length / 3 = 0 := by
      rcases l with - | ⟨a, - | ⟨b, - | ⟨c, l⟩⟩⟩
      · simp
      · simp
      · simp
      · exact absurd rfl (hl a b c l)
    rw [trianglesOf, hlen]
    · rfl
    · exact hl

theorem polylineOf_eq (d : α) (l : List α) : polylineOf l =
    (List.range (l.length - 1)).map fun i => ⟨.line, [l.getD i d, l.getD (i + 1) d]⟩ := by
  induction l using polylineOf.induct with
  | case1 a b l ih =>
    have hlen : (a :: b :: l).length - 1 = (b :: l).length - 1 + 1 := rfl
    rw [polylineOf, ih, hlen, List.range_succ_eq_map, List.map_cons, List.map_map]
    rfl
  | case2 l hl =>
    have hlen : l.length - 1 = 0 := by
      rcases l with - | ⟨a, - | ⟨b, l⟩⟩
      · rfl
      · rfl
      · exact absurd rfl (hl a b l)
    rw [polylineOf, hlen]
    · rfl
    · exact hl

theorem fanOf_eq (d a : α) (l : List α) : fanOf a l =
    (List.range (l.length - 1)).map fun i =>
      ⟨.triangle false, [a, l.getD i d, l.getD (i + 1) d]⟩ := by
  induction l using fanOf.induct with
  | case1 b c l ih =>
    have hlen : (b :: c :: l).length - 1 = (c :: l).length - 1 + 1 := rfl
    rw [fanOf, ih, hlen, List.range_succ_eq_map, List.map_cons, List.map_map]
    rfl
  | case2 l hl =>
    have hlen : l.length - 1 = 0 := by
      rcases l with - | ⟨b, - | ⟨c, l⟩⟩
      · rfl
      · rfl
      · exact absurd rfl (hl b c l)
    rw [fanOf, hlen]
    · rfl
    · exact hl

theorem stripOf_eq (d : α) (odd : Bool) (l : List α) : stripOf odd l =
    (List.range (l.length - 2)).map fun i =>
      ⟨.triangle (odd ^^ decide (i % 2 = 1)),
        [l.getD i d, l.getD (i + 1) d, l.getD (i + 2) d]⟩ := by
  induction odd, l using stripOf.induct with
  | case1 odd a b c l ih =>
    have hlen : (a :: b :: c :: l).length - 2 = (b :: c :: l).length - 2 + 1 := rfl
    rw [stripOf, ih, hlen, List.range_succ_eq_map, List.map_cons, List.map_map]
    congr 1
    · simp
    · apply List.map_congr_left
      intro i _
      have hodd : decide ((i + 1) % 2 = 1) = !decide (i % 2 = 1) := by
        rw [← decide_not]
        exact decide_eq_decide.mpr (by omega)
      simp [hodd]
  | case2 l odd hl =>
    have hlen : l.length - 2 = 0 := by
      rcases l with - | ⟨a, - | ⟨b, - | ⟨c, l⟩⟩⟩
      · rfl
      · rfl
      · rfl
      · exact absurd rfl (hl a b c l)
    rw [stripOf, hlen]
    · rfl
    · exact hl

/-- The primitives of a list are those of the positions. -/
theorem prims_eq (d : α) (t : PrimType) (l : List α) :
    prims t l = (primsAt t l.length).map (Prim.map fun i => l.getD i d) := by
  cases t with
  | points =>
    simp only [prims, primsAt, List.map_map]
    apply List.ext_getElem
    · simp
    · intro i h₁ h₂
      have hi : i < l.length := by simpa using h₁
      simp [Prim.map, hi]
  | lines =>
    rw [prims, linesOf_eq d, primsAt, List.map_map]
    rfl
  | polyline =>
    rw [prims, polylineOf_eq d, primsAt, List.map_map]
    rfl
  | triangles =>
    rw [prims, trianglesOf_eq d, primsAt, List.map_map]
    rfl
  | fan =>
    cases l with
    | nil => rfl
    | cons a l =>
      rw [prims, fanOf_eq d, primsAt, List.map_map]
      rfl
  | strip =>
    rw [prims, stripOf_eq d, primsAt, List.map_map]
    apply List.map_congr_left
    intro i _
    simp [Prim.map]

/-! ### Lists of lists -/

/-- The primitives that stand each by itself. -/
def PrimType.Apart (t : PrimType) : Prop := t = .points ∨ t = .lines ∨ t = .triangles

theorem linesOf_append (l l' : List α) (h : 2 ∣ l.length) :
    linesOf (l ++ l') = linesOf l ++ linesOf l' := by
  induction l using linesOf.induct with
  | case1 a b l ih =>
    have h' : 2 ∣ l.length := by
      simp only [List.length_cons] at h
      omega
    rw [List.cons_append, List.cons_append, linesOf, linesOf, ih h', List.cons_append]
  | case2 l hl =>
    rcases l with - | ⟨a, - | ⟨b, l⟩⟩
    · rfl
    · exact absurd h (by simp)
    · exact absurd rfl (hl a b l)

theorem trianglesOf_append (l l' : List α) (h : 3 ∣ l.length) :
    trianglesOf (l ++ l') = trianglesOf l ++ trianglesOf l' := by
  induction l using trianglesOf.induct with
  | case1 a b c l ih =>
    have h' : 3 ∣ l.length := by
      simp only [List.length_cons] at h
      omega
    rw [List.cons_append, List.cons_append, List.cons_append, trianglesOf, trianglesOf, ih h',
      List.cons_append]
  | case2 l hl =>
    rcases l with - | ⟨a, - | ⟨b, - | ⟨c, l⟩⟩⟩
    · rfl
    · exact absurd h (by simp)
    · exact absurd h (by simp)
    · exact absurd rfl (hl a b c l)

theorem prims_append (t : PrimType) (ht : t.Apart) (l l' : List α) (h : Whole t l.length) :
    prims t (l ++ l') = prims t l ++ prims t l' := by
  rcases ht with rfl | rfl | rfl
  · exact List.map_append
  · exact linesOf_append l l' h
  · exact trianglesOf_append l l' h

/-- Whole lists draw as the one list they are of, where primitives stand apart. -/
theorem prims_flatten (t : PrimType) (ht : t.Apart) (ls : List (List α))
    (h : ∀ l ∈ ls, Whole t l.length) : prims t ls.flatten = ls.flatMap (prims t) := by
  induction ls with
  | nil => rcases ht with rfl | rfl | rfl <;> rfl
  | cons l ls ih =>
    rw [List.flatten_cons, List.flatMap_cons, prims_append t ht _ _ (h l List.mem_cons_self),
      ih fun l' hl' => h l' (List.mem_cons_of_mem _ hl')]

/-! ### One more position -/

theorem primsAt_lt (t : PrimType) (n : ℕ) : ∀ p ∈ primsAt t n, ∀ i ∈ p.verts, i < n := by
  intro p hp i hi
  cases t
  all_goals
    simp only [primsAt, List.mem_map, List.mem_range] at hp
    rcases hp with ⟨k, hk, rfl⟩
    simp only [List.mem_cons, List.not_mem_nil, or_false] at hi
    omega

/-- Every position of a whole list is in a primitive. -/
theorem primsAt_cover (t : PrimType) (n : ℕ) (h : Whole t n) {i : ℕ} (hi : i < n) :
    ∃ p ∈ primsAt t n, i ∈ p.verts := by
  have hat (k m : ℕ) (f : ℕ → Prim ℕ) (hk : k < m) (hv : i ∈ (f k).verts) :
      ∃ p ∈ (List.range m).map f, i ∈ p.verts :=
    ⟨f k, List.mem_map.mpr ⟨k, List.mem_range.mpr hk, rfl⟩, hv⟩
  cases t with
  | points => exact hat i _ _ hi (by simp)
  | lines =>
    have h2 : 2 ∣ n := h
    exact hat (i / 2) _ _ (by omega) (by simp only [List.mem_cons]; omega)
  | polyline =>
    have h1 : n ≠ 1 := h
    rcases Nat.lt_or_ge i (n - 1) with hlt | hge
    · exact hat i _ _ hlt (by simp)
    · exact hat (i - 1) _ _ (by omega) (by simp only [List.mem_cons]; omega)
  | triangles =>
    have h3 : 3 ∣ n := h
    exact hat (i / 3) _ _ (by omega) (by simp only [List.mem_cons]; omega)
  | fan =>
    have h1 : n ≠ 1 ∧ n ≠ 2 := h
    rcases Nat.lt_or_ge i (n - 1) with hlt | hge
    · exact hat (i - 1) _ _ (by omega) (by simp only [List.mem_cons]; omega)
    · exact hat (i - 2) _ _ (by omega) (by simp only [List.mem_cons]; omega)
  | strip =>
    have h1 : n ≠ 1 ∧ n ≠ 2 := h
    rcases Nat.lt_or_ge i (n - 2) with hlt | hge
    · exact hat i _ _ hlt (by simp)
    · exact hat (n - 3) _ _ (by omega) (by simp only [List.mem_cons]; omega)

/-- One vertex more than a whole list of an odd number is a primitive more, but for triangles of
their own. -/
theorem primsAt_succ (t : PrimType) (n : ℕ) (h : Whole t n) (hodd : ¬ Even n)
    (ht : t ≠ .triangles) :
    ∃ p, primsAt t (n + 1) = primsAt t n ++ [p] ∧ n ∈ p.verts
      ∧ ∀ i ∈ p.verts, i < n + 1 := by
  have hn : n % 2 = 1 := Nat.odd_iff.mp (Nat.not_even_iff_odd.mp hodd)
  have hlt := primsAt_lt t (n + 1)
  suffices ∃ p, primsAt t (n + 1) = primsAt t n ++ [p] ∧ n ∈ p.verts by
    rcases this with ⟨p, hp, hv⟩
    exact ⟨p, hp, hv, hlt p (by simp [hp])⟩
  have hmore (m : ℕ) (f : ℕ → Prim ℕ) (hv : n ∈ (f m).verts) :
      ∃ p, (List.range (m + 1)).map f = (List.range m).map f ++ [p] ∧ n ∈ p.verts :=
    ⟨f m, by rw [List.range_succ, List.map_append]; rfl, hv⟩
  cases t with
  | points => exact hmore n _ (by simp)
  | lines =>
    have h2 : 2 ∣ n := h
    omega
  | polyline =>
    have h1 : n ≠ 1 := h
    have hm : n + 1 - 1 = n - 1 + 1 := by omega
    rw [primsAt, primsAt, hm]
    exact hmore (n - 1) _ (by simp only [List.mem_cons]; omega)
  | triangles => exact absurd rfl ht
  | fan =>
    have h1 : n ≠ 1 ∧ n ≠ 2 := h
    have hm : n + 1 - 2 = n - 2 + 1 := by omega
    rw [primsAt, primsAt, hm]
    exact hmore (n - 2) _ (by simp only [List.mem_cons]; omega)
  | strip =>
    have h1 : n ≠ 1 ∧ n ≠ 2 := h
    have hm : n + 1 - 2 = n - 2 + 1 := by omega
    rw [primsAt, primsAt, hm]
    exact hmore (n - 2) _ (by simp only [List.mem_cons]; omega)

/-- One vertex more than whole triangles is none. -/
theorem primsAt_triangles_succ (n : ℕ) (h : Whole .triangles n) :
    primsAt .triangles (n + 1) = primsAt .triangles n := by
  have h3 : 3 ∣ n := h
  have hm : (n + 1) / 3 = n / 3 := by omega
  rw [primsAt, primsAt, hm]

/-! ### Up to the first refused -/

theorem upToRefused_append_of_none (l l' : List (Option β)) (h : none ∈ l) :
    upToRefused (l ++ l') = upToRefused l := by
  induction l with
  | nil => exact absurd h List.not_mem_nil
  | cons x l ih =>
    cases x with
    | none => rfl
    | some b =>
      rw [List.cons_append, upToRefused, upToRefused, ih]
      exact (List.mem_cons.mp h).resolve_left (by simp)

theorem upToRefused_concat_none (l : List (Option β)) :
    upToRefused (l ++ [none]) = upToRefused l := by
  induction l with
  | nil => rfl
  | cons x l ih =>
    cases x with
    | none => rfl
    | some b => rw [List.cons_append, upToRefused, upToRefused, ih]

theorem upToRefused_concat (l : List (Option β)) (b : β) (h : none ∉ l) :
    upToRefused (l ++ [some b]) = upToRefused l ++ [b] := by
  induction l with
  | nil => rfl
  | cons x l ih =>
    cases x with
    | none => exact absurd List.mem_cons_self h
    | some a =>
      rw [List.cons_append, upToRefused, upToRefused, ih, List.cons_append]
      exact fun hl => h (List.mem_cons_of_mem _ hl)

/-- A primitive with each of its vertices, where all can be had. -/
def Prim.resolve (look : α → Option β) (p : Prim α) : Option (Prim β) :=
  (p.verts.mapM look).map fun vs => ⟨p.shape, vs⟩

theorem mapM_eq_none_iff (look : α → Option β) (l : List α) :
    l.mapM look = none ↔ ∃ a ∈ l, look a = none := by
  induction l with
  | nil => simp
  | cons a l ih =>
    rw [List.mapM_cons]
    cases ha : look a with
    | none => simp [ha]
    | some b =>
      cases hl : l.mapM look with
      | none =>
        rcases ih.mp hl with ⟨x, hx, hxn⟩
        exact iff_of_true rfl ⟨x, List.mem_cons_of_mem _ hx, hxn⟩
      | some bs => simpa [ha, hl] using ih

theorem resolve_eq_none_iff (look : α → Option β) (p : Prim α) :
    p.resolve look = none ↔ ∃ a ∈ p.verts, look a = none := by
  rw [Prim.resolve, Option.map_eq_none_iff, mapM_eq_none_iff]

theorem resolve_map {γ : Type} (f : γ → α) (look : α → Option β) (p : Prim γ) :
    (p.map f).resolve look = p.resolve fun i => look (f i) := by
  simp only [Prim.resolve, Prim.map, List.mapM_map]
  rfl

/-- What is drawn of a list, by a look at each of its vertices. -/
def drawnOf (look : α → Option β) (t : PrimType) (l : List α) : List (Prim β) :=
  upToRefused ((prims t l).map (Prim.resolve look))

theorem drawnOf_eq (look : α → Option β) (t : PrimType) (l : List α) (d : α) :
    drawnOf look t l =
      upToRefused ((primsAt t l.length).map (Prim.resolve fun i => look (l.getD i d))) := by
  rw [drawnOf, prims_eq d, List.map_map]
  congr 2
  funext p
  exact resolve_map _ look p

theorem getD_concat (l : List α) (d : α) (i : ℕ) : (l ++ [d]).getD i d = l.getD i d := by
  rcases Nat.lt_trichotomy i l.length with h | rfl | h
  · rw [List.getD_append _ _ _ _ h]
  · simp
  · rw [List.getD_eq_default _ _ (by simp; omega), List.getD_eq_default _ _ h.le]

theorem getD_mem_cons (l : List α) (d : α) (i : ℕ) : l.getD i d ∈ d :: l := by
  rcases Nat.lt_or_ge i l.length with h | h
  · rw [List.getD_eq_getElem _ _ h]
    exact List.mem_cons_of_mem _ (List.getElem_mem h)
  · rw [List.getD_eq_default _ _ h]
    exact List.mem_cons_self

/-- Where every vertex can be had, every primitive is drawn. -/
theorem drawnOf_all (look : α → Option β) (t : PrimType) (l : List α)
    (h : ∀ a ∈ l, look a ≠ none) : (drawnOf look t l).map some
      = (prims t l).map (Prim.resolve look) := by
  have hnone : none ∉ (prims t l).map (Prim.resolve look) := by
    intro hmem
    rcases List.mem_map.mp hmem with ⟨p, hp, hres⟩
    rcases (resolve_eq_none_iff look p).mp hres with ⟨a, ha, hlook⟩
    cases l with
    | nil =>
      cases t <;> simp [prims, linesOf, trianglesOf, polylineOf, stripOf] at hp
    | cons d l =>
      rw [prims_eq d] at hp
      rcases List.mem_map.mp hp with ⟨q, hq, rfl⟩
      rcases List.mem_map.mp ha with ⟨i, hi, rfl⟩
      have hlt := primsAt_lt t _ q hq i hi
      rw [List.getD_eq_getElem _ _ hlt] at hlook
      exact h _ (List.getElem_mem hlt) hlook
  rw [drawnOf]
  generalize (prims t l).map (Prim.resolve look) = xs at hnone
  induction xs with
  | nil => rfl
  | cons x xs ih =>
    cases x with
    | none => exact absurd List.mem_cons_self hnone
    | some b =>
      rw [upToRefused, List.map_cons, ih]
      exact fun hmem => hnone (List.mem_cons_of_mem _ hmem)

/-- Where it goes unseen that a whole list of an odd number was filled up: the list is of
triangles apart, or a vertex is refused before the end. -/
def PadUnseen (look : α → Option β) (t : PrimType) (l : List α) (d : α) : Prop :=
  t = .triangles ∨ ∃ a ∈ d :: l, look a = none

/-- **The pad.** What a whole list of an odd number draws when it is filled up. -/
theorem drawnOf_pad (look : α → Option β) (t : PrimType) (l : List α) (d : α)
    (h : Whole t l.length) (hodd : ¬ Even l.length) :
    ∃ more, drawnOf look t (l ++ [d]) = drawnOf look t l ++ more
      ∧ (more = [] ↔ PadUnseen look t l d) := by
  have hpad : drawnOf look t (l ++ [d]) = upToRefused
      ((primsAt t (l.length + 1)).map (Prim.resolve fun i => look (l.getD i d))) := by
    rw [drawnOf_eq look t _ d, List.length_append]
    simp only [getD_concat, List.length_singleton]
  rw [hpad, drawnOf_eq look t l d]
  by_cases ht : t = .triangles
  · subst ht
    rw [primsAt_triangles_succ _ h]
    exact ⟨[], (List.append_nil _).symm, iff_of_true rfl (Or.inl rfl)⟩
  rcases primsAt_succ t l.length h hodd ht with ⟨p, hp, hn, -⟩
  rw [hp, List.map_append, List.map_singleton]
  set as := (primsAt t l.length).map (Prim.resolve fun i => look (l.getD i d)) with has
  by_cases hnone : none ∈ as
  · -- refused within the list
    rw [upToRefused_append_of_none _ _ hnone]
    refine ⟨[], (List.append_nil _).symm, iff_of_true rfl (Or.inr ?_)⟩
    rw [has] at hnone
    rcases List.mem_map.mp hnone with ⟨q, -, hres⟩
    rcases (resolve_eq_none_iff _ q).mp hres with ⟨i, -, hlook⟩
    exact ⟨_, getD_mem_cons l d i, hlook⟩
  cases hx : p.resolve fun i => look (l.getD i d) with
  | none =>
    rw [upToRefused_concat_none]
    refine ⟨[], (List.append_nil _).symm, iff_of_true rfl (Or.inr ?_)⟩
    rcases (resolve_eq_none_iff _ p).mp hx with ⟨i, -, hlook⟩
    exact ⟨_, getD_mem_cons l d i, hlook⟩
  | some b =>
    rw [upToRefused_concat _ _ hnone]
    refine ⟨[b], rfl, iff_of_false (List.cons_ne_nil _ _) ?_⟩
    rintro (h3 | ⟨a, ha, hlook⟩)
    · exact ht h3
    rcases List.mem_cons.mp ha with rfl | hmem
    · -- the pad is a vertex of the primitive it makes
      have hres : p.resolve (fun i => look (l.getD i a)) = none := by
        apply (resolve_eq_none_iff _ p).mpr
        exact ⟨l.length, hn, by rw [List.getD_eq_default _ _ le_rfl]; exact hlook⟩
      rw [hx] at hres
      cases hres
    · rcases List.getElem_of_mem hmem with ⟨i, hi, rfl⟩
      rcases primsAt_cover t _ h hi with ⟨q, hq, hv⟩
      apply hnone
      refine List.mem_map.mpr ⟨q, hq, ?_⟩
      apply (resolve_eq_none_iff _ q).mpr
      exact ⟨i, hv, by rw [List.getD_eq_getElem _ _ hi]; exact hlook⟩

end Prims

/-! ## What the unit reads -/

/-- Reads that stay inside a body of `n` words and a buffer of `vsize` vertices, where that is
told. -/
structure Traffic.Inside (n : ℕ) (vsize : U32) (t : Traffic) : Prop where
  words : ∀ i ∈ t.words, i < n
  fetched : ∀ v ∈ t.fetched, vsize = 0#32 ∨ v < vsize

theorem Traffic.none_inside (n : ℕ) (vsize : U32) : Traffic.none.Inside n vsize :=
  ⟨fun _ h => absurd h List.not_mem_nil, fun _ h => absurd h List.not_mem_nil⟩

namespace VtxSource

variable (src : VtxSource) {vsize : U32}

/-- The vertex of an index, where there is a buffer. -/
def look (index : U32) : Option Vtx :=
  if src.vsize ≠ 0#32 ∧ src.vsize ≤ index then none
  else if 20 < src.stride then none
  else src.readVtx index

theorem fetch_look (hbuf : src.buffered = true) (index : U32) (t : Traffic) :
    (src.fetch index t).1 = src.look index ∧ (src.fetch index t).2.drawn = t.drawn := by
  rw [fetch, look, if_neg (by simp [hbuf])]
  split
  · exact ⟨rfl, rfl⟩
  · split <;> exact ⟨rfl, rfl⟩

theorem fetch_inside (hsize : src.buffered = true → src.vsize = vsize) (index : U32) (t : Traffic)
    (h : t.Inside src.body.length vsize) :
    (src.fetch index t).2.Inside src.body.length vsize := by
  rw [fetch]
  split
  · -- inline: the vertex is inside or refused
    simp only
    split
    · exact h
    · refine ⟨fun i hi => ?_, h.fetched⟩
      rcases List.mem_append.mp hi with hi | hi
      · exact h.words i hi
      · simp only [List.mem_map, List.mem_range] at hi
        omega
  case isFalse hbuf =>
    have hsize := hsize (Bool.eq_true_of_not_eq_false hbuf)
    rw [hsize]
    split
    · exact h
    case isFalse hpast =>
      split
      · exact h
      · refine ⟨h.words, fun v hv => ?_⟩
        rcases List.mem_append.mp hv with hv | hv
        · exact h.fetched v hv
        · rw [List.mem_singleton.mp hv]
          by_cases h0 : vsize = 0#32
          · exact Or.inl h0
          · exact Or.inr (BitVec.not_le.mp fun hle => hpast ⟨h0, hle⟩)

/-- The positions a source has: those whose index is in the body, where it goes by indices. -/
def Has (i : ℕ) : Prop := src.indexed = true → src.indexWords + i / 2 < src.body.length

theorem vertexAt_inside (hsize : src.buffered = true → src.vsize = vsize) (i : ℕ)
    (hi : src.Has i) (t : Traffic) (h : t.Inside src.body.length vsize) :
    (src.vertexAt i t).2.Inside src.body.length vsize := by
  rw [vertexAt]
  split
  case isTrue hidx =>
    apply src.fetch_inside hsize
    refine ⟨fun j hj => ?_, h.fetched⟩
    rcases List.mem_append.mp hj with hj | hj
    · exact h.words j hj
    · rw [List.mem_singleton.mp hj]
      exact hi hidx
  case isFalse => exact src.fetch_inside hsize _ t h

theorem fetchEach_inside (hsize : src.buffered = true → src.vsize = vsize) (is : List ℕ)
    (his : ∀ i ∈ is, src.Has i) (t : Traffic)
    (h : t.Inside src.body.length vsize) :
    (src.fetchEach is t).2.Inside src.body.length vsize := by
  induction is generalizing t with
  | nil => exact h
  | cons i is ih =>
    have hone := src.vertexAt_inside hsize i (his i List.mem_cons_self) t h
    have hrest := ih (fun j hj => his j (List.mem_cons_of_mem _ hj)) _ hone
    rw [fetchEach]
    split
    case h_1 t' heq =>
      rw [heq] at hone
      exact hone
    case h_2 v t' heq =>
      rw [heq] at hrest
      split
      case h_1 t'' heq' =>
        rw [heq'] at hrest
        exact hrest
      case h_2 vs t'' heq' =>
        rw [heq'] at hrest
        exact hrest

theorem drawEach_inside (hsize : src.buffered = true → src.vsize = vsize)
    (ps : List (Prim ℕ)) (hps : ∀ p ∈ ps, ∀ i ∈ p.verts, src.Has i)
    (t : Traffic) (h : t.Inside src.body.length vsize) :
    (src.drawEach ps t).Inside src.body.length vsize := by
  induction ps generalizing t with
  | nil => exact h
  | cons p ps ih =>
    have hone := src.fetchEach_inside hsize p.verts (hps p List.mem_cons_self) t h
    rw [drawEach]
    split
    case h_1 t' heq =>
      rw [heq] at hone
      exact hone
    case h_2 vs t' heq =>
      rw [heq] at hone
      exact ih (fun q hq => hps q (List.mem_cons_of_mem _ hq)) _ ⟨hone.words, hone.fetched⟩

theorem assemble_code (t : PrimType) (count : ℕ) (tr : Traffic) :
    src.assemble t.code count tr = src.drawEach (primsAt t count) tr := by
  cases t <;> rfl

/-- Whatever the type, the positions are below the count. -/
theorem assemble_inside (hsize : src.buffered = true → src.vsize = vsize) (primType : U32)
    (count : ℕ) (hcount : ∀ i < count, src.Has i) (t : Traffic)
    (h : t.Inside src.body.length vsize) :
    (src.assemble primType count t).Inside src.body.length vsize := by
  have hdraw (pt : PrimType) : (src.drawEach (primsAt pt count) t).Inside _ vsize :=
    src.drawEach_inside hsize _ (fun p hp i hi => hcount i (primsAt_lt pt count p hp i hi)) t h
  rw [assemble]
  split
  · exact hdraw .points
  · exact hdraw .lines
  · exact hdraw .polyline
  · exact hdraw .triangles
  · exact hdraw .fan
  · exact hdraw .strip
  · exact hdraw .strip
  · exact h

/-- A loop draws what the looks at its positions give, up to the first that is refused. -/
theorem drawEach_drawn (f : ℕ → Option Vtx)
    (hf : ∀ i t, (src.vertexAt i t).1 = f i ∧ (src.vertexAt i t).2.drawn = t.drawn)
    (ps : List (Prim ℕ)) (t : Traffic) :
    (src.drawEach ps t).drawn = t.drawn ++ upToRefused (ps.map (Prim.resolve f)) := by
  have hone (is : List ℕ) (t : Traffic) :
      (src.fetchEach is t).1 = is.mapM f ∧ (src.fetchEach is t).2.drawn = t.drawn := by
    induction is generalizing t with
    | nil => exact ⟨rfl, rfl⟩
    | cons i is ih =>
      have hv := hf i t
      have hrest := ih (src.vertexAt i t).2
      rw [fetchEach, List.mapM_cons, ← hv.1]
      rcases hvt : src.vertexAt i t with ⟨- | v, t'⟩
      · rw [hvt] at hv
        exact ⟨rfl, hv.2⟩
      · rw [hvt] at hv hrest
        simp only at hv hrest ⊢
        rw [← hrest.1]
        rcases hr : src.fetchEach is t' with ⟨- | vs, t''⟩
        · rw [hr] at hrest
          exact ⟨rfl, hrest.2.trans hv.2⟩
        · rw [hr] at hrest
          exact ⟨rfl, hrest.2.trans hv.2⟩
  induction ps generalizing t with
  | nil => simp [drawEach, upToRefused]
  | cons p ps ih =>
    have hp := hone p.verts t
    rw [drawEach, List.map_cons, Prim.resolve, ← hp.1]
    rcases hr : src.fetchEach p.verts t with ⟨- | vs, t'⟩
    · rw [hr] at hp
      simpa [upToRefused] using hp.2
    · rw [hr] at hp
      simp only [Option.map_some, upToRefused]
      rw [ih, Traffic.draw, hp.2, List.append_assoc]
      rfl

end VtxSource

theorem vtxDwords_le (fmt : U32) : vtxDwords fmt ≤ 19 := by
  have h (p : Prop) [Decidable p] (k : ℕ) : (if p then k else 0) ≤ k := by
    split <;> omega
  calc vtxDwords fmt ≤ 3 + 1 + 3 + 1 + 1 + 3 + 1 + 1 + 2 + 2 + 1 := by
        unfold vtxDwords
        gcongr <;> exact h _ _
    _ = 19 := rfl

namespace Cce3d

variable (g : Cce3d) (c : R128Cell) (m : CceMem)

theorem genPrim_inside (body : List U32) (vsize : U32) :
    (g.genPrim c m body).2.Inside body.length vsize := by
  rw [genPrim]
  split
  · exact Traffic.none_inside _ _
  split
  · exact Traffic.none_inside _ _
  simp only
  split
  · exact Traffic.none_inside _ _
  exact VtxSource.assemble_inside
    ⟨m, body, 2, 0#32, 0#32, false, vtxDwords (body.getD 0 0#32), false, 0⟩
    (fun h => absurd h Bool.false_ne_true) _ _ (fun i _ h => absurd h Bool.false_ne_true) _
    (Traffic.none_inside _ _)

theorem walk_inside (bundle : Bool) (w : WalkLatch) (body : List U32) (indexWords : ℕ) :
    (g.walk c m bundle w body indexWords).2.Inside body.length w.vsize := by
  rw [walk]
  split
  · exact Traffic.none_inside _ _
  simp only
  split
  · exact Traffic.none_inside _ _
  simp only
  refine VtxSource.assemble_inside
    ⟨m, body, 0, w.vloff, w.vsize, true, vtxDwords w.fmt,
      decide ((w.cntl >>> 4) &&& 3#32 = 1#32), indexWords⟩
    (fun _ => rfl) _ _ ?_ _ (Traffic.none_inside _ _)
  intro i hi hidx
  have hidx := of_decide_eq_true hidx
  simp only [hidx, if_true] at hi
  split at hi <;> simp only <;> omega

/-- **No packet reads past its body or the vertices it was told of.** -/
theorem cce3dOp_inside (op : U32) (body : List U32) :
    (g.cce3dOp c m op body).2.2.Inside body.length (g.cce3dOp c m op body).2.1.gWalk.vsize := by
  rw [cce3dOp]
  split
  · exact g.genPrim_inside c m body _
  split
  · split
    · exact Traffic.none_inside _ _
    · exact g.walk_inside c m false _ body 4
  split
  · split
    · exact Traffic.none_inside _ _
    · exact g.walk_inside c m true _ body 0
  · exact Traffic.none_inside _ _

end Cce3d

/-! ## The driver -/

/-- Two indices in a word, the low half first. -/
def packWord (a b : U16) : U32 := BitVec.ofNat 32 (a.toNat + 2 ^ 16 * b.toNat)

/-- Indices two to a word, with a zero over the last of an odd number. -/
def pack : List U16 → List U32
  | a :: b :: l => packWord a b :: pack l
  | [a] => [packWord a 0#16]
  | [] => []

theorem pack_length (l : List U16) : (pack l).length = (l.length + 1) / 2 := by
  induction l using pack.induct with
  | case1 a b l ih =>
    simp only [pack, List.length_cons, ih]
    omega
  | case2 a => simp [pack]
  | case3 => simp [pack]

theorem packWord_toNat (a b : U16) : (packWord a b).toNat = a.toNat + 2 ^ 16 * b.toNat := by
  have ha := a.isLt
  have hb := b.isLt
  rw [packWord, BitVec.toNat_ofNat, Nat.mod_eq_of_lt (by omega)]

theorem packWord_low (a b : U16) : packWord a b &&& 0xFFFF#32 = a.setWidth 32 := by
  have ha := a.isLt
  apply BitVec.eq_of_toNat_eq
  rw [BitVec.toNat_and, packWord_toNat, show (0xFFFF#32).toNat = 2 ^ 16 - 1 from rfl,
    Nat.and_two_pow_sub_one_eq_mod, BitVec.toNat_setWidth, Nat.mod_eq_of_lt (by omega : _ < 2 ^ 32)]
  omega

theorem packWord_high (a b : U16) : packWord a b >>> 16 = b.setWidth 32 := by
  have ha := a.isLt
  have hb := b.isLt
  apply BitVec.eq_of_toNat_eq
  rw [BitVec.toNat_ushiftRight, packWord_toNat, Nat.shiftRight_eq_div_pow,
    BitVec.toNat_setWidth, Nat.mod_eq_of_lt (by omega : b.toNat < 2 ^ 32)]
  omega

/-- A position takes its own index, and zero past the last. -/
theorem half_pack (l : List U16) (i : ℕ) :
    (if i % 2 = 1 then (pack l).getD (i / 2) 0#32 >>> 16
      else (pack l).getD (i / 2) 0#32 &&& 0xFFFF#32) = (l.getD i 0#16).setWidth 32 := by
  induction l using pack.induct generalizing i with
  | case1 a b l ih =>
    rcases i with - | - | i
    · exact packWord_low a b
    · exact packWord_high a b
    · have h2 : (i + 2) / 2 = i / 2 + 1 := by omega
      have hm : (i + 2) % 2 = i % 2 := by omega
      rw [pack, h2, hm]
      exact ih i
  | case2 a =>
    rcases i with - | - | i
    · exact packWord_low a 0#16
    · exact packWord_high a 0#16
    · have h2 : (i + 2) / 2 = i / 2 + 1 := by omega
      rw [pack, h2]
      simp
  | case3 => simp [pack]

/-- A list with the zero of its last word. -/
def padded (l : List U16) : List U16 := if Even l.length then l else l ++ [0#16]

theorem padded_length (l : List U16) : (padded l).length = (pack l).length * 2 := by
  rw [pack_length, padded]
  split
  case isTrue h =>
    have := Nat.even_iff.mp h
    omega
  case isFalse h =>
    have := Nat.odd_iff.mp (Nat.not_even_iff_odd.mp h)
    rw [List.length_append, List.length_singleton]
    omega

theorem padded_getD (l : List U16) (i : ℕ) : (padded l).getD i 0#16 = l.getD i 0#16 := by
  rw [padded]
  split
  · rfl
  · exact getD_concat l 0#16 i

/-- The vertex of an index, as a walk finds it. -/
def vertexOf (m : CceMem) (w : WalkLatch) (v : U16) : Option Vtx :=
  VtxSource.look ⟨m, [], 0, w.vloff, w.vsize, true, vtxDwords w.fmt, true, 0⟩ (v.setWidth 32)

/-- Packets one after the other: each body with what came of it. -/
def submit (c : R128Cell) (m : CceMem) :
    Cce3d → List (U32 × List U32) → List (List U32 × Traffic)
  | _, [] => []
  | g, (op, body) :: ps =>
    let r := g.cce3dOp c m op body
    (body, r.2.2) :: submit c m r.2.1 ps

/-- A list of indices over one packet, and lists over bundles behind it. -/
def submission (w : WalkLatch) (l : List U16) (ls : List (List U16)) : List (U32 × List U32) :=
  (0x23#32, [w.vloff, w.vsize, w.fmt, w.cntl] ++ pack l) :: ls.map fun l => (0x2E#32, pack l)

/-- The walk of a packet of indices: its type, the walk by indices, and their number. -/
structure WalksBy (w : WalkLatch) (t : PrimType) (n : ℕ) : Prop where
  valid : w.valid = true
  type : w.cntl &&& 0xF#32 = t.code
  indexed : (w.cntl >>> 4) &&& 3#32 = 1#32
  count : (w.cntl >>> 16).toNat = n

/-- What is drawn is what the lists name (of whole lists apart, what the one list they are of
does), all of it where all their vertices can be had, and nothing is read that is not in a body
or in the buffer. -/
structure DrawsLists (g : Cce3d) (c : R128Cell) (m : CceMem) (w : WalkLatch) (t : PrimType)
    (l : List U16) (ls : List (List U16)) : Prop where
  drawn : (submit c m g (submission w l ls)).flatMap (fun r => r.2.drawn)
    = (l :: ls).flatMap (drawnOf (vertexOf m w) t)
  joined : t.Apart → Whole t l.length → (l :: ls).flatMap (prims t) = prims t (l :: ls).flatten
  whole : ∀ l' ∈ l :: ls, (∀ v ∈ l', vertexOf m w v ≠ none) →
    (drawnOf (vertexOf m w) t l').map some = (prims t l').map (Prim.resolve (vertexOf m w))
  inside : ∀ r ∈ submit c m g (submission w l ls), r.2.Inside r.1.length w.vsize

/-- A walk by indices draws a list of them, by the positions it counts. -/
theorem walk_drawn (m : CceMem) (w : WalkLatch) (pre : List U32) (l : List U16) (t : PrimType)
    (count : ℕ) :
    (VtxSource.assemble ⟨m, pre ++ pack l, 0, w.vloff, w.vsize, true, vtxDwords w.fmt, true,
        pre.length⟩ t.code count .none).drawn =
      upToRefused ((primsAt t count).map
        (Prim.resolve fun i => vertexOf m w (l.getD i 0#16))) := by
  rw [VtxSource.assemble_code, VtxSource.drawEach_drawn _ fun i => vertexOf m w (l.getD i 0#16)]
  · rfl
  intro i tr
  have hword : (pre ++ pack l).getD (pre.length + i / 2) 0#32 = (pack l).getD (i / 2) 0#32 := by
    rw [List.getD_append_right _ _ _ _ (Nat.le_add_right _ _), Nat.add_sub_cancel_left]
  simp only [VtxSource.vertexAt, if_true, hword, half_pack]
  exact VtxSource.fetch_look _ rfl _ _

namespace Cce3d

variable (g : Cce3d) (c : R128Cell) (m : CceMem)

/-- The walk of a list by its indices. -/
theorem walk_indexed (bundle : Bool) (w : WalkLatch) (t : PrimType) (n : ℕ) (pre : List U32)
    (l : List U16) (hready : g.PipeReady c) (hw : WalksBy w t n) :
    (g.walk c m bundle w (pre ++ pack l) pre.length).2.drawn =
      upToRefused ((primsAt t (if bundle then (pack l).length * 2
          else min n ((pack l).length * 2))).map
        (Prim.resolve fun i => vertexOf m w (l.getD i 0#16))) := by
  have hstride := vtxDwords_le w.fmt
  have hrun : ¬ (20 < vtxDwords w.fmt ∨ (1#32 : U32) = 0#32 ∨ (1#32 : U32) = 3#32
      ∨ (bundle = true ∧ (1#32 : U32) ≠ 1#32)) := by
    rintro (h | h | h | h)
    · omega
    · exact absurd h (by decide)
    · exact absurd h (by decide)
    · exact h.2 rfl
  have hlen : (pre ++ pack l).length - pre.length = (pack l).length := by
    rw [List.length_append, Nat.add_sub_cancel_left]
  rw [walk, if_neg (not_not_intro hready)]
  simp only [hw.indexed, hw.type, hw.count, hlen, if_neg hrun, if_true, decide_true]
  exact walk_drawn m w pre l t _

/-- A packet of indices keeps to the count of its header. -/
theorem packet_drawn (w : WalkLatch) (t : PrimType) (l : List U16) (hready : g.PipeReady c)
    (hw : WalksBy w t l.length) :
    (g.cce3dOp c m 0x23#32 ([w.vloff, w.vsize, w.fmt, w.cntl] ++ pack l)).2.1 =
        { g with gWalk := w }
      ∧ (g.cce3dOp c m 0x23#32 ([w.vloff, w.vsize, w.fmt, w.cntl] ++ pack l)).2.2.drawn =
        drawnOf (vertexOf m w) t l := by
  have hlatch : (⟨true, w.vloff, w.vsize, w.fmt, w.cntl⟩ : WalkLatch) = w := by
    rw [← hw.valid]
  have hdraw := g.walk_indexed c m false w t l.length [w.vloff, w.vsize, w.fmt, w.cntl] l
    hready hw
  have hcount : min l.length ((pack l).length * 2) = l.length := by
    rw [pack_length]
    omega
  rw [if_neg Bool.false_ne_true, hcount, ← drawnOf_eq] at hdraw
  have hlen : ¬ ([w.vloff, w.vsize, w.fmt, w.cntl] ++ pack l).length < 4 := by
    simp only [List.length_append, List.length_cons]
    omega
  rw [cce3dOp, if_neg (by decide), if_pos rfl, if_neg hlen]
  refine ⟨?_, ?_⟩
  · change ({ g with gWalk := ⟨true, w.vloff, w.vsize, w.fmt, w.cntl⟩ } : Cce3d) = _
    rw [hlatch]
  · change (g.walk c m false ⟨true, w.vloff, w.vsize, w.fmt, w.cntl⟩ _ 4).2.drawn = _
    rw [hlatch]
    exact hdraw

/-- A bundle draws its list with the zero of its last word. -/
theorem bundle_drawn (t : PrimType) (l : List U16) (n : ℕ) (hready : g.PipeReady c)
    (hw : WalksBy g.gWalk t n) :
    (g.cce3dOp c m 0x2E#32 (pack l)).2.1 = g
      ∧ (g.cce3dOp c m 0x2E#32 (pack l)).2.2.drawn =
        drawnOf (vertexOf m g.gWalk) t (padded l) := by
  have hdraw := g.walk_indexed c m true g.gWalk t n [] l hready hw
  rw [if_pos rfl, ← padded_length] at hdraw
  have hvalid : ¬ g.gWalk.valid = false := by
    rw [hw.valid]
    decide
  rw [cce3dOp, if_neg (by decide), if_neg (by decide), if_pos rfl, if_neg hvalid]
  refine ⟨rfl, ?_⟩
  rw [drawnOf_eq _ _ _ 0#16]
  simp only [padded_getD]
  exact hdraw

/-- Bundles, one after the other. -/
theorem bundles_drawn (t : PrimType) (n : ℕ) (hready : g.PipeReady c)
    (hw : WalksBy g.gWalk t n) (ls : List (List U16)) :
    (submit c m g (ls.map fun l => (0x2E#32, pack l))).flatMap (fun r => r.2.drawn) =
      ls.flatMap fun l => drawnOf (vertexOf m g.gWalk) t (padded l) := by
  induction ls with
  | nil => rfl
  | cons l ls ih =>
    have hb := g.bundle_drawn c m t l n hready hw
    rw [List.map_cons, submit, hb.1, List.flatMap_cons, List.flatMap_cons, ih, hb.2]

theorem bundles_inside (t : PrimType) (n : ℕ) (hready : g.PipeReady c)
    (hw : WalksBy g.gWalk t n) (ls : List (List U16)) :
    ∀ r ∈ submit c m g (ls.map fun l => (0x2E#32, pack l)),
      r.2.Inside r.1.length g.gWalk.vsize := by
  induction ls with
  | nil =>
    intro r hr
    exact absurd hr List.not_mem_nil
  | cons l ls ih =>
    have hb := g.bundle_drawn c m t l n hready hw
    have hin := g.cce3dOp_inside c m 0x2E#32 (pack l)
    intro r hr
    rw [List.map_cons, submit, hb.1] at hr
    rcases List.mem_cons.mp hr with rfl | hr
    · rw [hb.1] at hin
      exact hin
    · exact ih r hr

end Cce3d

/-- Lists filled up draw as they would without exactly when each does. -/
theorem flatMap_padded (look : U16 → Option Vtx) (t : PrimType) (ls : List (List U16))
    (h : ∀ l ∈ ls, Whole t l.length) :
    ls.flatMap (fun l => drawnOf look t (padded l)) = ls.flatMap (drawnOf look t) ↔
      ∀ l ∈ ls, Even l.length ∨ PadUnseen look t l 0#16 := by
  -- each draws what it would and then more, so the lengths decide
  have hmore (l : List U16) (hl : Whole t l.length) :
      ∃ more, drawnOf look t (padded l) = drawnOf look t l ++ more
        ∧ (more = [] ↔ Even l.length ∨ PadUnseen look t l 0#16) := by
    by_cases he : Even l.length
    · refine ⟨[], ?_, iff_of_true rfl (Or.inl he)⟩
      rw [padded, if_pos he, List.append_nil]
    · rcases drawnOf_pad look t l 0#16 hl he with ⟨more, heq, hiff⟩
      refine ⟨more, ?_, ?_⟩
      · rw [padded, if_neg he, heq]
      · rw [hiff]
        simp [he]
  have hle (ls : List (List U16)) (h : ∀ l ∈ ls, Whole t l.length) :
      (ls.flatMap (drawnOf look t)).length
        ≤ (ls.flatMap fun l => drawnOf look t (padded l)).length := by
    induction ls with
    | nil => exact le_rfl
    | cons l ls ih =>
      rcases hmore l (h l List.mem_cons_self) with ⟨more, heq, -⟩
      have := ih fun l' hl' => h l' (List.mem_cons_of_mem _ hl')
      rw [List.flatMap_cons, List.flatMap_cons, heq]
      simp only [List.length_append]
      omega
  induction ls with
  | nil => simp
  | cons l ls ih =>
    have hrest : ∀ l' ∈ ls, Whole t l'.length := fun l' hl' => h l' (List.mem_cons_of_mem _ hl')
    rcases hmore l (h l List.mem_cons_self) with ⟨more, heq, hiff⟩
    rw [List.forall_mem_cons, List.flatMap_cons, List.flatMap_cons, heq]
    refine Iff.trans ?_ (and_congr hiff (ih hrest))
    constructor
    · intro hall
      have hlen := congrArg List.length hall
      have := hle ls hrest
      simp only [List.length_append] at hlen
      have h0 : more = [] := List.eq_nil_of_length_eq_zero (by omega)
      subst h0
      rw [List.append_nil] at hall
      exact ⟨rfl, List.append_cancel_left hall⟩
    · rintro ⟨rfl, hall⟩
      rw [hall, List.append_nil]

/-- **Indexed primitives.** A list over a packet and whole lists over bundles draw what they
name exactly when each bundle's is of an even number, or of triangles of their own, or has a
vertex refused before its pad. -/
theorem drawsLists_iff (g : Cce3d) (c : R128Cell) (m : CceMem) (w : WalkLatch) (t : PrimType)
    (l : List U16) (ls : List (List U16)) (hready : g.PipeReady c) (hw : WalksBy w t l.length)
    (hwhole : ∀ l' ∈ ls, Whole t l'.length) :
    DrawsLists g c m w t l ls ↔
      ∀ l' ∈ ls, Even l'.length ∨ PadUnseen (vertexOf m w) t l' 0#16 := by
  have hp := g.packet_drawn c m w t l hready hw
  have hready' : ({ g with gWalk := w } : Cce3d).PipeReady c := hready
  have hdrawn : (submit c m g (submission w l ls)).flatMap (fun r => r.2.drawn) =
      drawnOf (vertexOf m w) t l
        ++ ls.flatMap fun l' => drawnOf (vertexOf m w) t (padded l') := by
    rw [submission, submit, List.flatMap_cons, hp.1, hp.2,
      Cce3d.bundles_drawn { g with gWalk := w } c m t l.length hready' hw]
  rw [← flatMap_padded _ _ _ hwhole]
  constructor
  · intro h
    have hall := h.drawn
    rw [hdrawn, List.flatMap_cons] at hall
    exact List.append_cancel_left hall
  · intro hall
    refine ⟨?_, fun ht hl => ?_, fun l' _ => drawnOf_all _ t l', ?_⟩
    · rw [hdrawn, List.flatMap_cons, hall]
    · rw [prims_flatten t ht]
      exact List.forall_mem_cons.mpr ⟨hl, hwhole⟩
    · intro r hr
      rw [submission, submit, hp.1] at hr
      rcases List.mem_cons.mp hr with rfl | hr
      · have hin := g.cce3dOp_inside c m 0x23#32 ([w.vloff, w.vsize, w.fmt, w.cntl] ++ pack l)
        rw [hp.1] at hin
        exact hin
      · exact Cce3d.bundles_inside { g with gWalk := w } c m t l.length hready' hw ls r hr

/-- A pipe that draws, a page of vertices behind the aperture, and a walk of strips over four. -/
def stripPipe : R128Cell :=
  (R128Cell.powerOn.setReg Cce3d.kDpDatatype 6#32).setReg Cce3d.kDstPitch 1#32

def stripMem : CceMem where
  ram := fun a =>
    if a < 0x2000 then (if a = 0x1000 then 0x01#8 else if a = 0x1001 then 0x20#8 else 0#8)
    else BitVec.ofNat 8 a
  ramSize := 0x10000#32
  gartBase := 0x1000#32
  aperBase := 0#32

def stripWalk : WalkLatch := ⟨true, 0#32, 4#32, 0#32, 0x00030016#32⟩

theorem drawsLists_iff_strips :
    DrawsLists .reset stripPipe stripMem stripWalk .strip [0#16, 1#16, 2#16]
      [[0#16, 1#16, 2#16, 3#16]] := by
  apply (drawsLists_iff _ _ _ _ _ _ _ ⟨by decide, by decide⟩
    ⟨rfl, by decide, by decide, by decide⟩ ?_).mpr
  · intro l' hl'
    rw [List.mem_singleton.mp hl']
    exact Or.inl (by decide)
  · intro l' hl'
    rw [List.mem_singleton.mp hl']
    exact ⟨by decide, by decide⟩

/-- A strip of three in a bundle draws a triangle more, with vertex 0. -/
theorem bundle_strip_draws_pad :
    ¬ DrawsLists .reset stripPipe stripMem stripWalk .strip [0#16, 1#16, 2#16]
      [[1#16, 2#16, 3#16]] := by
  intro h
  have hdrawn := congrArg List.length h.drawn
  revert hdrawn
  decide

end OpenPowerMac
