/-
B*-trees over a store of numbered nodes.

A leaf holds records, an index node entries, each a key and the number of a node
below. `Spans h num rs` says that the tree of height `h` at node `num` holds the
records `rs`, in order, every leaf of it at the same depth and every entry with the
key of the first record below it. Keys are ordered by their rank, so that two of them
may count as one. A search goes down through the last entry that does not exceed the
rank it looks for; over records in order it finds what a search through all of them
would (`lookup_spans`).
-/
import Mathlib

set_option autoImplicit false

namespace BStar

/-- What a node holds. -/
inductive View (α ε : Type) where
  | leaf (rs : List α)
  | index (es : List (ε × ℕ))

variable {α ε κ : Type} [LinearOrder κ]

/-- The last entry that does not exceed a rank, of entries in order. -/
def lastEntry (rank : ε → κ) (k : κ) (es : List (ε × ℕ)) : Option ℕ :=
  (es.takeWhile fun e => rank e.1 ≤ k).getLast?.map Prod.snd

section Store

variable (view : ℕ → Option (View α ε)) (key : α → ε) (rank : ε → κ)

/-- The search, from a node down to `h` levels. -/
def lookup (k : κ) : ℕ → ℕ → Option α
  | 0, _ => none
  | h + 1, num =>
      match view num with
      | none => none
      | some (.leaf rs) => rs.find? fun r => rank (key r) = k
      | some (.index es) => (lastEntry rank k es).bind (lookup k h)

/-- The records of the tree at a node. -/
inductive Spans : ℕ → ℕ → List α → Prop
  | leaf {num : ℕ} {rs : List α} (h : view num = some (.leaf rs)) (hne : rs ≠ []) :
      Spans 1 num rs
  | index {h num : ℕ} {ps : List ((ε × ℕ) × List α)}
      (hv : view num = some (.index (ps.map Prod.fst))) (hne : ps ≠ [])
      (hfirst : ∀ p ∈ ps, p.2.head?.map key = some p.1.1) (hbelow : ∀ p ∈ ps, Spans h p.1.2 p.2) :
      Spans (h + 1) num (ps.map Prod.snd).flatten

end Store

variable {view view' : ℕ → Option (View α ε)} {key : α → ε} {rank : ε → κ} {h num : ℕ} {rs : List α}

/-- A tree stays when the nodes that hold something do. -/
theorem Spans.mono (hs : Spans view key h num rs)
    (hview : ∀ n v, view n = some v → v ≠ .index [] → view' n = some v) :
    Spans view' key h num rs := by
  induction hs with
  | leaf hv hne => exact .leaf (hview _ _ hv (fun h => by cases h)) hne
  | index hv hne hfirst _ ih =>
      refine .index (hview _ _ hv ?_) hne hfirst ih
      intro hempty
      injection hempty with hempty
      exact hne (List.map_eq_nil_iff.mp hempty)

/-- The entry that a search goes down through: those behind it exceed the key. -/
theorem lastEntry_split {k : κ} : ∀ {es : List (ε × ℕ)}, es.Pairwise (fun e e' => rank e.1 < rank e'.1) →
    (lastEntry rank k es = none ∧ ∀ e ∈ es, k < rank e.1)
    ∨ ∃ pre e post, es = pre ++ e :: post ∧ lastEntry rank k es = some e.2
      ∧ rank e.1 ≤ k ∧ ∀ e' ∈ post, k < rank e'.1 := by
  intro es
  induction es with
  | nil => exact fun _ => .inl ⟨rfl, fun e he => absurd he List.not_mem_nil⟩
  | cons e es ih =>
      intro hsorted
      obtain ⟨hfirst, hrest⟩ := List.pairwise_cons.mp hsorted
      by_cases hle : rank e.1 ≤ k
      · right
        rcases ih hrest with ⟨hnone, habove⟩ | ⟨pre, e', post, rfl, hsome, hle', habove⟩
        · refine ⟨[], e, es, rfl, ?_, hle, habove⟩
          have htake : es.takeWhile (fun e => decide (rank e.1 ≤ k)) = [] := by
            rcases es with _ | ⟨e', es⟩
            · rfl
            · have hlt := habove e' List.mem_cons_self
              rw [List.takeWhile_cons_of_neg (by simpa using hlt)]
          rw [lastEntry, List.takeWhile_cons_of_pos (by simpa using hle), htake]
          rfl
        · refine ⟨e :: pre, e', post, rfl, ?_, hle', habove⟩
          rw [lastEntry, List.takeWhile_cons_of_pos (by simpa using hle)]
          rw [lastEntry] at hsome
          cases htake : (pre ++ e' :: post).takeWhile (fun e => decide (rank e.1 ≤ k)) with
          | nil =>
              rw [htake] at hsome
              cases hsome
          | cons a as =>
              rw [htake] at hsome
              rw [List.getLast?_cons_cons]
              exact hsome
      · left
        have hlt : k < rank e.1 := lt_of_not_ge hle
        refine ⟨?_, ?_⟩
        · rw [lastEntry, List.takeWhile_cons_of_neg (by simpa using hlt)]
          rfl
        · intro e' he'
          rcases List.mem_cons.mp he' with rfl | hmem
          · exact hlt
          · exact lt_trans hlt (hfirst e' hmem)

/-- The same for entries with what is below them. -/
theorem lastEntry_groups {k : κ} {ps : List ((ε × ℕ) × List α)}
    (hsorted : ps.Pairwise fun p p' => rank p.1.1 < rank p'.1.1) :
    (lastEntry rank k (ps.map Prod.fst) = none ∧ ∀ p ∈ ps, k < rank p.1.1)
    ∨ ∃ pre p post, ps = pre ++ p :: post ∧ lastEntry rank k (ps.map Prod.fst) = some p.1.2
      ∧ rank p.1.1 ≤ k ∧ ∀ p' ∈ post, k < rank p'.1.1 := by
  rcases lastEntry_split (k := k) (List.pairwise_map.mpr hsorted) with
    ⟨hnone, habove⟩ | ⟨pre, e, post, hsplit, hsome, hle, habove⟩
  · exact .inl ⟨hnone, fun p hp => habove _ (List.mem_map_of_mem hp)⟩
  · obtain ⟨pre, ps', rfl, rfl, hrest⟩ := List.map_eq_append_iff.mp hsplit
    obtain ⟨p, post, rfl, rfl, rfl⟩ := List.map_eq_cons_iff.mp hrest
    exact .inr ⟨pre, p, post, rfl, hsome, hle, fun p' hp' => habove _ (List.mem_map_of_mem hp')⟩

theorem find?_none {k : κ} (hne : ∀ r ∈ rs, rank (key r) ≠ k) :
    rs.find? (fun r => decide (rank (key r) = k)) = none := by
  rw [List.find?_eq_none]
  intro r hr
  simpa using hne r hr

/-- A group begins with its entry's key and goes up. -/
theorem first_le {e : ε} {g : List α} (hg : g.Pairwise fun r r' => rank (key r) < rank (key r'))
    (hfirst : g.head?.map key = some e) : ∀ r ∈ g, rank e ≤ rank (key r) := by
  intro r hr
  rcases g with _ | ⟨r₀, g⟩
  · exact absurd hr List.not_mem_nil
  · injection hfirst with hfirst
    rcases List.mem_cons.mp hr with rfl | hmem
    · exact le_of_eq (congrArg rank hfirst.symm)
    · rw [← hfirst]
      exact le_of_lt ((List.pairwise_cons.mp hg).1 r hmem)

/-- The search finds what a search through all the records would. -/
theorem lookup_spans {k : κ} (hs : Spans view key h num rs)
    (hsorted : rs.Pairwise fun r r' => rank (key r) < rank (key r')) :
    lookup view key rank k h num = rs.find? fun r => decide (rank (key r) = k) := by
  induction hs with
  | leaf hv hne => rw [lookup, hv]
  | @index h num ps hv hne hfirst hbelow ih =>
      rw [List.pairwise_flatten, List.forall_mem_map, List.pairwise_map] at hsorted
      obtain ⟨hin, hacross⟩ := hsorted
      -- the entries go up, as the records below them do
      have hentries : ps.Pairwise fun p p' => rank p.1.1 < rank p'.1.1 := by
        refine hacross.imp_of_mem ?_
        intro p p' hp hp' hlt
        obtain ⟨r, hr, hkey⟩ := Option.map_eq_some_iff.mp (hfirst p hp)
        obtain ⟨r', hr', hkey'⟩ := Option.map_eq_some_iff.mp (hfirst p' hp')
        rw [← hkey, ← hkey']
        exact hlt r (List.mem_of_mem_head? hr) r' (List.mem_of_mem_head? hr')
      rw [lookup, hv]
      simp only
      rcases lastEntry_groups (k := k) hentries with ⟨hnone, habove⟩
        | ⟨pre, p, post, rfl, hsome, hle, habove⟩
      · rw [hnone, Option.bind_none, find?_none]
        intro r hr
        obtain ⟨g, hg, hrg⟩ := List.mem_flatten.mp hr
        obtain ⟨p, hp, rfl⟩ := List.mem_map.mp hg
        exact ne_of_gt (lt_of_lt_of_le (habove p hp) (first_le (hin p hp) (hfirst p hp) r hrg))
      · have hp : p ∈ pre ++ p :: post := List.mem_append_right _ List.mem_cons_self
        have hbefore : ∀ r ∈ (pre.map Prod.snd).flatten, rank (key r) ≠ k := by
          intro r hr
          obtain ⟨g, hg, hrg⟩ := List.mem_flatten.mp hr
          obtain ⟨q, hq, rfl⟩ := List.mem_map.mp hg
          obtain ⟨r₀, hr₀, hkey⟩ := Option.map_eq_some_iff.mp (hfirst p hp)
          have hlt := (List.pairwise_append.mp hacross).2.2 q hq p List.mem_cons_self r hrg r₀
            (List.mem_of_mem_head? hr₀)
          rw [hkey] at hlt
          exact ne_of_lt (lt_of_lt_of_le hlt hle)
        have hafter : ∀ r ∈ (post.map Prod.snd).flatten, rank (key r) ≠ k := by
          intro r hr
          obtain ⟨g, hg, hrg⟩ := List.mem_flatten.mp hr
          obtain ⟨q, hq, rfl⟩ := List.mem_map.mp hg
          have hq' : q ∈ pre ++ p :: post := List.mem_append_right _ (List.mem_cons_of_mem p hq)
          exact ne_of_gt (lt_of_lt_of_le (habove q hq) (first_le (hin q hq') (hfirst q hq') r hrg))
        rw [hsome, Option.bind_some, ih p hp (hin p hp), List.map_append, List.map_cons,
          List.flatten_append, List.flatten_cons, List.find?_append, List.find?_append,
          find?_none hbefore, find?_none hafter, Option.none_or, Option.or_none]

end BStar
