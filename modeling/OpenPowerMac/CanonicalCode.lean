/-
Canonical prefix codes.

A code is given by the lengths of its codewords, in the order of the symbols and
zero for a symbol without one. The codewords of one length are consecutive numbers,
in the order of their symbols, and the first of a length lies behind the words of
the shorter lengths. Nothing here asks whether the lengths fit: a codeword is
determined by its number, and no codeword begins another (`IsCode.unique`).
-/
import Mathlib.Data.List.Count
import Mathlib.Data.List.Basic
import Mathlib.Data.List.Induction
import Mathlib.Tactic.Common
import Mathlib.Tactic.Ring

set_option autoImplicit false

namespace CanonicalCode

/-! ## Words -/

/-- The number that a word spells, most significant bit first. -/
def ofBits (w : List Bool) : ℕ := w.foldl (fun v b => 2 * v + b.toNat) 0

theorem ofBits_concat (w : List Bool) (b : Bool) :
    ofBits (w ++ [b]) = 2 * ofBits w + b.toNat := by
  rw [ofBits, List.foldl_append]
  rfl

theorem ofBits_append (w x : List Bool) :
    ofBits (w ++ x) = ofBits w * 2 ^ x.length + ofBits x := by
  induction x using List.reverseRecOn with
  | nil => simp [ofBits]
  | append_singleton x b ih =>
      rw [← List.append_assoc, ofBits_concat, ofBits_concat, ih, List.length_append,
        List.length_singleton]
      ring

theorem ofBits_lt (w : List Bool) : ofBits w < 2 ^ w.length := by
  induction w using List.reverseRecOn with
  | nil => simp [ofBits]
  | append_singleton w b ih =>
      have hb : b.toNat < 2 := Bool.toNat_lt b
      rw [ofBits_concat, List.length_append, List.length_singleton, pow_succ]
      omega

/-! ## Codes -/

variable (lens : List ℕ)

/-- How many codewords have `l` bits. -/
def words (l : ℕ) : ℕ := if l = 0 then 0 else lens.count l

/-- The number of the first codeword of `l` bits. -/
def first : ℕ → ℕ
  | 0 => 0
  | l + 1 => 2 * (first l + words lens l)

/-- How many codewords have fewer than `l` bits. -/
def start : ℕ → ℕ
  | 0 => 0
  | l + 1 => start l + words lens l

/-- How many symbols before `k` have codewords of `l` bits. -/
def rank (k l : ℕ) : ℕ := (lens.take k).count l

/-- The codeword of a symbol. -/
structure IsCode (k : ℕ) (w : List Bool) : Prop where
  pos : 0 < w.length
  symbol : lens[k]? = some w.length
  value : ofBits w = first lens w.length + rank lens k w.length

/-- The codewords of each length find room behind the shorter ones. -/
def Fits : Prop := ∀ l, first lens l + words lens l ≤ 2 ^ l

/-- No more codewords find room. -/
structure Complete : Prop where
  fits : Fits lens
  full : ∃ l, first lens l + words lens l = 2 ^ l

variable {lens} {k k' l : ℕ} {w w' : List Bool}

theorem words_pos (h : 0 < l) : words lens l = lens.count l := if_neg (by omega)

/-- A symbol's rank is below the number of words of its length. -/
theorem rank_lt (h : lens[k]? = some l) : rank lens k l < lens.count l := by
  obtain ⟨hk, hval⟩ := List.getElem?_eq_some_iff.mp h
  have hsplit : lens = lens.take k ++ lens[k] :: lens.drop (k + 1) := by
    rw [← List.drop_eq_getElem_cons hk, List.take_append_drop]
  have hcount : lens.count l = rank lens k l + (lens[k] :: lens.drop (k + 1)).count l := by
    conv_lhs => rw [hsplit]
    rw [List.count_append, rank]
  rw [hcount, hval, List.count_cons_self]
  omega

theorem rank_mono (lens : List ℕ) (h : k ≤ k') (l : ℕ) : rank lens k l ≤ rank lens k' l :=
  (List.take_prefix_take_left h).sublist.count_le l

theorem rank_succ (h : lens[k]? = some l) (m : ℕ) :
    rank lens (k + 1) m = rank lens k m + if l = m then 1 else 0 := by
  obtain ⟨hk, hval⟩ := List.getElem?_eq_some_iff.mp h
  simp only [rank, List.take_add_one, h, Option.toList_some, List.count_append,
    List.count_singleton, beq_iff_eq]

/-- Symbols of one length have different ranks. -/
theorem rank_inj (hk : lens[k]? = some l) (hk' : lens[k']? = some l)
    (h : rank lens k l = rank lens k' l) : k = k' := by
  have hstep : rank lens (k + 1) l = rank lens k l + 1 := by rw [rank_succ hk, if_pos rfl]
  have hstep' : rank lens (k' + 1) l = rank lens k' l + 1 := by rw [rank_succ hk', if_pos rfl]
  rcases Nat.lt_trichotomy k k' with hlt | heq | hgt
  · have hle := rank_mono lens (show k + 1 ≤ k' from hlt) l
    omega
  · exact heq
  · have hle := rank_mono lens (show k' + 1 ≤ k from hgt) l
    omega

/-- Every rank is some symbol's. -/
theorem exists_rank {r : ℕ} (h : r < lens.count l) : ∃ k, lens[k]? = some l ∧ rank lens k l = r := by
  induction lens using List.reverseRecOn with
  | nil => simp at h
  | append_singleton lens x ih =>
      rw [List.count_append, List.count_singleton] at h
      by_cases hr : r < lens.count l
      · obtain ⟨k, hk, hrank⟩ := ih hr
        obtain ⟨hlt, -⟩ := List.getElem?_eq_some_iff.mp hk
        refine ⟨k, ?_, ?_⟩
        · rw [List.getElem?_append_left hlt, hk]
        · rw [rank, List.take_append_of_le_length (Nat.le_of_lt hlt)]
          exact hrank
      · have hx : x = l := by
          by_contra hne
          rw [if_neg (by simpa using hne)] at h
          omega
        rw [if_pos (by simpa using hx)] at h
        refine ⟨lens.length, ?_, ?_⟩
        · rw [List.getElem?_concat_length, hx]
        · rw [rank, List.take_left' rfl]
          omega

/-- The words of `l` bits leave room for longer ones behind them only. -/
theorem room_le (lens : List ℕ) (l j : ℕ) :
    (first lens l + words lens l) * 2 ^ (j + 1) ≤ first lens (l + (j + 1)) := by
  induction j with
  | zero =>
      show _ ≤ 2 * (first lens l + words lens l)
      omega
  | succ j ih =>
      have hnext : first lens (l + (j + 1 + 1))
          = 2 * (first lens (l + (j + 1)) + words lens (l + (j + 1))) := rfl
      rw [hnext, pow_succ]
      calc (first lens l + words lens l) * (2 ^ (j + 1) * 2)
          = 2 * ((first lens l + words lens l) * 2 ^ (j + 1)) := by ring
        _ ≤ 2 * first lens (l + (j + 1)) := Nat.mul_le_mul_left 2 ih
        _ ≤ _ := by omega

theorem IsCode.value_lt (h : IsCode lens k w) :
    ofBits w < first lens w.length + words lens w.length := by
  have hrank := rank_lt h.symbol
  rw [h.value, words_pos h.pos]
  omega

/-- No codeword begins another. -/
theorem IsCode.no_longer {x : List Bool} (h : IsCode lens k w) (h' : IsCode lens k' (w ++ x)) :
    x = [] := by
  rcases hx : x.length with _ | j
  · exact List.length_eq_zero_iff.mp hx
  · exfalso
    have hroom := room_le lens w.length j
    have hval := h'.value
    rw [List.length_append, hx] at hval
    have hlt : ofBits (w ++ x) < (first lens w.length + words lens w.length) * 2 ^ (j + 1) := by
      have hx' := ofBits_lt x
      rw [hx] at hx'
      calc ofBits (w ++ x) = ofBits w * 2 ^ (j + 1) + ofBits x := by rw [ofBits_append, hx]
        _ < (ofBits w + 1) * 2 ^ (j + 1) := by rw [Nat.add_mul]; omega
        _ ≤ _ := Nat.mul_le_mul_right _ h.value_lt
    omega

/-- A string begins with at most one codeword, of one symbol. -/
theorem IsCode.unique (h : IsCode lens k w) (h' : IsCode lens k' w') {s s' : List Bool}
    (heq : w ++ s = w' ++ s') : k = k' ∧ w = w' ∧ s = s' := by
  have hw : w = w' := by
    rcases List.append_eq_append_iff.mp heq with ⟨x, rfl, -⟩ | ⟨x, rfl, -⟩
    · rw [h.no_longer h', List.append_nil]
    · rw [h'.no_longer h, List.append_nil]
  subst hw
  refine ⟨rank_inj h.symbol h'.symbol ?_, rfl, List.append_cancel_left heq⟩
  have hval := h.value.symm.trans h'.value
  omega

end CanonicalCode
