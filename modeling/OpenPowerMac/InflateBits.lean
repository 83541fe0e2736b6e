/-
What the bit reader and the Huffman tables of `inflateRaw` compute.

`rem p i` is what is left of the bits of `p` for a reader `i`. A reader that has run
past the end stays `bad`, so each operation has two lemmas: what it returns when the
reader is good behind it, which is how a successful run is read as a decoding, and
that it returns what the bits say, which is how a decoding is followed. Neither ever
meets a `Fault`.
-/
import OpenPowerMac.Inflate
import OpenPowerMac.Deflate

set_option autoImplicit false

namespace OpenPowerMac

namespace Inflate

open Deflate CanonicalCode

/-! ## Checked accesses -/

theorem get_of {α : Type} {l : List α} {i : ℕ} {a : α} (h : l[i]? = some a) :
    get l i = .ok a := by
  rw [get, h]

theorem put_of {α : Type} {l : List α} {i : ℕ} (a : α) (h : i < l.length) :
    put l i a = .ok (l.set i a) := if_pos h

@[simp] theorem ok_bind {α β : Type} (a : α) (f : α → Checked β) :
    ((.ok a : Checked α) >>= f) = f a := rfl

/-- A loop keeps its invariant, if no step meets a fault. -/
theorem foldlM_range {σ : Type} {f : σ → ℕ → Checked σ} {I : ℕ → σ → Prop} {s : σ} (n : ℕ)
    (hstart : I 0 s) (hstep : ∀ k < n, ∀ s, I k s → ∃ s', f s k = .ok s' ∧ I (k + 1) s') :
    ∃ s', (List.range n).foldlM f s = .ok s' ∧ I n s' := by
  induction n with
  | zero => exact ⟨s, rfl, hstart⟩
  | succ n ih =>
      obtain ⟨s₁, hrun, hinv⟩ := ih fun k hk => hstep k (by omega)
      obtain ⟨s', hlast, hinv'⟩ := hstep n (by omega) s₁ hinv
      refine ⟨s', ?_, hinv'⟩
      rw [List.range_succ, List.foldlM_append, hrun, ok_bind, List.foldlM_cons, hlast]
      rfl

/-! ## The bits of a string -/

theorem getElem_bitsOf (p : List U8) {a b : ℕ} (hb : b < 8) :
    (bitsOf p)[8 * a + b]? = p[a]?.map fun x => x.getLsbD b := by
  induction p generalizing a with
  | nil => rfl
  | cons x p ih =>
      rw [bitsOf, List.flatMap_cons, ← bitsOf]
      have hlen : ((List.range 8).map x.getLsbD).length = 8 := by
        rw [List.length_map, List.length_range]
      cases a with
      | zero =>
          rw [List.getElem?_append_left (by omega), List.getElem?_map, Nat.mul_zero, Nat.zero_add,
            List.getElem?_range hb]
          rfl
      | succ a =>
          rw [List.getElem?_append_right (by omega), hlen,
            show 8 * (a + 1) + b - 8 = 8 * a + b by omega, ih, List.getElem?_cons_succ]

namespace BitIn

/-- The reader is inside the string, or right behind it. -/
def Ok (p : List U8) (i : BitIn) : Prop :=
  i.bit < 8 ∧ (i.at_ < p.length ∨ i.at_ = p.length ∧ i.bit = 0)

/-- What is left for a reader. -/
def rem (p : List U8) (i : BitIn) : List Bool := (bitsOf p).drop (8 * i.at_ + i.bit)

variable {p : List U8} {i : BitIn} {n k v : ℕ} {s' : List Bool}

theorem length_rem (p : List U8) (i : BitIn) :
    (i.rem p).length = 8 * p.length - (8 * i.at_ + i.bit) := by
  rw [rem, List.length_drop, length_bitsOf]

/-- The next bit. -/
theorem Ok.step (h : i.Ok p) (hlt : i.at_ < p.length) :
    i.step.Ok p ∧ i.rem p = p[i.at_].getLsbD i.bit :: i.step.rem p := by
  obtain ⟨hbit, -⟩ := h
  have hnext : 8 * i.step.at_ + i.step.bit = 8 * i.at_ + i.bit + 1 := by
    unfold BitIn.step
    split_ifs
    · show 8 * (i.at_ + 1) + 0 = _
      omega
    · rfl
  constructor
  · unfold BitIn.step
    split_ifs with hfull
    · exact ⟨by show 0 < 8; omega, by show i.at_ + 1 < _ ∨ i.at_ + 1 = _ ∧ (0 : ℕ) = 0; omega⟩
    · exact ⟨by show i.bit + 1 < 8; omega, .inl hlt⟩
  · have hget : (bitsOf p)[8 * i.at_ + i.bit]? = some (p[i.at_].getLsbD i.bit) := by
      rw [getElem_bitsOf p hbit, List.getElem?_eq_getElem hlt]
      rfl
    obtain ⟨hin, hval⟩ := List.getElem?_eq_some_iff.mp hget
    rw [rem, List.drop_eq_getElem_cons hin, hval, rem, hnext]

theorem bit_toNat (x : U8) (b : ℕ) : ((x >>> b) &&& 1#8).toNat = (x.getLsbD b).toNat := by
  have hbit : (x >>> b) &&& 1#8 = (BitVec.ofBool (x.getLsbD b)).setWidth 8 := by
    ext j hj
    simp only [← BitVec.getLsbD_eq_getElem]
    rcases Nat.eq_zero_or_pos j with rfl | hpos
    · simp
    · have hone : (1#8 : U8).getLsbD j = false := by
        rw [BitVec.getLsbD_one]
        simp
        omega
      simp [hone]
      omega
  rw [hbit]
  cases x.getLsbD b <;> rfl

/-- The loop of `take` spells the next bits, from bit `k` of the value on, or runs
past the end. -/
theorem takeFrom_spec (count : ℕ) : ∀ {k v : ℕ} {i : BitIn}, i.Ok p → v < 2 ^ k →
    ∃ u i', takeFrom p count k v i = .ok (u, i') ∧ i'.Ok p ∧
      ((∃ w : List Bool, w.length = count ∧ u = v + 2 ^ k * ofBitsLE w ∧ i.rem p = w ++ i'.rem p
          ∧ i'.bad = i.bad)
        ∨ u = 0 ∧ (i.rem p).length < count ∧ i'.bad = true) := by
  induction count with
  | zero =>
      intro k v i hi hv
      exact ⟨v, i, rfl, hi, .inl ⟨[], rfl, by simp [ofBitsLE], rfl, rfl⟩⟩
  | succ count ih =>
      intro k v i hi hv
      by_cases hend : p.length ≤ i.at_
      · refine ⟨0, { i with bad := true }, if_pos hend, hi, .inr ⟨rfl, ?_, rfl⟩⟩
        rw [length_rem]
        omega
      · have hlt : i.at_ < p.length := by omega
        obtain ⟨hstep, hrem⟩ := hi.step hlt
        have hbad : i.step.bad = i.bad := by
          unfold BitIn.step
          split_ifs <;> rfl
        -- the bit goes above those already there
        have hor : v ||| (((p[i.at_] >>> i.bit) &&& 1#8).toNat <<< k)
            = v + 2 ^ k * (p[i.at_].getLsbD i.bit).toNat := by
          rw [bit_toNat, Nat.or_comm, ← Nat.shiftLeft_add_eq_or_of_lt hv, Nat.shiftLeft_eq]
          ring
        have hlt' : v + 2 ^ k * (p[i.at_].getLsbD i.bit).toNat < 2 ^ (k + 1) := by
          have hb : (p[i.at_].getLsbD i.bit).toNat ≤ 1 := Nat.le_of_lt_succ (Bool.toNat_lt _)
          have hmul := Nat.mul_le_mul_left (2 ^ k) hb
          rw [pow_succ]
          omega
        obtain ⟨u, i', hrun, hok, hcase⟩ := ih hstep hlt'
        refine ⟨u, i', ?_, hok, ?_⟩
        · rw [takeFrom, if_neg hend, get_of (List.getElem?_eq_getElem hlt), ok_bind, hor]
          exact hrun
        · rcases hcase with ⟨w, hw, hu, hrem', hbad'⟩ | ⟨hu, hshort, hbad'⟩
          · refine .inl ⟨p[i.at_].getLsbD i.bit :: w, by rw [List.length_cons, hw], ?_, ?_,
              hbad'.trans hbad⟩
            · rw [hu, ofBitsLE, pow_succ]
              ring
            · rw [hrem, hrem']
              rfl
          · refine .inr ⟨hu, ?_, hbad'⟩
            rw [hrem, List.length_cons]
            omega

/-- What was read, if the reader is good. -/
theorem take_spec (hi : i.Ok p) (n : ℕ) :
    ∃ v i', i.take p n = .ok (v, i') ∧ i'.Ok p ∧ v < 2 ^ n
      ∧ (i'.bad = false → i.bad = false ∧ Reads n (i.rem p) v (i'.rem p)) := by
  obtain ⟨v, i', hrun, hok, hcase⟩ := takeFrom_spec n hi (k := 0) (v := 0) (by simp)
  refine ⟨v, i', hrun, hok, ?_⟩
  rcases hcase with ⟨w, rfl, rfl, hrem, hbad⟩ | ⟨rfl, -, hbad⟩
  · have hlt := ofBitsLE_lt w
    refine ⟨by omega, ?_⟩
    intro hgood
    exact ⟨hbad.symm.trans hgood, w, rfl, by omega, hrem⟩
  · refine ⟨Nat.two_pow_pos n, ?_⟩
    intro hgood
    rw [hbad] at hgood
    exact Bool.noConfusion hgood

/-- What the bits say is read. -/
theorem take_of_reads (hi : i.Ok p) (hgood : i.bad = false) (h : Reads n (i.rem p) v s') :
    ∃ i', i.take p n = .ok (v, i') ∧ i'.Ok p ∧ i'.bad = false ∧ i'.rem p = s' := by
  obtain ⟨x, hx, hv, hrem⟩ := h
  obtain ⟨u, i', hrun, hok, hcase⟩ := takeFrom_spec n hi (k := 0) (v := 0) (by simp)
  rcases hcase with ⟨w, hw, rfl, hrem', hbad⟩ | ⟨-, hshort, -⟩
  · obtain ⟨rfl, hrest⟩ := List.append_inj (hrem.symm.trans hrem') (by omega)
    refine ⟨i', ?_, hok, hbad.trans hgood, hrest.symm⟩
    rw [← hv, take, hrun]
    simp
  · rw [hrem, List.length_append] at hshort
    omega

end BitIn

/-! ## The tables of a code -/

/-- The tables hold the code of these lengths. -/
structure Table (lens : List ℕ) (h : Huff) : Prop where
  short : ∀ x ∈ lens, x < 16
  count : ∀ l < 16, h.count[l]? = some (words lens l)
  sym : ∀ k l, lens[k]? = some l → 0 < l → h.sym[start lens l + rank lens k l]? = some k
  length : h.sym.length = 288

theorem words_of_long {lens : List ℕ} (h : ∀ x ∈ lens, x < 16) {l : ℕ} (hl : 16 ≤ l) :
    words lens l = 0 := by
  rw [words_pos (by omega), List.count_eq_zero]
  intro hmem
  have hlt := h l hmem
  omega

/-- The lengths up to 15 decide. -/
theorem fits_iff {lens : List ℕ} (h : ∀ x ∈ lens, x < 16) :
    Fits lens ↔ ∀ l, 1 ≤ l → l < 16 → first lens l + words lens l ≤ 2 ^ l := by
  constructor
  · intro hfits l _ _
    exact hfits l
  · intro hall l
    induction l with
    | zero => simp [first, words]
    | succ l ih =>
        by_cases hlong : 16 ≤ l + 1
        · rw [words_of_long h hlong, first, pow_succ]
          omega
        · exact hall (l + 1) (by omega) (by omega)

/-- Symbols with shorter codewords come before. -/
theorem start_eq (lens : List ℕ) (l : ℕ) : start lens l = lens.countP fun x => 0 < x ∧ x < l := by
  induction l with
  | zero => simp [start]
  | succ l ih =>
      rw [start, ih]
      rcases Nat.eq_zero_or_pos l with rfl | hpos
      · have hnone : ∀ x ∈ lens, ¬ ((decide (0 < x ∧ x < 0 + 1)) = true) := by
          intro x _
          simp only [decide_eq_true_eq]
          omega
        rw [List.countP_eq_zero.mpr hnone, words, if_pos rfl, Nat.add_zero]
        rw [List.countP_eq_zero]
        intro x _
        simp only [decide_eq_true_eq]
        omega
      · rw [words_pos hpos]
        clear ih
        induction lens with
        | nil => rfl
        | cons x lens ih =>
            rw [List.countP_cons, List.count_cons, List.countP_cons, ← ih]
            simp only [decide_eq_true_eq, beq_iff_eq]
            split_ifs <;> omega

theorem start_le (lens : List ℕ) (l : ℕ) : start lens l ≤ lens.length := by
  rw [start_eq]
  exact List.countP_le_length

theorem start_mono (lens : List ℕ) {l l' : ℕ} (h : l < l') :
    start lens l + words lens l ≤ start lens l' := by
  induction l' with
  | zero => omega
  | succ l' ih =>
      rw [start]
      rcases Nat.lt_or_ge l l' with hlt | hge
      · have hle := ih hlt
        omega
      · have heq : l = l' := by omega
        rw [heq]

namespace Huff

theorem tally_spec {lens : List ℕ} {n : ℕ} (hn : n ≤ lens.length)
    (hshort : ∀ x ∈ lens.take n, x < 16) :
    ∃ count, tally lens n = .ok count ∧ count.length = 16
      ∧ ∀ l < 16, count[l]? = some (words (lens.take n) l) := by
  obtain ⟨c, hrun, hlen, hc⟩ := foldlM_range n
    (f := fun count k => do
      let l ← get lens k
      let c ← get count l
      put count l (c + 1))
    (I := fun k (a : List ℕ) => a.length = 16 ∧ ∀ l < 16, a[l]? = some (rank lens k l))
    (s := List.replicate 16 0)
    ⟨List.length_replicate, fun l hl => by rw [List.getElem?_replicate, if_pos hl]; rfl⟩
    (by
      rintro k hk c ⟨hlen, hc⟩
      have hget : lens[k]? = some lens[k] := List.getElem?_eq_getElem (by omega)
      have hlt : lens[k] < 16 := hshort _ (List.mem_take_iff_getElem.mpr ⟨k, by omega, rfl⟩)
      refine ⟨c.set lens[k] (rank lens k lens[k] + 1), ?_, by rw [List.length_set, hlen], ?_⟩
      · rw [get_of hget, ok_bind, get_of (hc _ hlt), ok_bind, put_of _ (by omega)]
      · intro l hl
        rw [rank_succ hget, List.getElem?_set, hc l hl]
        by_cases heq : lens[k] = l
        · rw [if_pos heq, if_pos heq, if_pos (by omega), heq]
        · rw [if_neg heq, if_neg heq, Nat.add_zero])
  refine ⟨c.set 0 0, ?_, by rw [List.length_set, hlen], ?_⟩
  · rw [tally, hrun, ok_bind, put_of _ (by omega)]
  · intro l hl
    rw [List.getElem?_set, hc l hl]
    rcases Nat.eq_zero_or_pos l with rfl | hpos
    · rw [if_pos rfl, if_pos (by omega), words, if_pos rfl]
    · rw [if_neg (by omega), words_pos hpos, rank]

/-- `left` is the room that is left. -/
theorem fits_spec {lens count : List ℕ} (hcount : ∀ l < 16, count[l]? = some (words lens l))
    (n : ℕ) : ∀ {l : ℕ}, n + l = 15 → first lens l + words lens l ≤ 2 ^ l →
    ∃ ok, fits count n (l + 1) (2 ^ l - (first lens l + words lens l) : ℤ) = .ok ok
      ∧ (ok = true ↔ ∀ l', l < l' → l' < 16 → first lens l' + words lens l' ≤ 2 ^ l') := by
  induction n with
  | zero =>
      intro l hl _
      refine ⟨true, rfl, iff_of_true rfl ?_⟩
      intro l' hlt hlt'
      omega
  | succ n ih =>
      intro l hl hroom
      -- what is left after the codewords of the next length
      have hleft : 2 * (2 ^ l - (first lens l + words lens l) : ℤ) - words lens (l + 1)
          = 2 ^ (l + 1) - (first lens (l + 1) + words lens (l + 1)) := by
        rw [first, pow_succ]
        push_cast
        ring
      rw [fits, get_of (hcount (l + 1) (by omega)), ok_bind, hleft]
      by_cases hover : first lens (l + 1) + words lens (l + 1) ≤ 2 ^ (l + 1)
      · have hle : ((first lens (l + 1) + words lens (l + 1) : ℕ) : ℤ) ≤ ((2 ^ (l + 1) : ℕ) : ℤ) :=
          Int.ofNat_le.mpr hover
        push_cast at hle
        rw [if_neg (by omega)]
        obtain ⟨ok, hrun, hiff⟩ := ih (by omega) hover
        refine ⟨ok, hrun, hiff.trans ⟨?_, ?_⟩⟩
        · intro h l' hlt hlt'
          rcases Nat.eq_or_lt_of_le (show l + 1 ≤ l' from hlt) with rfl | hgt
          · exact hover
          · exact h l' hgt hlt'
        · intro h l' hlt hlt'
          exact h l' (by omega) hlt'
      · have hlt : ((2 ^ (l + 1) : ℕ) : ℤ) < ((first lens (l + 1) + words lens (l + 1) : ℕ) : ℤ) :=
          Int.ofNat_lt.mpr (by omega)
        push_cast at hlt
        rw [if_pos (by omega)]
        refine ⟨false, rfl, iff_of_false Bool.false_ne_true ?_⟩
        intro h
        exact hover (h (l + 1) (by omega) (by omega))

theorem offsets_spec {lens count : List ℕ} (hcount : ∀ l < 16, count[l]? = some (words lens l)) :
    ∃ offs, offsets count = .ok offs ∧ offs.length = 16
      ∧ ∀ l, 0 < l → l < 16 → offs[l]? = some (start lens l) := by
  have hrange : List.range' 1 14 = (List.range 14).map (· + 1) := by decide
  obtain ⟨offs, hrun, hlen, hoffs⟩ := foldlM_range 14
    (f := fun offs l => do
      let o ← get offs (l + 1)
      let c ← get count (l + 1)
      put offs (l + 1 + 1) (o + c))
    (I := fun k (o : List ℕ) => o.length = 16
      ∧ ∀ l, 0 < l → l ≤ k + 1 → o[l]? = some (start lens l))
    (s := List.replicate 16 0)
    ⟨List.length_replicate, by
      intro l hpos hle
      obtain rfl : l = 1 := by omega
      rfl⟩
    (by
      rintro k hk o ⟨hlen, ho⟩
      refine ⟨o.set (k + 1 + 1) (start lens (k + 1) + words lens (k + 1)), ?_,
        by rw [List.length_set, hlen], ?_⟩
      · rw [get_of (ho (k + 1) (by omega) le_rfl), ok_bind, get_of (hcount (k + 1) (by omega)),
          ok_bind, put_of _ (by omega)]
      · intro l hpos hle
        rw [List.getElem?_set]
        by_cases heq : k + 1 + 1 = l
        · rw [if_pos heq, if_pos (by omega), ← heq]
          rfl
        · rw [if_neg heq]
          exact ho l hpos (by omega))
  refine ⟨offs, ?_, hlen, fun l hpos hlt => hoffs l hpos (by omega)⟩
  rw [offsets, hrange, List.foldlM_map]
  exact hrun

/-- Where a symbol goes. -/
theorem slot_lt {lens : List ℕ} {k l : ℕ} (h : lens[k]? = some l) (hpos : 0 < l) :
    start lens l + rank lens k l < start lens (l + 1) := by
  have hrank := rank_lt h
  rw [start, words_pos hpos]
  omega

/-- Every symbol has a place of its own. -/
theorem slot_inj {lens : List ℕ} {k k' l l' : ℕ} (h : lens[k]? = some l) (hpos : 0 < l)
    (h' : lens[k']? = some l') (hpos' : 0 < l')
    (heq : start lens l + rank lens k l = start lens l' + rank lens k' l') : k = k' := by
  have hlt := rank_lt h
  have hlt' := rank_lt h'
  rw [← words_pos hpos] at hlt
  rw [← words_pos hpos'] at hlt'
  rcases Nat.lt_trichotomy l l' with hl | rfl | hl
  · have hmono := start_mono lens hl
    omega
  · exact rank_inj h h' (by omega)
  · have hmono := start_mono lens hl
    omega

/-- The offsets and the symbols once the first `j` symbols are placed. -/
structure Filling (code : List ℕ) (j : ℕ) (offs sym : List ℕ) : Prop where
  offs_length : offs.length = 16
  sym_length : sym.length = 288
  next : ∀ l, 0 < l → l < 16 → offs[l]? = some (start code l + rank code j l)
  done : ∀ k l, k < j → code[k]? = some l → 0 < l → sym[start code l + rank code k l]? = some k

namespace Filling

variable {code offs sym : List ℕ} {j l : ℕ}

/-- A symbol without a codeword. -/
theorem skip (h : Filling code j offs sym) (hj : code[j]? = some 0) :
    Filling code (j + 1) offs sym where
  offs_length := h.offs_length
  sym_length := h.sym_length
  next := by
    intro l hpos hl
    rw [rank_succ hj, if_neg (by omega)]
    exact h.next l hpos hl
  done := by
    intro k l hk hkl hpos
    have hne : k ≠ j := by
      rintro rfl
      rw [hj] at hkl
      injection hkl with hkl
      omega
    exact h.done k l (by omega) hkl hpos

/-- A symbol of length `l`, at the next place of its length. -/
theorem place (h : Filling code j offs sym) (hj : code[j]? = some l) (hpos : 0 < l) (hlt : l < 16)
    (hplace : start code l + rank code j l < 288) :
    Filling code (j + 1) (offs.set l (start code l + rank code j l + 1))
      (sym.set (start code l + rank code j l) j) where
  offs_length := by rw [List.length_set, h.offs_length]
  sym_length := by rw [List.length_set, h.sym_length]
  next := by
    intro m hm hm16
    rw [rank_succ hj, List.getElem?_set]
    by_cases heq : l = m
    · rw [if_pos heq, if_pos heq, if_pos (show l < offs.length by rw [h.offs_length]; omega), heq,
        Nat.add_assoc]
    · rw [if_neg heq, if_neg heq]
      exact h.next m hm hm16
  done := by
    intro k m hk hkm hm
    rw [List.getElem?_set]
    by_cases heq : start code l + rank code j l = start code m + rank code k m
    · rw [if_pos heq, if_pos (show _ < sym.length by rw [h.sym_length]; omega),
        slot_inj hj hpos hkm hm heq]
    · have hne : k ≠ j := by
        rintro rfl
        rw [hj] at hkm
        injection hkm with hkm
        exact heq (by rw [hkm])
      rw [if_neg heq]
      exact h.done k m (by omega) hkm hm

end Filling

theorem fill_spec {lens : List ℕ} {n : ℕ} {offs : List ℕ} (hn : n ≤ lens.length) (hmax : n ≤ 288)
    (hshort : ∀ x ∈ lens.take n, x < 16) (hlen : offs.length = 16)
    (hoffs : ∀ l, 0 < l → l < 16 → offs[l]? = some (start (lens.take n) l)) :
    ∃ offs' sym, fill lens n offs = .ok (offs', sym) ∧ sym.length = 288
      ∧ ∀ k l, (lens.take n)[k]? = some l → 0 < l
          → sym[start (lens.take n) l + rank (lens.take n) k l]? = some k := by
  set code := lens.take n with hcode
  have hlength : code.length = n := by rw [hcode, List.length_take, Nat.min_eq_left hn]
  have hstart : Filling code 0 offs (List.replicate 288 0) :=
    ⟨hlen, List.length_replicate, hoffs, fun _ _ hk => absurd hk (Nat.not_lt_zero _)⟩
  obtain ⟨⟨offs', sym⟩, hrun, hfilled⟩ := foldlM_range n
    (f := fun (s : List ℕ × List ℕ) k => do
      let l ← get lens k
      if l ≠ 0 then do
        let o ← get s.1 l
        let sym ← put s.2 o k
        let offs ← put s.1 l (o + 1)
        pure (offs, sym)
      else pure (s.1, s.2))
    (I := fun j (s : List ℕ × List ℕ) => Filling code j s.1 s.2)
    (s := (offs, List.replicate 288 0)) hstart (by
      rintro j hj ⟨o, sym⟩ h
      have hget : lens[j]? = some lens[j] := List.getElem?_eq_getElem (by omega)
      have hcget : code[j]? = some lens[j] := by rw [hcode, List.getElem?_take_of_lt hj, hget]
      have hlt : lens[j] < 16 := hshort _ (List.mem_of_getElem? hcget)
      have ho := h.offs_length
      have hs := h.sym_length
      -- an unused symbol has no slot; a used one takes the next of its length
      by_cases hzero : lens[j] = 0
      · refine ⟨(o, sym), ?_, h.skip (hzero ▸ hcget)⟩
        rw [get_of hget, ok_bind, if_neg (not_not.mpr hzero)]
        rfl
      · have hplace : start code lens[j] + rank code j lens[j] < 288 := by
          have hslot := slot_lt hcget (by omega)
          have hle := start_le code (lens[j] + 1)
          omega
        refine ⟨(o.set lens[j] (start code lens[j] + rank code j lens[j] + 1),
          sym.set (start code lens[j] + rank code j lens[j]) j), ?_,
          h.place hcget (by omega) hlt hplace⟩
        rw [get_of hget, ok_bind, if_pos hzero, get_of (h.next _ (by omega) hlt), ok_bind,
          put_of _ (by omega), ok_bind, put_of _ (by omega), ok_bind]
        rfl)
  refine ⟨offs', sym, hrun, hfilled.sym_length, fun k l hk hpos => ?_⟩
  obtain ⟨hin, -⟩ := List.getElem?_eq_some_iff.mp hk
  exact hfilled.done k l (by omega) hk hpos

/-- The tables are built for a code that is not over-subscribed, and for no other. -/
theorem build_spec (lens : List ℕ) (n : ℕ) (hn : n ≤ lens.length) (hmax : n ≤ 288)
    (hshort : ∀ x ∈ lens.take n, x < 16) :
    ∃ r, build lens n = .ok r ∧ (r = none → ¬ Fits (lens.take n))
      ∧ ∀ h, r = some h → Fits (lens.take n) ∧ Table (lens.take n) h := by
  obtain ⟨count, htally, -, hcount⟩ := tally_spec hn hshort
  obtain ⟨ok, hfits, hiff⟩ := fits_spec hcount 15 (l := 0) (by omega) (by simp [first, words])
  have hbegin : (2 ^ 0 - (first (lens.take n) 0 + words (lens.take n) 0) : ℤ) = 1 := by
    simp [first, words]
  rw [hbegin] at hfits
  have hall : ok = true ↔ Fits (lens.take n) := by
    rw [hiff, fits_iff hshort]
    exact ⟨fun h l hpos hlt => h l hpos hlt, fun h l hpos hlt => h l hpos hlt⟩
  rw [build, htally, ok_bind, hfits, ok_bind]
  cases ok with
  | false =>
      refine ⟨none, rfl, ?_, ?_⟩
      · intro _ hfit
        exact Bool.noConfusion (hall.mpr hfit)
      · intro h hh
        cases hh
  | true =>
      obtain ⟨offs, hrun, hlen, hoffs⟩ := offsets_spec hcount
      obtain ⟨offs', sym, hfill, hsym, hfilled⟩ := fill_spec hn hmax hshort hlen hoffs
      refine ⟨some ⟨count, sym⟩, ?_, ?_, ?_⟩
      · rw [hrun, ok_bind, hfill]
        rfl
      · intro h
        cases h
      · rintro h ⟨rfl⟩
        exact ⟨hall.mp rfl, hshort, hcount, hfilled, hsym⟩

/-! ## Decoding -/

variable {p : List U8} {lens : List ℕ} {h : Huff}

/-- A word below the last of its length is a codeword. -/
theorem exists_isCode (lens : List ℕ) {w : List Bool} (hpos : 0 < w.length) (hle : first lens w.length ≤ ofBits w)
    (hlt : ofBits w < first lens w.length + words lens w.length) :
    ∃ k, IsCode lens k w ∧ ofBits w - first lens w.length = rank lens k w.length := by
  rw [words_pos hpos] at hlt
  obtain ⟨k, hk, hrank⟩ := exists_rank (show ofBits w - first lens w.length < lens.count w.length by
    omega)
  exact ⟨k, ⟨hpos, hk, by omega⟩, hrank.symm⟩

/-- What the loop of `decode` comes to behind the bits `w`: the codeword that the rest completes is
found, or there is none, or the reader ran past the end. -/
def Decoded (p : List U8) (lens : List ℕ) (w : List Bool) (i : BitIn) (r : Option ℕ)
    (i' : BitIn) : Prop :=
  (∃ k x, r = some k ∧ IsCode lens k (w ++ x) ∧ i.rem p = x ++ i'.rem p ∧ i'.bad = i.bad)
    ∨ (∀ k x s, i.rem p = x ++ s → ¬ IsCode lens k (w ++ x)) ∧ (r = none ∨ i'.bad = true)

namespace Decoded

variable {w : List Bool} {i i₁ i' : BitIn} {r : Option ℕ}

/-- Nothing is left of the string, and `w` is no codeword. -/
theorem past_end (hnot : ∀ k, ¬ IsCode lens k w) (hrem : i.rem p = [])
    (hr : r = none ∨ i'.bad = true) : Decoded p lens w i r i' := by
  refine .inr ⟨fun k x s hx => ?_, hr⟩
  rw [hrem] at hx
  obtain ⟨rfl, -⟩ := List.append_eq_nil_iff.mp hx.symm
  rw [List.append_nil]
  exact hnot k

/-- One bit was read, and `w` is no codeword. -/
theorem of_bit {b : Bool} (hnot : ∀ k, ¬ IsCode lens k w) (hrem : i.rem p = b :: i₁.rem p)
    (hbad : i₁.bad = i.bad) (h : Decoded p lens (w ++ [b]) i₁ r i') : Decoded p lens w i r i' := by
  rcases h with ⟨k, x, hr, hk, hx, hbad'⟩ | ⟨hnone, hr⟩
  · refine .inl ⟨k, b :: x, hr, ?_, ?_, hbad'.trans hbad⟩
    · rw [List.append_cons]
      exact hk
    · rw [hrem, hx, List.cons_append]
  · refine .inr ⟨fun k x s hx => ?_, hr⟩
    rcases x with _ | ⟨c, x⟩
    · rw [List.append_nil]
      exact hnot k
    · rw [hrem, List.cons_append] at hx
      obtain ⟨hbc, hrest⟩ := List.cons_eq_cons.mp hx
      rw [← hbc, List.append_cons]
      exact hnone k x s hrest

end Decoded

/-- The bit that is asked for: past the end it is 0, and the reader bad. -/
theorem take_bit {i : BitIn} (hi : i.Ok p) : ∃ (b : Bool) (i₁ : BitIn),
    i.take p 1 = .ok (b.toNat, i₁) ∧ i₁.Ok p
      ∧ (i.rem p = b :: i₁.rem p ∧ i₁.bad = i.bad ∨ i.rem p = [] ∧ i₁.bad = true) := by
  obtain ⟨v, i₁, htake, hok, hcase⟩ := BitIn.takeFrom_spec 1 hi (k := 0) (v := 0) (by simp)
  rw [BitIn.take]
  rcases hcase with ⟨y, hy, hval, hrem, hbad⟩ | ⟨hval, hnone, hbad⟩
  · obtain ⟨b, rfl⟩ := List.length_eq_one_iff.mp hy
    have hb : v = b.toNat := by simp [hval, ofBitsLE]
    exact ⟨b, i₁, hb ▸ htake, hok, .inl ⟨hrem, hbad⟩⟩
  · rw [hval] at htake
    exact ⟨false, i₁, htake, hok, .inr ⟨List.length_eq_zero_iff.mp (by omega), hbad⟩⟩

/-- The loop of `decode` behind the bits `w`, none of whose prefixes is a codeword. -/
theorem decodeFrom_spec (ht : Table lens h) (hmax : lens.length ≤ 288) (n : ℕ) :
    ∀ {w : List Bool} {i : BitIn}, n + w.length = 15 → i.Ok p →
    first lens w.length + words lens w.length ≤ ofBits w →
    ∃ r i', decodeFrom p h n (w.length + 1) (2 * ofBits w) (first lens (w.length + 1))
        (start lens (w.length + 1)) i = .ok (r, i') ∧ i'.Ok p ∧ Decoded p lens w i r i' := by
  induction n with
  | zero =>
      intro w i hw hi hpast
      refine ⟨none, i, rfl, hi, .inr ⟨?_, .inl rfl⟩⟩
      -- no codeword is longer than 15 bits
      intro k x s _ hcode
      have hshort := ht.short _ (List.mem_of_getElem? hcode.symbol)
      rw [List.length_append] at hshort
      obtain rfl : x = [] := List.length_eq_zero_iff.mp (by omega)
      rw [List.append_nil] at hcode
      have hlt := hcode.value_lt
      omega
  | succ n ih =>
      intro w i hw hi hpast
      have hnot : ∀ k, ¬ IsCode lens k w := by
        intro k hcode
        have hlt := hcode.value_lt
        omega
      obtain ⟨b, i₁, htake, hok, hcase⟩ := take_bit hi
      have hcode : 2 * ofBits w ||| b.toNat = ofBits (w ++ [b]) := by
        rw [ofBits_concat]
        have hshift : 2 * ofBits w = ofBits w <<< 1 := by
          rw [Nat.shiftLeft_eq]
          omega
        rw [hshift, ← Nat.shiftLeft_add_eq_or_of_lt (Bool.toNat_lt b)]
      have hlen : (w ++ [b]).length = w.length + 1 := by simp
      have hfirst : first lens (w.length + 1) ≤ ofBits (w ++ [b]) := by
        rw [ofBits_concat, first]
        omega
      rw [decodeFrom, htake]
      simp only [ok_bind, get_of (ht.count _ (show w.length + 1 < 16 by omega)), hcode]
      by_cases hfound : ofBits (w ++ [b]) < first lens (w.length + 1) + words lens (w.length + 1)
      · obtain ⟨k, hk, hrank⟩ := exists_isCode lens (w := w ++ [b]) (by omega)
          (by rw [hlen]; exact hfirst) (by rw [hlen]; exact hfound)
        have hslot := slot_lt hk.symbol hk.pos
        have hbound := start_le lens (w.length + 1 + 1)
        rw [hlen] at hrank hslot
        -- the unsigned index does not wrap: the codeword is not below the first of its length
        have hindex : (start lens (w.length + 1)
            + (ofBits (w ++ [b]) + 2 ^ 32 - first lens (w.length + 1))) % 2 ^ 32
            = start lens (w.length + 1) + rank lens k (w.length + 1) := by
          omega
        have hsym := ht.sym k _ hk.symbol hk.pos
        rw [hlen] at hsym
        refine ⟨some k, i₁, ?_, hok, ?_⟩
        · rw [if_pos hfound, hindex, get_of hsym]
          rfl
        · rcases hcase with ⟨hrem, hbad⟩ | ⟨hrem, hbad⟩
          · exact .inl ⟨k, [b], rfl, hk, hrem, hbad⟩
          · exact .past_end hnot hrem (.inr hbad)
      · have hnext := ih (w := w ++ [b]) (i := i₁) (by omega) hok (by rw [hlen]; omega)
        rw [hlen] at hnext
        obtain ⟨r, i', hrun, hok', hcase'⟩ := hnext
        refine ⟨r, i', ?_, hok', ?_⟩
        · rw [if_neg hfound]
          simp only [Nat.shiftLeft_eq, pow_one, Nat.mul_comm _ 2]
          exact hrun
        · rcases hcase with ⟨hrem, hbad⟩ | ⟨hrem, hbad⟩
          · exact .of_bit hnot hrem hbad hcase'
          · refine .past_end hnot hrem ?_
            rcases hcase' with ⟨-, -, -, -, -, hbad'⟩ | ⟨-, hr⟩
            · exact .inr (hbad'.trans hbad)
            · exact hr

/-- The symbol that was decoded, if the reader is good. -/
theorem decode_spec (ht : Table lens h) (hmax : lens.length ≤ 288) {i : BitIn} (hi : i.Ok p) :
    ∃ r i', h.decode p i = .ok (r, i') ∧ i'.Ok p
      ∧ ∀ k, r = some k → i'.bad = false → i.bad = false ∧ ReadsCode lens (i.rem p) k (i'.rem p) := by
  obtain ⟨r, i', hrun, hok, hcase⟩ := decodeFrom_spec ht hmax 15 (w := []) rfl hi
    (by simp [first, words])
  refine ⟨r, i', hrun, hok, ?_⟩
  intro k hr hgood
  rcases hcase with ⟨k', x, hr', hcode, hrem, hbad⟩ | ⟨-, hr' | hbad⟩
  · rw [hr] at hr'
    injection hr' with hr'
    subst hr'
    exact ⟨hbad.symm.trans hgood, x, hcode, hrem⟩
  · rw [hr] at hr'
    cases hr'
  · rw [hbad] at hgood
    cases hgood

/-- The codeword that is there is decoded. -/
theorem decode_of_reads (ht : Table lens h) (hmax : lens.length ≤ 288) {i : BitIn} (hi : i.Ok p)
    (hgood : i.bad = false) {k : ℕ} {s' : List Bool} (hcode : ReadsCode lens (i.rem p) k s') :
    ∃ i', h.decode p i = .ok (some k, i') ∧ i'.Ok p ∧ i'.bad = false ∧ i'.rem p = s' := by
  obtain ⟨y, hy, hs⟩ := hcode
  obtain ⟨r, i', hrun, hok, hcase⟩ := decodeFrom_spec ht hmax 15 (w := []) rfl hi
    (by simp [first, words])
  rcases hcase with ⟨k', x, hr, hx, hrem, hbad⟩ | ⟨hnone, -⟩
  · obtain ⟨rfl, -, rfl⟩ := hy.unique hx (hs.symm.trans hrem)
    refine ⟨i', ?_, hok, hbad.trans hgood, rfl⟩
    rw [← hr]
    exact hrun
  · exact absurd hy (hnone k y s' hs)

end Huff

end Inflate

end OpenPowerMac
