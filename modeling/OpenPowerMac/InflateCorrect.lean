/-
`inflateRaw` reads what the format says, and only that.

The reader never leaves its string and no table is indexed outside: a run ends in a
`Bool` and what it has written, at most `cap` bytes of it, and never in a `Fault`.
Where it ends in true the string begins with a stream of `accepted` that says these
bytes; and every such stream that fits is read.
-/
import OpenPowerMac.InflateHead

set_option autoImplicit false

namespace OpenPowerMac

namespace Inflate

open Deflate CanonicalCode

variable {p : List U8} {i : BitIn} {s s' : List Bool} {cap : ℕ}

/-! ## Copies -/

/-- The byte that is copied next is `back` bytes before the end. -/
theorem copied_get {out : List U8} {back j : ℕ} (hpos : 0 < back) (hback : back ≤ out.length) :
    (copied out back j)[out.length + j - back]?
      = some (out.getD (out.length - back + j % back) 0#8) := by
  rw [copied]
  by_cases hj : j < back
  · have hlt : out.length - back + j < out.length := by omega
    rw [List.getElem?_append_left (by omega), Nat.mod_eq_of_lt hj,
      show out.length + j - back = out.length - back + j by omega, List.getElem?_eq_getElem hlt,
      List.getD_eq_getElem _ _ hlt]
  · rw [List.getElem?_append_right (by omega), show out.length + j - back - out.length = j - back by
      omega, List.getElem?_map, List.getElem?_range (by omega), Nat.mod_eq_sub_mod (by omega)]
    rfl

/-- The copy loop writes the bytes that are `back` behind, those it has written itself with them.
-/
theorem copy_spec (out : List U8) (back : ℕ) (hpos : 0 < back) (hback : back ≤ out.length)
    (n : ℕ) : ∀ j, copy back n (copied out back j) = .ok (copied out back (j + n)) := by
  induction n with
  | zero => exact fun j => rfl
  | succ n ih =>
      intro j
      have hnext : copied out back j ++ [out.getD (out.length - back + j % back) 0#8]
          = copied out back (j + 1) := by
        rw [copied, copied, List.range_succ, List.map_append, List.append_assoc]
        rfl
      rw [copy, length_copied, get_of (copied_get hpos hback), ok_bind, hnext, ih,
        show j + 1 + n = j + (n + 1) by omega]

/-! ## The tables -/

/-- The two arrays of the source are the two columns of the length codes. -/
theorem lenTables {j least n : ℕ} (h : lengthCodes[j]? = some (least, n)) :
    kLenBase[j]? = some least ∧ kLenExtra[j]? = some n := by
  have hbase : kLenBase = lengthCodes.map Prod.fst := rfl
  have hextra : kLenExtra = lengthCodes.map Prod.snd := rfl
  rw [hbase, hextra, List.getElem?_map, List.getElem?_map, h]
  exact ⟨rfl, rfl⟩

/-- So are those of the distance codes. -/
theorem distTables {d least n : ℕ} (h : distanceCodes[d]? = some (least, n)) :
    kDistBase[d]? = some least ∧ kDistExtra[d]? = some n := by
  have hbase : kDistBase = distanceCodes.map Prod.fst := rfl
  have hextra : kDistExtra = distanceCodes.map Prod.snd := rfl
  rw [hbase, hextra, List.getElem?_map, List.getElem?_map, h]
  exact ⟨rfl, rfl⟩

/-- No distance is zero: the byte copied has been written. -/
theorem dist_pos {d least n : ℕ} (h : distanceCodes[d]? = some (least, n)) : 0 < least := by
  have hall : ∀ q ∈ distanceCodes, 0 < q.1 := by decide
  exact hall _ (List.mem_of_getElem? h)

/-! ## Symbols -/

section Symbols

variable {L D : List ℕ} {lit dist : Huff}

/-- What one turn of `symbols` comes to: a return of false, the end of the block, or a turn
more, with more written of what the string says. -/
inductive Turned (p : List U8) (cap : ℕ) (L D : List ℕ) (lit dist : Huff) (n : ℕ) (i : BitIn)
    (out : List U8) (r : Checked (Bool × BitIn × List U8)) : Prop
  | fails {j : BitIn} : r = .ok (false, j, out) → j.Ok p → Turned p cap L D lit dist n i out r
  | ends {j : BitIn} : r = .ok (true, j, out) → j.Ok p → j.bad = false → i.bad = false →
      Symbols L D (i.rem p) out (j.rem p) out → Turned p cap L D lit dist n i out r
  | goesOn {j : BitIn} {out₁ : List U8} : r = symbols p cap lit dist n j out₁ → j.Ok p →
      out₁.length ≤ cap → 0 < n → (j.bad = true ∨ (j.rem p).length < n) →
      (∀ s' out', j.bad = false → Symbols L D (j.rem p) out₁ s' out' →
        i.bad = false ∧ Symbols L D (i.rem p) out s' out') → Turned p cap L D lit dist n i out r

/-- The turn of a length code: the length, the distance, and the copy. -/
theorem turned_copy (ht : Tables L D lit dist) {n k : ℕ} {i i₁ : BitIn} {out : List U8}
    (hrun : lit.decode p i = .ok (some k, i₁)) (hi₁ : i₁.Ok p) (hbad : i₁.bad = false)
    (hgood : i.bad = false) (hcode : ReadsCode L (i.rem p) k (i₁.rem p)) (hlow : 257 ≤ k)
    (hhigh : k - 257 < 29) (hroom : (i₁.rem p).length < n) :
    Turned p cap L D lit dist n i out (symbols p cap lit dist (n + 1) i out) := by
  obtain ⟨⟨least, ln⟩, hlen⟩ : ∃ q, lengthCodes[k - 257]? = some q :=
    ⟨_, List.getElem?_eq_getElem (show k - 257 < lengthCodes.length from hhigh)⟩
  obtain ⟨hbase, hextra⟩ := lenTables hlen
  obtain ⟨e, i₂, htake, hi₂, -, he⟩ := BitIn.take_spec hi₁ ln
  obtain ⟨r, i₃, hrun₃, hi₃, hread₃⟩ := Huff.decode_spec ht.dist ht.dist_le hi₂
  rw [symbols]
  simp only [hrun, ok_bind, hbad, Bool.false_eq_true, if_false, show ¬ k < 256 by omega,
    show k ≠ 256 by omega, show ¬ 29 ≤ k - 257 by omega, get_of hbase, get_of hextra, htake, hrun₃]
  cases r with
  | none => exact .fails rfl hi₃
  | some d =>
      simp only
      by_cases hd : 30 ≤ d ∨ i₃.bad = true
      · rw [if_pos hd]
        exact .fails rfl hi₃
      · rw [if_neg hd]
        have hgood₃ : i₃.bad = false := by
          rw [← Bool.not_eq_true]
          exact fun h => hd (.inr h)
        obtain ⟨hgood₂, hdcode⟩ := hread₃ d rfl hgood₃
        obtain ⟨-, hereads⟩ := he hgood₂
        have hd30 : d < distanceCodes.length := by
          show d < 30
          omega
        obtain ⟨⟨dleast, dn⟩, hdist⟩ : ∃ q, distanceCodes[d]? = some q :=
          ⟨_, List.getElem?_eq_getElem hd30⟩
        obtain ⟨hdbase, hdextra⟩ := distTables hdist
        obtain ⟨f, i₄, htake₄, hi₄, -, hf⟩ := BitIn.take_spec hi₃ dn
        simp only [get_of hdbase, get_of hdextra, ok_bind, htake₄]
        -- a distance before the output's start, or a copy past the cap, ends the stream
        by_cases hback : out.length < dleast + f ∨ cap < out.length + (least + e)
        · rw [if_pos hback]
          exact .fails rfl hi₄
        · rw [if_neg hback]
          have hcopy := copy_spec out (dleast + f)
            (Nat.add_pos_left (dist_pos hdist) f) (by omega) (least + e) 0
          rw [copied_zero, Nat.zero_add] at hcopy
          simp only [hcopy, ok_bind]
          refine .goesOn rfl hi₄ (by rw [length_copied]; omega) (by omega) ?_ ?_
          -- the fuel: a turn that goes on has used up a bit, or has run past the end
          · cases hbad₄ : i₄.bad with
            | true => exact .inl rfl
            | false =>
                obtain ⟨-, hfreads⟩ := hf hbad₄
                have h₂ := Reads.length_le hereads
                have h₃ := ReadsCode.length_lt hdcode
                have h₄ := Reads.length_le hfreads
                exact .inr (by omega)
          · intro s' out' hgood₄ hrest
            obtain ⟨-, hfreads⟩ := hf hgood₄
            have hk : 257 + (k - 257) = k := by omega
            rw [← hk] at hcode
            exact ⟨hgood, .copy hcode hlen hereads hdcode hdist hfreads (by omega) hrest⟩

/-- Every turn of the loop. -/
theorem turned (ht : Tables L D lit dist) {n : ℕ} {i : BitIn} {out : List U8} (hi : i.Ok p)
    (hfuel : i.bad = true ∨ (i.rem p).length < n + 1) :
    Turned p cap L D lit dist n i out (symbols p cap lit dist (n + 1) i out) := by
  obtain ⟨r, i₁, hrun, hi₁, hread⟩ := Huff.decode_spec ht.lit ht.lit_le hi
  cases r with
  | none =>
      refine .fails (j := i₁) ?_ hi₁
      rw [symbols]
      simp only [hrun, ok_bind]
      rfl
  | some k =>
      cases hbad : i₁.bad with
      | true =>
          refine .fails (j := i₁) ?_ hi₁
          rw [symbols]
          simp only [hrun, ok_bind, hbad, if_true]
          rfl
      | false =>
          obtain ⟨hgood, hcode⟩ := hread k rfl hbad
          have hless := ReadsCode.length_lt hcode
          have hroom : (i₁.rem p).length < n := by
            rcases hfuel with hbad' | hlt
            · rw [hgood] at hbad'
              cases hbad'
            · omega
          -- the source's order of the symbol's ranges: literals, the end, the copies, the two
          -- unused codes
          by_cases hcopy : 257 ≤ k ∧ k - 257 < 29
          · exact turned_copy ht hrun hi₁ hbad hgood hcode hcopy.1 hcopy.2 hroom
          rw [symbols]
          simp only [hrun, ok_bind, hbad, Bool.false_eq_true, if_false]
          by_cases hlit : k < 256
          · rw [if_pos hlit]
            by_cases hfull : cap ≤ out.length
            · rw [if_pos hfull]
              exact .fails rfl hi₁
            · rw [if_neg hfull]
              refine .goesOn rfl hi₁ ?_ (by omega) (.inr hroom) ?_
              · rw [List.length_append, List.length_singleton]
                omega
              · exact fun s' out' _ hrest => ⟨hgood, .literal hcode hlit hrest⟩
          · rw [if_neg hlit]
            by_cases hend : k = 256
            · rw [if_pos hend]
              exact .ends rfl hi₁ hbad hgood (.stop (hend ▸ hcode))
            · rw [if_neg hend, if_pos (show 29 ≤ k - 257 by omega)]
              exact .fails rfl hi₁

/-- The loop ends within its budget, and in true only with what the string says. -/
theorem symbols_spec (ht : Tables L D lit dist) (n : ℕ) : ∀ {i : BitIn} (out : List U8),
    i.Ok p → 0 < n → (i.bad = true ∨ (i.rem p).length < n) → out.length ≤ cap →
    ∃ ok i' out', symbols p cap lit dist n i out = .ok (ok, i', out') ∧ i'.Ok p
      ∧ out'.length ≤ cap
      ∧ (ok = true → i'.bad = false ∧ i.bad = false ∧ Symbols L D (i.rem p) out (i'.rem p) out') := by
  induction n with
  | zero =>
      intro i out _ hn
      omega
  | succ n ih =>
      intro i out hi _ hfuel hout
      have hturned : Turned p cap L D lit dist n i out (symbols p cap lit dist (n + 1) i out) :=
        turned ht hi hfuel
      cases hturned with
      | fails hrun hj => exact ⟨false, _, out, hrun, hj, hout, fun h => Bool.noConfusion h⟩
      | ends hrun hj hbad hgood hsyms =>
          exact ⟨true, _, out, hrun, hj, hout, fun _ => ⟨hbad, hgood, hsyms⟩⟩
      | @goesOn j out₁ hrun hj hout₁ hn hfuel₁ hsaid =>
          obtain ⟨ok, i', out', hrun', hi', hout', hres⟩ := ih out₁ hj hn hfuel₁ hout₁
          refine ⟨ok, i', out', hrun.trans hrun', hi', hout', ?_⟩
          intro hok
          obtain ⟨hgood', hgood₁, hrest⟩ := hres hok
          obtain ⟨hgood, hsyms⟩ := hsaid _ _ hgood₁ hrest
          exact ⟨hgood', hgood, hsyms⟩

/-- The loop follows every reading of the string that fits. -/
theorem symbols_of_reads (ht : Tables L D lit dist) {out out' : List U8}
    (h : Symbols L D s out s' out') : ∀ {n : ℕ} {i : BitIn}, i.Ok p → i.bad = false →
    i.rem p = s → s.length < n → out'.length ≤ cap →
    ∃ i', symbols p cap lit dist n i out = .ok (true, i', out') ∧ i'.Ok p ∧ i'.bad = false
      ∧ i'.rem p = s' := by
  induction h with
  | stop h =>
      intro n i hi hgood hrem hfuel _
      rcases n with _ | n
      · omega
      · subst hrem
        obtain ⟨i₁, hrun, hi₁, hgood₁, hrem₁⟩ := Huff.decode_of_reads ht.lit ht.lit_le hi hgood h
        refine ⟨i₁, ?_, hi₁, hgood₁, hrem₁⟩
        rw [symbols]
        simp only [hrun, ok_bind, hgood₁, Bool.false_eq_true, if_false, if_true,
          show ¬ (256 : ℕ) < 256 by omega]
        rfl
  | @literal s s₁ s' out out' k h hk rest ih =>
      intro n i hi hgood hrem hfuel hcap
      rcases n with _ | n
      · omega
      · subst hrem
        obtain ⟨i₁, hrun, hi₁, hgood₁, hrem₁⟩ := Huff.decode_of_reads ht.lit ht.lit_le hi hgood h
        -- each symbol takes at least one bit, so the fuel left suffices for the bits left
        have hless := ReadsCode.length_lt h
        obtain ⟨i', hrun', hi', hgood', hrem'⟩ := ih (n := n) hi₁ hgood₁ hrem₁ (by omega) hcap
        have hroom := (Symbols.length_le rest).1
        rw [List.length_append, List.length_singleton] at hroom
        refine ⟨i', ?_, hi', hgood', hrem'⟩
        rw [symbols]
        simp only [hrun, ok_bind, hgood₁, Bool.false_eq_true, if_false, if_pos hk,
          show ¬ cap ≤ out.length by omega]
        exact hrun'
  | @copy s s₁ s₂ s₃ s₄ s' out out' j d least ln e dleast dn f hlen hj hextra hdist hd hdextra hback
      rest ih =>
      intro n i hi hgood hrem hfuel hcap
      rcases n with _ | n
      · omega
      · subst hrem
        obtain ⟨i₁, hrun, hi₁, hgood₁, rfl⟩ := Huff.decode_of_reads ht.lit ht.lit_le hi hgood hlen
        obtain ⟨i₂, htake, hi₂, hgood₂, rfl⟩ := BitIn.take_of_reads hi₁ hgood₁ hextra
        obtain ⟨i₃, hrun₃, hi₃, hgood₃, rfl⟩ :=
          Huff.decode_of_reads ht.dist ht.dist_le hi₂ hgood₂ hdist
        obtain ⟨i₄, htake₄, hi₄, hgood₄, hrem₄⟩ := BitIn.take_of_reads hi₃ hgood₃ hdextra
        have h₁ := ReadsCode.length_lt hlen
        have h₂ := Reads.length_le hextra
        have h₃ := ReadsCode.length_lt hdist
        have h₄ := Reads.length_le hdextra
        obtain ⟨i', hrun', hi', hgood', hrem'⟩ := ih (n := n) hi₄ hgood₄ hrem₄ (by omega) hcap
        have hroom := (Symbols.length_le rest).1
        rw [length_copied] at hroom
        obtain ⟨hbase, hlextra⟩ := lenTables hj
        obtain ⟨hdbase, hdextra'⟩ := distTables hd
        obtain ⟨hj29, -⟩ := List.getElem?_eq_some_iff.mp hj
        obtain ⟨hd30, -⟩ := List.getElem?_eq_some_iff.mp hd
        replace hj29 : j < 29 := hj29
        replace hd30 : d < 30 := hd30
        -- the copy runs one byte at a time, so a distance below the length repeats its own output
        have hcopy := copy_spec out (dleast + f) (Nat.add_pos_left (dist_pos hd) f) hback (least + e) 0
        rw [copied_zero, Nat.zero_add] at hcopy
        refine ⟨i', ?_, hi', hgood', hrem'⟩
        rw [symbols]
        simp only [hrun, ok_bind, hgood₁, Bool.false_eq_true, if_false,
          show ¬ 257 + j < 256 by omega, show 257 + j ≠ 256 by omega, Nat.add_sub_cancel_left,
          show ¬ 29 ≤ j by omega, get_of hbase, get_of hlextra, htake, hrun₃, hgood₃, or_false,
          show ¬ 30 ≤ d by omega, get_of hdbase, get_of hdextra', htake₄,
          show ¬ (out.length < dleast + f ∨ cap < out.length + (least + e)) by omega, hcopy]
        exact hrun'

end Symbols

/-! ## Stored blocks -/

/-- Two bytes are a number of 16 bits. -/
theorem reads_two (x y : U8) (q : List U8) :
    Reads 16 (bitsOf (x :: y :: q)) (x.toNat ||| (y.toNat <<< 8)) (bitsOf q) := by
  refine ⟨byteBits x ++ byteBits y, ?_, ?_, ?_⟩
  · rw [List.length_append, length_byteBits, length_byteBits]
  · have hx : x.toNat < 2 ^ 8 := x.isLt
    rw [ofBitsLE_append, ofBitsLE_byteBits, ofBitsLE_byteBits, length_byteBits, Nat.or_comm,
      ← Nat.shiftLeft_add_eq_or_of_lt hx, Nat.shiftLeft_eq]
    ring
  · rw [bitsOf_cons, bitsOf_cons, List.append_assoc]

/-- The complement of the length, as the stored block repeats it. -/
theorem xor_ones {n : ℕ} (h : n < 2 ^ 16) : n ^^^ 0xFFFF = 0xFFFF - n := by
  have hnot : BitVec.ofNat 16 n ^^^ BitVec.allOnes 16 = ~~~ BitVec.ofNat 16 n := BitVec.xor_allOnes
  have hval := congrArg BitVec.toNat hnot
  rw [BitVec.toNat_xor, BitVec.toNat_not, BitVec.toNat_ofNat, Nat.mod_eq_of_lt h,
    BitVec.toNat_allOnes] at hval
  exact hval

/-- The bytes of a stored block, read one by one. -/
theorem mapM_get {a : ℕ} (n : ℕ) (h : a + n ≤ p.length) :
    (List.range n).mapM (fun k => get p (a + k)) = .ok ((p.drop a).take n) := by
  induction n with
  | zero => rfl
  | succ n ih =>
      have hlt : a + n < p.length := by omega
      rw [List.range_succ, List.mapM_append, ih (by omega), ok_bind, List.mapM_cons,
        get_of (List.getElem?_eq_getElem hlt), List.take_add_one, List.getElem?_drop,
        List.getElem?_eq_getElem hlt]
      rfl

/-- The reader moved on to the next whole byte, and what is left there. -/
theorem BitIn.align_spec (hi : i.Ok p) : i.align.bad = i.bad ∧ i.align.bit = 0
    ∧ i.align.at_ ≤ p.length
    ∧ (i.rem p).drop ((i.rem p).length % 8) = bitsOf (p.drop i.align.at_) := by
  obtain ⟨hbit, hin⟩ := hi
  rw [BitIn.length_rem, BitIn.rem, List.drop_drop, ← drop_bitsOf]
  unfold BitIn.align
  split_ifs with hzero
  · refine ⟨rfl, rfl, ?_, ?_⟩
    · show i.at_ + 1 ≤ _
      omega
    · congr 1
      show _ = 8 * (i.at_ + 1)
      omega
  · refine ⟨rfl, by omega, by omega, ?_⟩
    congr 1
    omega

/-- At a whole byte what is left is the bits of the bytes left. -/
theorem BitIn.rem_moved (h : i.bit = 0) (a : ℕ) :
    BitIn.rem p { i with at_ := a } = bitsOf (p.drop a) := by
  rw [BitIn.rem, ← drop_bitsOf]
  show (bitsOf p).drop (8 * a + i.bit) = _
  rw [h, Nat.add_zero]

/-- The two bytes at `a`. -/
theorem reads_at {a : ℕ} (h : a + 2 ≤ p.length) : ∃ x y, get p a = .ok x ∧ get p (a + 1) = .ok y
    ∧ Reads 16 (bitsOf (p.drop a)) (x.toNat ||| (y.toNat <<< 8)) (bitsOf (p.drop (a + 2))) := by
  have h₀ : a < p.length := by omega
  have h₁ : a + 1 < p.length := by omega
  refine ⟨p[a], p[a + 1], get_of (List.getElem?_eq_getElem h₀), get_of (List.getElem?_eq_getElem h₁),
    ?_⟩
  rw [List.drop_eq_getElem_cons h₀, List.drop_eq_getElem_cons h₁]
  exact reads_two _ _ _

/-- A stored block, read. -/
theorem stored_spec (hi : i.Ok p) (hgood : i.bad = false) {out : List U8}
    (hout : out.length ≤ cap) :
    ∃ ok i' out', stored p cap i out = .ok (ok, i', out') ∧ i'.Ok p ∧ out'.length ≤ cap
      ∧ (ok = true → i'.bad = false ∧ Block accepted 0 (i.rem p) out (i'.rem p) out') := by
  obtain ⟨hbad, hbit, hat, hrem⟩ := BitIn.align_spec hi
  have hok : ∀ a, a ≤ p.length → BitIn.Ok p { i.align with at_ := a } := by
    intro a ha
    refine ⟨?_, ?_⟩
    · show i.align.bit < 8
      omega
    · show a < p.length ∨ a = p.length ∧ i.align.bit = 0
      omega
  rw [stored]
  by_cases hshort : p.length < i.align.at_ + 4
  · rw [if_pos hshort]
    exact ⟨false, i.align, out, rfl, hok _ hat, hout, fun h => Bool.noConfusion h⟩
  · rw [if_neg hshort]
    obtain ⟨x, y, hx, hy, hlen⟩ := reads_at (p := p) (a := i.align.at_) (by omega)
    obtain ⟨z, w, hz, hw, hnlen⟩ := reads_at (p := p) (a := i.align.at_ + 2) (by omega)
    simp only [hx, hy, hz, hw, ok_bind]
    set len := x.toNat ||| (y.toNat <<< 8)
    set nlen := z.toNat ||| (w.toNat <<< 8)
    have hlt : len < 2 ^ 16 := hlen.lt
    rw [xor_ones hlt]
    -- the complement, the bytes that are there and the room are tested before any is copied
    by_cases hstop : 0xFFFF - len ≠ nlen ∨ p.length < i.align.at_ + 4 + len
        ∨ cap < out.length + len
    · rw [if_pos hstop]
      exact ⟨false, _, out, rfl, hok _ (by omega), hout, fun h => Bool.noConfusion h⟩
    · rw [if_neg hstop, mapM_get len (by omega), ok_bind]
      have hcount : ((p.drop (i.align.at_ + 4)).take len).length = len := by
        rw [List.length_take, List.length_drop]
        omega
      refine ⟨true, { i.align with at_ := i.align.at_ + 4 + len }, _, rfl, hok _ (by omega), ?_, ?_⟩
      · rw [List.length_append, hcount]
        omega
      · intro _
        refine ⟨hbad.trans hgood, .stored ?_ hnlen ?_ ?_⟩
        · rw [hrem, hcount]
          exact hlen
        · rw [hcount]
          omega
        · rw [BitIn.rem_moved hbit,
            ← bitsOf_append]
          show bitsOf (p.drop (i.align.at_ + 4)) = _
          congr 1
          show _ = _ ++ p.drop (i.align.at_ + 4 + len)
          have hdrop : p.drop (i.align.at_ + 4 + len) = (p.drop (i.align.at_ + 4)).drop len :=
            List.drop_drop.symm
          rw [hdrop, List.take_append_drop]

/-- Every stored block that fits is read. -/
theorem stored_of_block (hi : i.Ok p) (hgood : i.bad = false) {R : Rules} {out out' : List U8}
    (h : Block R 0 (i.rem p) out s' out') (hcap : out'.length ≤ cap) :
    ∃ i', stored p cap i out = .ok (true, i', out') ∧ i'.Ok p ∧ i'.bad = false
      ∧ i'.rem p = s' := by
  obtain ⟨hbad, hbit, hat, hrem⟩ := BitIn.align_spec hi
  cases h with
  | @stored _ s₁ s₂ _ _ bytes nlen hlen hnlen hcheck hbytes =>
      rw [hrem] at hlen
      have hroom := hlen.length
      have hroom₁ := hnlen.length
      rw [length_bitsOf, List.length_drop] at hroom
      obtain ⟨x, y, hx, hy, hlen'⟩ := reads_at (p := p) (a := i.align.at_) (by omega)
      obtain ⟨hcount, rfl⟩ := hlen'.det hlen
      obtain ⟨z, w, hz, hw, hnlen'⟩ := reads_at (p := p) (a := i.align.at_ + 2) (by omega)
      obtain ⟨hncount, rfl⟩ := hnlen'.det hnlen
      obtain ⟨htake, hle, hrest⟩ := bitsOf_append_eq hbytes.symm
      rw [List.length_drop] at hle
      rw [List.length_append] at hcap
      have hlt : bytes.length < 2 ^ 16 := hlen.lt
      refine ⟨{ i.align with at_ := i.align.at_ + 4 + bytes.length }, ?_, ?_, hbad.trans hgood, ?_⟩
      · rw [stored, if_neg (by omega)]
        simp only [hx, hy, hz, hw, ok_bind, hcount, hncount]
        rw [xor_ones hlt, if_neg (by omega), mapM_get _ (by omega), ok_bind]
        show Except.ok (true, _, out ++ (p.drop (i.align.at_ + 2 + 2)).take bytes.length) = _
        rw [← htake]
      · refine ⟨?_, ?_⟩
        · show i.align.bit < 8
          omega
        · show i.align.at_ + 4 + bytes.length < p.length
            ∨ i.align.at_ + 4 + bytes.length = p.length ∧ i.align.bit = 0
          omega
      · rw [BitIn.rem_moved hbit, hrest,
          List.drop_drop]

/-! ## Blocks -/

/-- The two distance symbols beyond 29 of the fixed code are in no stream, so a table of 30 reads
the same. -/
theorem symbols_fixed {out out' : List U8} :
    Symbols fixedLit (List.replicate 30 5) s out s' out'
      ↔ Symbols fixedLit fixedDist s out s' out' := by
  constructor
  · exact Symbols.imp fun s k s' _ h => (readsCode_fixedDist.mp h).2
  · exact Symbols.imp fun s k s' hk h => readsCode_fixedDist.mpr ⟨hk, h⟩

/-- The fixed tables are filled, and hold the fixed codes. -/
theorem fixedTables_tables : ∃ lit dist, fixedTables = .ok (some (lit, dist))
    ∧ Tables fixedLit (List.replicate 30 5) lit dist := by
  obtain ⟨lit, dist, hrun, hlit, hdist⟩ := fixedTables_spec
  refine ⟨lit, dist, hrun, hlit, hdist, ?_, ?_⟩
  · simp only [fixedLit, List.length_append, List.length_replicate]
    omega
  · rw [List.length_replicate]
    omega

/-- One more than the bits of the string is budget enough from everywhere in it. -/
theorem rem_fuel (i : BitIn) : (i.rem p).length < 8 * p.length + 1 := by
  rw [BitIn.length_rem]
  omega

/-- A block of any type, read. -/
theorem block_spec {t : ℕ} (hi : i.Ok p) (hgood : i.bad = false) {out : List U8}
    (hout : out.length ≤ cap) :
    ∃ ok i' out', block p cap t i out = .ok (ok, i', out') ∧ i'.Ok p ∧ out'.length ≤ cap
      ∧ (ok = true → i'.bad = false ∧ Block accepted t (i.rem p) out (i'.rem p) out') := by
  rw [block]
  by_cases hstored : t = 0
  · rw [if_pos hstored, hstored]
    exact stored_spec hi hgood hout
  · rw [if_neg hstored]
    by_cases hfixed : t = 1
    · obtain ⟨lit, dist, hrun, ht⟩ := fixedTables_tables
      obtain ⟨ok, i', out', hrun', hi', hout', hres⟩ := symbols_spec ht (8 * p.length + 1) out hi
        (by omega) (.inr (rem_fuel i)) hout
      rw [if_pos (.inl hfixed), if_pos hfixed]
      refine ⟨ok, i', out', ?_, hi', hout', ?_⟩
      · simp only [hrun, ok_bind]
        exact hrun'
      · intro hok
        obtain ⟨hgood', -, hsyms⟩ := hres hok
        rw [hfixed]
        exact ⟨hgood', .fixed (symbols_fixed.mp hsyms)⟩
    · by_cases hdyn : t = 2
      · rw [if_pos (.inr hdyn), if_neg hfixed]
        obtain ⟨r, i₁, hrun, hi₁, htables⟩ := dynamicTables_spec hi
        simp only [hrun, ok_bind]
        cases r with
        | none => exact ⟨false, i₁, out, rfl, hi₁, hout, fun h => Bool.noConfusion h⟩
        | some tables =>
            obtain ⟨lit, dist⟩ := tables
            obtain ⟨L, D, ht, hhead⟩ := htables lit dist rfl
            obtain ⟨ok, i', out', hrun', hi', hout', hres⟩ := symbols_spec ht (8 * p.length + 1) out hi₁
              (by omega) (.inr (rem_fuel i₁)) hout
            refine ⟨ok, i', out', hrun', hi', hout', ?_⟩
            intro hok
            obtain ⟨hgood', hgood₁, hsyms⟩ := hres hok
            rw [hdyn]
            exact ⟨hgood', .dynamic (hhead hgood₁).2 hsyms⟩
      · rw [if_neg (by omega)]
        exact ⟨false, i, out, rfl, hi, hout, fun h => Bool.noConfusion h⟩

/-- Every block that fits is read. -/
theorem block_of_block {t : ℕ} (hi : i.Ok p) (hgood : i.bad = false) {out out' : List U8}
    (h : Block accepted t (i.rem p) out s' out') (hcap : out'.length ≤ cap) :
    ∃ i', block p cap t i out = .ok (true, i', out') ∧ i'.Ok p ∧ i'.bad = false
      ∧ i'.rem p = s' := by
  rw [block]
  cases h with
  | stored hlen hnlen hcheck hbytes =>
      rw [if_pos rfl]
      exact stored_of_block (R := accepted) hi hgood (.stored hlen hnlen hcheck hbytes) hcap
  | fixed h =>
      obtain ⟨lit, dist, hrun, ht⟩ := fixedTables_tables
      rw [if_neg (by omega), if_pos (.inl rfl), if_pos rfl]
      simp only [hrun, ok_bind]
      exact symbols_of_reads ht (symbols_fixed.mpr h) hi hgood rfl (rem_fuel i) hcap
  | dynamic hhead h =>
      obtain ⟨lit, dist, i₁, hrun, ht, hi₁, hgood₁, rfl⟩ := dynamicTables_of_header hi hgood hhead
      rw [if_neg (by omega), if_pos (.inr rfl), if_neg (by omega), hrun, ok_bind]
      exact symbols_of_reads ht h hi₁ hgood₁ rfl (rem_fuel i₁) hcap

/-! ## Streams -/

/-- The reader starts inside its string. -/
theorem BitIn.ok_start (p : List U8) : BitIn.Ok p {} := by
  refine ⟨by show 0 < 8; omega, ?_⟩
  show 0 < p.length ∨ 0 = p.length ∧ (0 : ℕ) = 0
  omega


/-- The blocks up to the last. -/
theorem blocks_spec (n : ℕ) : ∀ {i : BitIn} {out : List U8}, i.Ok p → i.bad = false →
    (i.rem p).length < n → out.length ≤ cap →
    ∃ ok out', blocks p cap n i out = .ok (ok, out') ∧ out'.length ≤ cap
      ∧ (ok = true → ∃ s', Stream accepted (i.rem p) out s' out') := by
  induction n with
  | zero =>
      intro i out _ _ hfuel
      omega
  | succ n ih =>
      intro i out hi hgood hfuel hout
      obtain ⟨fin, i₁, htake₁, hi₁, hfin_lt, hread₁⟩ := BitIn.take_spec hi 1
      obtain ⟨t, i₂, htake₂, hi₂, -, hread₂⟩ := BitIn.take_spec hi₁ 2
      rw [blocks]
      simp only [htake₁, htake₂, ok_bind]
      cases hbad : i₂.bad with
      | true => exact ⟨false, out, rfl, hout, fun h => Bool.noConfusion h⟩
      | false =>
          obtain ⟨hgood₁, ht⟩ := hread₂ hbad
          obtain ⟨-, hfin⟩ := hread₁ hgood₁
          rw [if_neg Bool.false_ne_true]
          obtain ⟨ok, i₃, out₁, hrun, hi₃, hout₁, hres⟩ := block_spec (t := t) hi₂ hbad hout
          simp only [hrun, ok_bind]
          cases ok with
          | false => exact ⟨false, out₁, rfl, hout₁, fun h => Bool.noConfusion h⟩
          | true =>
              obtain ⟨hgood₃, hblock⟩ := hres rfl
              rw [if_neg (by simp)]
              by_cases hlast : fin = 0
              · rw [if_neg (not_not.mpr hlast)]
                have h₁ := hfin.length
                have h₂ := ht.length
                have h₃ := hblock.length_le.2
                obtain ⟨ok, out', hrun', hout', hstream⟩ := ih hi₃ hgood₃ (by omega) hout₁
                refine ⟨ok, out', hrun', hout', ?_⟩
                intro hok
                obtain ⟨s', hrest⟩ := hstream hok
                rw [hlast] at hfin
                exact ⟨s', .more hfin ht hblock hrest⟩
              · rw [if_pos hlast, hgood₃]
                obtain rfl : fin = 1 := by omega
                exact ⟨true, out₁, rfl, hout₁, fun _ => ⟨i₃.rem p, .last hfin ht hblock⟩⟩

/-- Every stream that fits is read. -/
theorem blocks_of_stream {out out' : List U8} (h : Stream accepted s out s' out') :
    ∀ {n : ℕ} {i : BitIn}, i.Ok p → i.bad = false → i.rem p = s → s.length < n →
    out'.length ≤ cap → blocks p cap n i out = .ok (true, out') := by
  induction h with
  | last hfin ht hblock =>
      intro n i hi hgood hrem hfuel hcap
      rcases n with _ | n
      · omega
      · subst hrem
        obtain ⟨i₁, htake₁, hi₁, hgood₁, rfl⟩ := BitIn.take_of_reads hi hgood hfin
        obtain ⟨i₂, htake₂, hi₂, hgood₂, rfl⟩ := BitIn.take_of_reads hi₁ hgood₁ ht
        obtain ⟨i₃, hrun, hi₃, hgood₃, -⟩ := block_of_block hi₂ hgood₂ hblock hcap
        rw [blocks]
        simp only [htake₁, htake₂, ok_bind, hgood₂, Bool.false_eq_true, if_false, hrun,
          Bool.not_true, hgood₃, Bool.not_false]
        rfl
  | more hfin ht hblock rest ih =>
      intro n i hi hgood hrem hfuel hcap
      rcases n with _ | n
      · omega
      · subst hrem
        have hroom := rest.length_le.1
        obtain ⟨i₁, htake₁, hi₁, hgood₁, rfl⟩ := BitIn.take_of_reads hi hgood hfin
        obtain ⟨i₂, htake₂, hi₂, hgood₂, rfl⟩ := BitIn.take_of_reads hi₁ hgood₁ ht
        obtain ⟨i₃, hrun, hi₃, hgood₃, hrem₃⟩ :=
          block_of_block hi₂ hgood₂ hblock (show _ ≤ cap by omega)
        have h₁ := hfin.length
        have h₂ := ht.length
        have h₃ := hblock.length_le.2
        rw [blocks]
        simp only [htake₁, htake₂, ok_bind, hgood₂, Bool.false_eq_true, if_false, hrun,
          Bool.not_true, ne_eq, not_true_eq_false]
        exact ih hi₃ hgood₃ hrem₃ (by omega) hcap

/-- What says `q` is read, if it fits. -/
theorem inflateRaw_of_decodes {src q : List U8} (hq : q.length ≤ cap)
    (h : Decodes accepted src q) : inflateRaw src cap = .ok (true, q) := by
  have hi : BitIn.Ok src {} := BitIn.ok_start src
  have hrem : BitIn.rem src {} = bitsOf src := rfl
  obtain ⟨s', hstream⟩ := h
  exact blocks_of_stream hstream hi rfl hrem (by rw [length_bitsOf]; omega) hq

/-- `inflateRaw` ends within its budget and its arrays, writes no more than `cap` bytes,
and is true of exactly the streams of `accepted` that fit. Those are all that the format
allows, with complete codes and no more than 30 distance codes. -/
theorem inflateRaw_spec (src : List U8) (cap : ℕ) :
    (∃ ok out, inflateRaw src cap = .ok (ok, out) ∧ out.length ≤ cap)
    ∧ (∀ q, inflateRaw src cap = .ok (true, q) ↔ q.length ≤ cap ∧ Decodes accepted src q)
    ∧ ∀ q, q.length ≤ cap → Decodes { rfc1951 with maxDist := 30 } src q
      → inflateRaw src cap = .ok (true, q) := by
  obtain ⟨ok, out, hrun, hout, hres⟩ := blocks_spec (p := src) (8 * src.length + 1)
    (BitIn.ok_start src) rfl (rem_fuel _) (show ([] : List U8).length ≤ cap from Nat.zero_le _)
  refine ⟨⟨ok, out, hrun, hout⟩, ?_, ?_⟩
  · intro q
    constructor
    · intro htrue
      have heq : (Except.ok (ok, out) : Checked (Bool × List U8)) = .ok (true, q) :=
        hrun.symm.trans htrue
      injection heq with heq
      injection heq with hok hq
      subst hq
      exact ⟨hout, hres hok⟩
    · rintro ⟨hq, hdec⟩
      exact inflateRaw_of_decodes hq hdec
  · intro q hq hdec
    have hle : Rules.Le { rfc1951 with maxDist := 30 } accepted :=
      ⟨le_rfl, fun hcut => Bool.noConfusion hcut, fun lens hcomplete => hcomplete.fits⟩
    exact inflateRaw_of_decodes hq (hdec.mono hle)

/-! ## A distance code that is refused -/

/-- A dynamic block that gives 31 distance codes, the last 29 of them unused, and says a
single zero. -/
def manyDist : List U8 := [5, 222, 129, 0, 0, 0, 0, 0, 16, 255, 213, 40, 17]

/-- Lengths fit when no length has more words than there is room for. -/
theorem fits_of_short {lens : List ℕ} (hshort : ∀ x ∈ lens, x < 16)
    (h : ∀ l < 16, first lens l + words lens l ≤ 2 ^ l) : Fits lens := by
  rw [fits_iff hshort]
  intro l _ hlt
  exact h l hlt

set_option maxRecDepth 4000 in
/-- The format allows it. -/
theorem manyDist_decodes : Decodes rfc1951 manyDist [0#8] := by
  -- the code length code has two words, for length 1 and for symbol 18
  have hone : IsCode [0, 1, 0, 0, 0, 0, 0, 0, 0, 0, 0, 0, 0, 0, 0, 0, 0, 0, 1] 1 [false] :=
    ⟨by decide, by decide, by decide⟩
  have hzeros : IsCode [0, 1, 0, 0, 0, 0, 0, 0, 0, 0, 0, 0, 0, 0, 0, 0, 0, 0, 1] 18 [true] :=
    ⟨by decide, by decide, by decide⟩
  -- all the lengths, the 257 of the literals first
  obtain ⟨lens, hlens⟩ : ∃ lens, lens
      = (1 :: List.replicate 255 0 ++ [1]) ++ 1 :: 1 :: List.replicate 29 0 := ⟨_, rfl⟩
  have hlit : lens.take 257 = 1 :: List.replicate 255 0 ++ [1] := by
    rw [hlens]
    exact List.take_left' (by decide)
  have hdist : lens.drop 257 = 1 :: 1 :: List.replicate 29 0 := by
    rw [hlens]
    exact List.drop_left' (by decide)
  have hlengths : Lengths rfc1951
      [0, 1, 0, 0, 0, 0, 0, 0, 0, 0, 0, 0, 0, 0, 0, 0, 0, 0, 1] 288 ((bitsOf manyDist).drop 71) []
      ((bitsOf manyDist).drop 99) lens := by
    have hstop : ∀ {acc : List ℕ}, acc = lens → Lengths rfc1951
        [0, 1, 0, 0, 0, 0, 0, 0, 0, 0, 0, 0, 0, 0, 0, 0, 0, 0, 1] 288
        ((bitsOf manyDist).drop 99) acc ((bitsOf manyDist).drop 99) lens := by
      rintro acc rfl
      rw [hlens]
      exact .done (by decide)
    refine .one (by decide) (readsCode_take hone (by decide)) (by decide) ?_
    refine .again (by decide) (readsCode_take hzeros (by decide)) rfl
      (reads_take (by decide)) (fun _ => by decide) ?_
    refine .again (by decide) (readsCode_take hzeros (by decide)) rfl
      (reads_take (by decide)) (fun _ => by decide) ?_
    refine .one (by decide) (readsCode_take hone (by decide)) (by decide) ?_
    refine .one (by decide) (readsCode_take hone (by decide)) (by decide) ?_
    refine .one (by decide) (readsCode_take hone (by decide)) (by decide) ?_
    refine .again (by decide) (readsCode_take hzeros (by decide)) rfl
      (reads_take (by decide)) (fun _ => by decide) ?_
    refine hstop ?_
    rw [hlens]
    decide
  have hplaced : placed ((List.range 18).map fun k =>
      ofBitsLE (((bitsOf manyDist).drop (17 + 3 * k)).take 3))
      = [0, 1, 0, 0, 0, 0, 0, 0, 0, 0, 0, 0, 0, 0, 0, 0, 0, 0, 1] := by decide
  have hcomplete : ∀ {ls : List ℕ}, (∀ x ∈ ls, x < 16) → (∀ l < 16, first ls l + words ls l ≤ 2 ^ l) →
      first ls 1 + words ls 1 = 2 → Complete ls := by
    intro ls hshort hall hfull
    exact ⟨fits_of_short hshort hall, 1, hfull⟩
  have hheader : Header rfc1951 ((bitsOf manyDist).drop 3) (lens.take 257) (lens.drop 257)
      ((bitsOf manyDist).drop 99) := by
    refine .intro (reads_take (by decide)) (reads_take (by decide))
      (reads_take (by decide)) (by decide) (by decide)
      (by decide) (readsEach_take 18 (by decide)) ?_ ?_ ?_ ?_
    · rw [hplaced]
      exact hcomplete (by decide) (by decide) (by decide)
    · rw [hplaced]
      exact hlengths
    · show Complete (lens.take 257)
      rw [hlit]
      exact hcomplete (by decide) (by decide) (by decide)
    · show Complete (lens.drop 257)
      rw [hdist]
      exact hcomplete (by decide) (by decide) (by decide)
  have hsymbols : Symbols (lens.take 257) (lens.drop 257) ((bitsOf manyDist).drop 99) []
      ((bitsOf manyDist).drop 101) [0#8] := by
    rw [hlit]
    have hzero : IsCode (1 :: List.replicate 255 0 ++ [1]) 0 [false] :=
      ⟨by decide, by decide, by decide⟩
    have hend : IsCode (1 :: List.replicate 255 0 ++ [1]) 256 [true] :=
      ⟨by decide, by decide, by decide⟩
    refine .literal (readsCode_take hzero (by decide)) (by decide) ?_
    exact .stop (readsCode_take hend (by decide))
  exact ⟨_, .last (reads_take (S := bitsOf manyDist) (a := 0) (by decide))
    (reads_take (by decide)) (.dynamic hheader hsymbols)⟩

/-! ## A repeat that is cut off -/

/-- A dynamic block whose last code length is repeated three times where one is left. -/
def longRepeat : List U8 := [5, 192, 133, 0, 0, 0, 0, 0, 32, 127, 235, 6]

section LongRepeat

/-- The lengths of its code length code. -/
def repeatCl : List ℕ := [0, 2, 0, 0, 0, 0, 0, 0, 0, 0, 0, 0, 0, 0, 0, 0, 2, 0, 1]

theorem repeatCl_one : IsCode repeatCl 1 [true, false] := ⟨by decide, by decide, by decide⟩

theorem repeatCl_again : IsCode repeatCl 16 [true, true] := ⟨by decide, by decide, by decide⟩

theorem repeatCl_zeros : IsCode repeatCl 18 [false] := ⟨by decide, by decide, by decide⟩

theorem longRepeat_placed : placed ((List.range 18).map fun k =>
    ofBitsLE (((bitsOf longRepeat).drop (17 + 3 * k)).take 3)) = repeatCl := by decide

set_option maxRecDepth 4000 in
/-- With repeats that must end in time its lengths are none. -/
theorem longRepeat_not_header {L D : List ℕ} :
    ¬ Header ⟨32, false, Fits⟩ ((bitsOf longRepeat).drop 3) L D s' := by
  intro h
  cases h with
  | intro h₁ h₂ h₃ _ _ hcount h₄ _ h₅ _ _ =>
      obtain ⟨rfl, rfl⟩ := h₁.det (show Reads 5 _ 0 _ from reads_take (by decide))
      obtain ⟨rfl, rfl⟩ := h₂.det (show Reads 5 _ 0 _ from reads_take (by decide))
      obtain ⟨rfl, rfl⟩ := h₃.det (show Reads 4 _ 14 _ from reads_take (by decide))
      obtain ⟨rfl, rfl⟩ := h₄.det (readsEach_take 18 (by decide)) hcount
      rw [longRepeat_placed] at h₅
      have h₆ := (h₅.of_again (by decide) (readsCode_take repeatCl_zeros (by decide)) rfl
        (reads_take (by decide))).2
      have h₇ := (h₆.of_again (by decide) (readsCode_take repeatCl_zeros (by decide))
        rfl (reads_take (by decide))).2
      have h₈ := h₇.of_one (by decide) (readsCode_take repeatCl_one (by decide))
        (by decide)
      have hfit := (h₈.of_again (by decide)
        (readsCode_take repeatCl_again (by decide)) rfl (reads_take (by decide))).1 rfl
      exact absurd hfit (by decide)

theorem longRepeat_final :
    Reads 1 (bitsOf longRepeat) 1 ((bitsOf longRepeat).drop 1) :=
  reads_take (S := bitsOf longRepeat) (a := 0) (by decide)

theorem longRepeat_type :
    Reads 2 ((bitsOf longRepeat).drop 1) 2 ((bitsOf longRepeat).drop 3) :=
  reads_take (by decide)

/-- So it says nothing. -/
theorem longRepeat_not_decodes (q : List U8) : ¬ Decodes ⟨32, false, Fits⟩ longRepeat q := by
  rintro ⟨s', hstream⟩
  cases hstream with
  | more hfin _ _ _ => exact absurd (hfin.det longRepeat_final).1 (by decide)
  | last hfin ht hblock =>
      obtain ⟨-, rfl⟩ := hfin.det longRepeat_final
      obtain ⟨rfl, rfl⟩ := ht.det longRepeat_type
      cases hblock with
      | dynamic h _ => exact longRepeat_not_header h

set_option maxRecDepth 4000 in
/-- Cut off, the lengths are 256 zeros, one for the end of the block and one for the
distances. -/
theorem longRepeat_decodes : Decodes accepted longRepeat [] := by
  obtain ⟨lens, hlens⟩ : ∃ lens, lens = (List.replicate 256 0 ++ [1]) ++ [1] := ⟨_, rfl⟩
  have hlit : lens.take 257 = List.replicate 256 0 ++ [1] := by
    rw [hlens]
    exact List.take_left' (by decide)
  have hdist : lens.drop 257 = [1] := by
    rw [hlens]
    exact List.drop_left' (by decide)
  have hstop : ∀ {acc : List ℕ}, acc = lens → Lengths accepted repeatCl 258
      ((bitsOf longRepeat).drop 93) acc ((bitsOf longRepeat).drop 93) lens := by
    rintro acc rfl
    rw [hlens]
    exact .done (by decide)
  have hlengths : Lengths accepted repeatCl 258 ((bitsOf longRepeat).drop 71) []
      ((bitsOf longRepeat).drop 93) lens := by
    refine .again (by decide) (readsCode_take repeatCl_zeros (by decide)) rfl
      (reads_take (by decide)) (fun h => Bool.noConfusion h) ?_
    refine .again (by decide) (readsCode_take repeatCl_zeros (by decide)) rfl
      (reads_take (by decide)) (fun h => Bool.noConfusion h) ?_
    refine .one (by decide) (readsCode_take repeatCl_one (by decide)) (by decide) ?_
    -- the last repeat asks for more than the 258 lengths there are, and is cut off
    refine .again (by decide) (readsCode_take repeatCl_again (by decide)) rfl
      (reads_take (by decide)) (fun h => Bool.noConfusion h) ?_
    refine hstop ?_
    rw [hlens]
    decide
  have hheader : Header accepted ((bitsOf longRepeat).drop 3) (lens.take 257) (lens.drop 257)
      ((bitsOf longRepeat).drop 93) := by
    refine .intro (reads_take (by decide)) (reads_take (by decide))
      (reads_take (by decide)) (by decide) (by decide)
      (by decide) (readsEach_take 18 (by decide)) ?_ ?_ ?_ ?_
    · rw [longRepeat_placed]
      exact fits_of_short (by decide) (by decide)
    · rw [longRepeat_placed]
      exact hlengths
    · show Fits (lens.take 257)
      rw [hlit]
      exact fits_of_short (by decide) (by decide)
    · show Fits (lens.drop 257)
      rw [hdist]
      exact fits_of_short (by decide) (by decide)
  have hend : IsCode (List.replicate 256 0 ++ [1]) 256 [false] :=
    ⟨by decide, by decide, by decide⟩
  have hsymbols : Symbols (lens.take 257) (lens.drop 257) ((bitsOf longRepeat).drop 93) []
      ((bitsOf longRepeat).drop 94) [] := by
    rw [hlit]
    exact .stop (readsCode_take hend (by decide))
  exact ⟨_, .last longRepeat_final longRepeat_type (.dynamic hheader hsymbols)⟩

end LongRepeat

set_option maxRecDepth 4000 in
/-- The two ways in which the format and `inflateRaw` differ: it reads no block with more
than 30 distance codes, and it reads a block whose lengths run over. -/
theorem inflateRaw_differs :
    (¬ ∀ (src : List U8) (cap : ℕ) (q : List U8), q.length ≤ cap → Decodes rfc1951 src q
      → inflateRaw src cap = .ok (true, q))
    ∧ ¬ ∀ (src : List U8) (cap : ℕ) (q : List U8), inflateRaw src cap = .ok (true, q)
      → ∃ q', Decodes ⟨32, false, Fits⟩ src q' := by
  constructor
  · intro h
    have htrue := h manyDist 1 [0#8] (by decide) manyDist_decodes
    have hfalse : inflateRaw manyDist 1 = .ok (false, []) := by decide
    rw [hfalse] at htrue
    injection htrue with htrue
    injection htrue with htrue _
    cases htrue
  · intro h
    have htrue : inflateRaw longRepeat 0 = .ok (true, []) :=
      inflateRaw_of_decodes le_rfl longRepeat_decodes
    obtain ⟨q, hq⟩ := h longRepeat 0 [] htrue
    exact longRepeat_not_decodes q hq

end Inflate

end OpenPowerMac
