/-
The two codes of a block: the fixed ones, and those that a dynamic block begins with.

The head of a dynamic block is read as the format says, but for two things. The code
takes at most 30 distance codes, and it cuts a repeat off at the last length instead
of refusing it. `accepted` are the rules with these two, for any code that is not
over-subscribed.
-/
import OpenPowerMac.InflateBits

set_option autoImplicit false

namespace OpenPowerMac

namespace Inflate

open Deflate CanonicalCode

/-- What `inflateRaw` takes. -/
def accepted : Rules := ⟨30, true, Fits⟩

variable {p : List U8} {i : BitIn} {s s' : List Bool}

/-! ## The fixed codes -/

theorem mem_fixedLit {x : ℕ} (h : x ∈ fixedLit) : x < 16 := by
  simp only [fixedLit, List.mem_append, List.mem_replicate] at h
  omega

theorem fits_fixedLit : Fits fixedLit := by
  rw [fits_iff fun x hx => mem_fixedLit hx]
  have hall : ∀ l < 16, first fixedLit l + words fixedLit l ≤ 2 ^ l := by decide +kernel
  intro l _ hlt
  exact hall l hlt

/-- The code leaves the two distance symbols out that say nothing. -/
theorem fits_fixedDist : Fits (List.replicate 30 5) := by
  have hshort : ∀ x ∈ List.replicate 30 5, x < 16 := by
    intro x hx
    rw [List.eq_of_mem_replicate hx]
    omega
  rw [fits_iff hshort]
  have hall : ∀ l < 16, first (List.replicate 30 5) l + words (List.replicate 30 5) l ≤ 2 ^ l := by
    decide +kernel
  intro l _ hlt
  exact hall l hlt

theorem readsCode_fixedDist {k : ℕ} :
    ReadsCode (List.replicate 30 5) s k s' ↔ k < 30 ∧ ReadsCode fixedDist s k s' := by
  have hfirst : first (List.replicate 30 5) 5 = first fixedDist 5 := by decide
  have hrank : ∀ k < 30, rank (List.replicate 30 5) k 5 = rank fixedDist k 5 := by decide
  constructor
  · rintro ⟨w, ⟨hpos, hsym, hval⟩, hs⟩
    obtain ⟨hk, hlen⟩ := List.getElem?_eq_some_iff.mp hsym
    rw [List.length_replicate] at hk
    rw [List.getElem_replicate] at hlen
    refine ⟨hk, w, ⟨hpos, ?_, ?_⟩, hs⟩
    · rw [fixedDist, List.getElem?_replicate, if_pos (by omega), hlen]
    · rw [← hlen] at hval ⊢
      rw [hval, hfirst, hrank k hk]
  · rintro ⟨hk, w, ⟨hpos, hsym, hval⟩, hs⟩
    rw [fixedDist, List.getElem?_replicate, if_pos (by omega)] at hsym
    injection hsym with hlen
    refine ⟨w, ⟨hpos, ?_, ?_⟩, hs⟩
    · rw [List.getElem?_replicate, if_pos hk, hlen]
    · rw [← hlen] at hval ⊢
      rw [hval, hfirst, hrank k hk]

theorem fixedTables_spec : ∃ lit dist, fixedTables = .ok (some (lit, dist))
    ∧ Table fixedLit lit ∧ Table (List.replicate 30 5) dist := by
  have hlength : fixedLens.length = 288 := by
    simp only [fixedLens, List.length_append, List.length_replicate]
  have hlit : fixedLens.take 288 = fixedLit := List.take_of_length_le hlength.le
  have hdist : (List.replicate 30 5).take 30 = List.replicate 30 5 := rfl
  obtain ⟨r, hrun, hnone, hsome⟩ := Huff.build_spec fixedLens 288 hlength.ge
    (by omega) (by rw [hlit]; exact fun x hx => mem_fixedLit hx)
  obtain ⟨r', hrun', hnone', hsome'⟩ := Huff.build_spec (List.replicate 30 5) 30
    (by decide) (by omega) (by rw [hdist]; decide)
  rw [hlit] at hnone hsome
  rw [hdist] at hnone' hsome'
  cases r with
  | none => exact absurd fits_fixedLit (hnone rfl)
  | some lit =>
      cases r' with
      | none => exact absurd fits_fixedDist (hnone' rfl)
      | some dist =>
          refine ⟨lit, dist, ?_, (hsome lit rfl).2, (hsome' dist rfl).2⟩
          rw [fixedTables, hrun, ok_bind]
          show (Huff.build (List.replicate 30 5) 30 >>= _) = _
          rw [hrun']
          rfl

/-! ## The code length code -/

theorem kClOrder_lt : ∀ o ∈ kClOrder, o < 19 := by decide

/-- What `clLens` has read behind `k` of the lengths. -/
structure ClRead (p : List U8) (i₀ : BitIn) (k : ℕ) (cl : List ℕ) (i : BitIn) : Prop where
  ok : i.Ok p
  length : cl.length = 19
  short : ∀ x ∈ cl, x < 16
  reads : i.bad = false → i₀.bad = false
    ∧ ∃ vs, vs.length = k ∧ ReadsEach 3 (i₀.rem p) vs (i.rem p) ∧ cl = placed vs

/-- One code length code length. -/
def clStep (p : List U8) (s : List ℕ × BitIn) (k : ℕ) : Checked (List ℕ × BitIn) := do
  let o ← get kClOrder k
  let (v, i) ← s.2.take p 3
  let cl ← put s.1 o v
  pure (cl, i)

theorem clLens_spec (hi : i.Ok p) {n : ℕ} (hn : n ≤ 19) :
    ∃ cl i', clLens p n i = .ok (cl, i') ∧ ClRead p i n cl i' := by
  obtain ⟨⟨cl, i'⟩, hrun, hread⟩ := foldlM_range n
    (f := clStep p)
    (I := fun k s => ClRead p i k s.1 s.2) (s := (List.replicate 19 0, i))
    ⟨hi, List.length_replicate, fun x hx => by rw [List.eq_of_mem_replicate hx]; omega, fun hgood => ⟨hgood, [], rfl, .nil _, rfl⟩⟩
    (by
      rintro k hk ⟨cl, j⟩ ⟨hj, hlen, hshort, hreads⟩
      have hlt : k < kClOrder.length := by
        show k < 19
        omega
      have ho := List.getElem?_eq_getElem hlt
      have hplace : kClOrder[k] < cl.length := by
        rw [hlen]
        exact kClOrder_lt _ (List.getElem_mem hlt)
      obtain ⟨v, j', htake, hj', hv, hread⟩ := BitIn.take_spec hj 3
      refine ⟨(cl.set kClOrder[k] v, j'), ?_, hj', by rw [List.length_set, hlen], ?_, ?_⟩
      · simp only [clStep, get_of ho, ok_bind, htake, put_of v hplace]
        rfl
      · intro x hx
        rcases List.mem_or_eq_of_mem_set hx with hmem | rfl
        · exact hshort x hmem
        · omega
      · intro hgood
        obtain ⟨hgood', hv⟩ := hread hgood
        obtain ⟨hgood₀, vs, rfl, heach, hcl⟩ := hreads hgood'
        refine ⟨hgood₀, vs ++ [v], by simp, heach.concat hv, ?_⟩
        show cl.set kClOrder[vs.length] v = _
        rw [placed_concat ho, ← hcl])
  exact ⟨cl, i', hrun, hread⟩

theorem placed_short {vs : List ℕ} (h : ReadsEach 3 s vs s') : ∀ x ∈ placed vs, x < 16 := by
  intro x hx
  rcases mem_placed hx with rfl | hmem
  · omega
  · have hlt := h.lt x hmem
    omega

theorem clLens_of_reads (hi : i.Ok p) (hgood : i.bad = false) {vs : List ℕ} (hn : vs.length ≤ 19)
    (h : ReadsEach 3 (i.rem p) vs s') :
    ∃ i', clLens p vs.length i = .ok (placed vs, i') ∧ i'.Ok p ∧ i'.bad = false
      ∧ i'.rem p = s' := by
  obtain ⟨⟨cl, i'⟩, hrun, hok, hgood', hrest, hcl⟩ := foldlM_range vs.length
    (f := clStep p)
    (I := fun k s => s.2.Ok p ∧ s.2.bad = false ∧ ReadsEach 3 (s.2.rem p) (vs.drop k) s'
      ∧ s.1 = placed (vs.take k))
    (s := (List.replicate 19 0, i))
    ⟨hi, hgood, h, rfl⟩
    (by
      rintro k hk ⟨cl, j⟩ ⟨hj, hjgood, hreads, rfl⟩
      have hlt : k < kClOrder.length := by
        show k < 19
        omega
      have ho := List.getElem?_eq_getElem hlt
      have htaken : (vs.take k).length = k := by
        rw [List.length_take]
        omega
      rw [List.drop_eq_getElem_cons hk] at hreads
      cases hreads with
      | cons hv hrest =>
          obtain ⟨j', htake, hj', hjgood', rfl⟩ := BitIn.take_of_reads hj hjgood hv
          refine ⟨(placed (vs.take (k + 1)), j'), ?_, hj', hjgood', hrest, rfl⟩
          have hplace : kClOrder[k] < (placed (vs.take k)).length := by
            rw [length_placed (by omega)]
            exact kClOrder_lt _ (List.getElem_mem hlt)
          have hnext : placed (vs.take (k + 1)) = (placed (vs.take k)).set kClOrder[k] vs[k] := by
            rw [List.take_succ_eq_append_getElem hk, placed_concat (by rw [htaken]; exact ho)]
          rw [hnext]
          simp only [clStep, get_of ho, ok_bind, htake, put_of vs[k] hplace]
          rfl)
  rw [List.drop_length] at hrest
  rw [List.take_length] at hcl
  cases hrest with
  | nil => exact ⟨i', by rw [← hcl]; exact hrun, hok, hgood', rfl⟩

/-! ## The lengths of the two codes -/

/-- Writing behind what is filled fills one more. -/
theorem put_prefix {lens acc : List ℕ} (hacc : acc <+: lens) (hlt : acc.length < lens.length)
    (x : ℕ) : ∃ lens', put lens acc.length x = .ok lens' ∧ lens'.length = lens.length
      ∧ acc ++ [x] <+: lens' := by
  obtain ⟨rest, rfl⟩ := hacc
  rcases rest with _ | ⟨y, rest⟩
  · simp at hlt
  · refine ⟨_, put_of x hlt, List.length_set, ?_⟩
    rw [List.set_append_right _ _ le_rfl, Nat.sub_self, List.set_cons_zero]
    exact ⟨rest, by rw [List.append_assoc, List.singleton_append]⟩

theorem repeatLen_spec {total : ℕ} (x rep : ℕ) : ∀ {lens acc : List ℕ}, acc <+: lens →
    total ≤ lens.length → acc.length ≤ total →
    ∃ lens', repeatLen total x rep lens acc.length
        = .ok (lens', ((acc ++ List.replicate rep x).take total).length)
      ∧ lens'.length = lens.length ∧ (acc ++ List.replicate rep x).take total <+: lens' := by
  induction rep with
  | zero =>
      intro lens acc hacc _ hle
      have hall : (acc ++ List.replicate 0 x).take total = acc := by
        rw [List.replicate_zero, List.append_nil, List.take_of_length_le hle]
      refine ⟨lens, ?_, rfl, ?_⟩
      · rw [hall]
        rfl
      · rw [hall]
        exact hacc
  | succ rep ih =>
      intro lens acc hacc htotal hle
      by_cases hlt : acc.length < total
      · obtain ⟨lens₁, hput, hlen₁, hacc₁⟩ := put_prefix hacc (by omega) x
        have hcount : (acc ++ [x]).length = acc.length + 1 := by simp
        obtain ⟨lens', hrun, hlen, hacc'⟩ := ih hacc₁ (by omega) (by omega)
        rw [hcount, List.append_assoc, List.singleton_append, ← List.replicate_succ] at hrun
        rw [List.append_assoc, List.singleton_append, ← List.replicate_succ] at hacc'
        refine ⟨lens', ?_, hlen.trans hlen₁, hacc'⟩
        rw [repeatLen, if_pos hlt, hput, ok_bind]
        exact hrun
      · have hall : (acc ++ List.replicate (rep + 1) x).take total = acc := by
          rw [List.take_append_of_le_length (by omega), List.take_of_length_le hle]
        refine ⟨lens, ?_, rfl, ?_⟩
        · rw [repeatLen, if_neg hlt, hall]
        · rw [hall]
          exact hacc

/-- The lengths so far, when one more symbol of the code length code was read. -/
theorem mem_again {total least x : ℕ} {acc : List ℕ} (hacc : ∀ y ∈ acc, y < 16) (hx : x < 16) :
    ∀ y ∈ (acc ++ List.replicate least x).take total, y < 16 := by
  intro y hy
  rcases List.mem_append.mp (List.mem_of_mem_take hy) with hmem | hmem
  · exact hacc y hmem
  · rw [List.eq_of_mem_replicate hmem]
    exact hx

/-- The length that symbol 16 repeats. -/
theorem get_last {lens acc : List ℕ} (hacc : acc <+: lens) (hpos : acc.length ≠ 0) :
    ∃ x, get lens (acc.length - 1) = .ok x ∧ acc.getLast? = some x ∧ x ∈ acc := by
  have hne : acc ≠ [] := List.ne_nil_of_length_pos (Nat.pos_of_ne_zero hpos)
  refine ⟨acc.getLast hne, get_of ?_, List.getLast?_eq_some_getLast hne, List.getLast_mem hne⟩
  obtain ⟨rest, rfl⟩ := hacc
  rw [List.getElem?_append_left (by omega), List.getLast_eq_getElem, List.getElem?_eq_getElem]

/-- What `codeLens` has filled in when it stops. -/
structure LensRead (cl : List ℕ) (total : ℕ) (p : List U8) (i : BitIn) (acc lens : List ℕ)
    (i' : BitIn) (acc' lens' : List ℕ) : Prop where
  filled : acc' <+: lens'
  length : lens'.length = lens.length
  all : acc'.length = total
  short : ∀ x ∈ acc', x < 16
  reads : i'.bad = false → i.bad = false ∧ Lengths accepted cl total (i.rem p) acc (i'.rem p) acc'

section CodeLens

variable {cl : List ℕ} {clh : Huff} {total : ℕ}

/-- What a run of `codeLens` with `acc` filled in comes to: a return of false, or the lengths that
the string says. -/
def LensRun (cl : List ℕ) (total : ℕ) (p : List U8) (i : BitIn) (acc lens : List ℕ)
    (run : Checked (Option (List ℕ) × BitIn)) : Prop :=
  ∃ r i', run = .ok (r, i') ∧ i'.Ok p
    ∧ ∀ lens', r = some lens' → ∃ acc', LensRead cl total p i acc lens i' acc' lens'

namespace LensRun

variable {acc lens lens₁ : List ℕ} {i₁ : BitIn} {run : Checked (Option (List ℕ) × BitIn)} {k : ℕ}

theorem refused (hi₁ : i₁.Ok p) : LensRun cl total p i acc lens (.ok (none, i₁)) :=
  ⟨none, i₁, rfl, hi₁, fun _ h => by cases h⟩

theorem stop (hacc : acc <+: lens) (htotal : acc.length = total) (hshort : ∀ x ∈ acc, x < 16)
    (hi : i.Ok p) : LensRun cl total p i acc lens (.ok (some lens, i)) := by
  refine ⟨some lens, i, rfl, hi, ?_⟩
  rintro lens' ⟨rfl⟩
  exact ⟨acc, hacc, rfl, htotal, hshort, fun hgood => ⟨hgood, .done htotal⟩⟩

/-- A length, with what follows it. -/
theorem one (hmore : acc.length < total) (hk : k < 16)
    (hcode : i₁.bad = false → i.bad = false ∧ ReadsCode cl (i.rem p) k (i₁.rem p))
    (hlen : lens₁.length = lens.length) (h : LensRun cl total p i₁ (acc ++ [k]) lens₁ run) :
    LensRun cl total p i acc lens run := by
  obtain ⟨r, i', hrun, hi', hres⟩ := h
  refine ⟨r, i', hrun, hi', fun lens' hr => ?_⟩
  obtain ⟨acc', hfill, hlen', htot, hsh, hreads⟩ := hres lens' hr
  refine ⟨acc', hfill, hlen'.trans hlen, htot, hsh, fun hgood => ?_⟩
  obtain ⟨hgood₁, hrest⟩ := hreads hgood
  obtain ⟨hgood₀, hk'⟩ := hcode hgood₁
  exact ⟨hgood₀, .one hmore hk' hk hrest⟩

/-- A repeat, with what follows it. -/
theorem again {i₂ : BitIn} {n least x e : ℕ} (hmore : acc.length < total)
    (hcode : i₁.bad = false → i.bad = false ∧ ReadsCode cl (i.rem p) k (i₁.rem p))
    (hrep : repeated acc k = some (n, least, x))
    (hextra : i₂.bad = false → i₁.bad = false ∧ Reads n (i₁.rem p) e (i₂.rem p))
    (hlen : lens₁.length = lens.length)
    (h : LensRun cl total p i₂ ((acc ++ List.replicate (least + e) x).take total) lens₁ run) :
    LensRun cl total p i acc lens run := by
  obtain ⟨r, i', hrun, hi', hres⟩ := h
  refine ⟨r, i', hrun, hi', fun lens' hr => ?_⟩
  obtain ⟨acc', hfill, hlen', htot, hsh, hreads⟩ := hres lens' hr
  refine ⟨acc', hfill, hlen'.trans hlen, htot, hsh, fun hgood => ?_⟩
  obtain ⟨hgood₂, hrest⟩ := hreads hgood
  obtain ⟨hgood₁, he⟩ := hextra hgood₂
  obtain ⟨hgood₀, hk⟩ := hcode hgood₁
  exact ⟨hgood₀, .again hmore hk hrep he (fun hcut => Bool.noConfusion hcut) hrest⟩

end LensRun

/-- The loop fills in what is left, with a budget for it. -/
theorem codeLens_spec (total : ℕ) (ht : Table cl clh) (hcl : cl.length = 19) (n : ℕ) :
    ∀ {lens acc : List ℕ} {i : BitIn}, acc <+: lens → total ≤ lens.length → acc.length ≤ total →
    total ≤ acc.length + n → (∀ x ∈ acc, x < 16) → i.Ok p →
    LensRun cl total p i acc lens (codeLens p clh total n lens acc.length i) := by
  induction n with
  | zero =>
      intro lens acc i hacc hroom hle hfuel hshort hi
      rw [codeLens, if_neg (by omega)]
      exact .stop hacc (by omega) hshort hi
  | succ n ih =>
      intro lens acc i hacc hroom hle hfuel hshort hi
      rw [codeLens]
      by_cases hmore : ¬ acc.length < total
      · rw [if_neg hmore]
        exact .stop hacc (by omega) hshort hi
      rw [not_not] at hmore
      rw [if_pos hmore]
      obtain ⟨r, i₁, hrun, hi₁, hread⟩ := Huff.decode_spec ht (by omega) hi
      simp only [hrun, ok_bind]
      rcases r with _ | k
      · exact .refused hi₁
      simp only
      have hcode := hread k rfl
      cases hbad : i₁.bad with
      | true => exact .refused hi₁
      | false =>
          obtain ⟨-, w, hw, -⟩ := hcode hbad
          obtain ⟨hk19, -⟩ := List.getElem?_eq_some_iff.mp hw.symbol
          rw [hcl] at hk19
          rw [if_neg Bool.false_ne_true]
          by_cases hk : k < 16
          · rw [if_pos hk]
            obtain ⟨lens₁, hput, hlen₁, hacc₁⟩ := put_prefix hacc (by omega) k
            have hcount : (acc ++ [k]).length = acc.length + 1 := by simp
            have hshort₁ : ∀ x ∈ acc ++ [k], x < 16 := by
              intro x hx
              rcases List.mem_append.mp hx with hmem | hmem
              · exact hshort x hmem
              · rw [List.mem_singleton.mp hmem]
                exact hk
            have hnext := ih hacc₁ (by omega) (by omega) (by omega) hshort₁ hi₁
            rw [hcount] at hnext
            rw [hput, ok_bind]
            exact .one hmore hk hcode hlen₁ hnext
          · rw [if_neg hk]
            -- every repeat symbol goes on in the same way
            have hrepeat : ∀ {n' least x e : ℕ} {i₂ : BitIn}, i₂.Ok p → x < 16 → 0 < least →
                repeated acc k = some (n', least, x) →
                (i₂.bad = false → i₁.bad = false ∧ Reads n' (i₁.rem p) e (i₂.rem p)) →
                LensRun cl total p i acc lens (repeatLen total x (least + e) lens acc.length
                  >>= fun y => codeLens p clh total n y.1 y.2 i₂) := by
              intro n' least x e i₂ hi₂ hx hpos hrep hextra
              obtain ⟨lens₁, hrep', hlen₁, hacc₁⟩ := repeatLen_spec x (least + e) hacc hroom hle
              have hmore' : acc.length + 1
                  ≤ ((acc ++ List.replicate (least + e) x).take total).length := by
                rw [List.length_take, List.length_append, List.length_replicate]
                omega
              rw [hrep', ok_bind]
              exact .again hmore hcode hrep hextra hlen₁ (ih hacc₁ (by omega)
                (List.length_take_le _ _) (by omega) (mem_again hshort hx) hi₂)
            by_cases h16 : k = 16
            · rw [if_pos h16]
              by_cases hzero : acc.length = 0
              · rw [if_pos hzero]
                exact .refused hi₁
              · rw [if_neg hzero]
                obtain ⟨x, hget, hlast, hmem⟩ := get_last hacc hzero
                obtain ⟨e, i₂, htake, hi₂, -, hextra⟩ := BitIn.take_spec hi₁ 2
                simp only [hget, ok_bind, htake]
                exact hrepeat hi₂ (hshort x hmem) (by omega)
                  (by rw [h16, repeated, hlast]; rfl) hextra
            · rw [if_neg h16]
              rcases (show k = 17 ∨ k = 18 by omega) with rfl | rfl
              · obtain ⟨e, i₂, htake, hi₂, -, hextra⟩ := BitIn.take_spec hi₁ 3
                simp only [if_pos, htake, ok_bind]
                exact hrepeat hi₂ (by omega) (by omega) rfl hextra
              · obtain ⟨e, i₂, htake, hi₂, -, hextra⟩ := BitIn.take_spec hi₁ 7
                simp only [show (18 : ℕ) ≠ 17 by omega, if_false, htake, ok_bind]
                exact hrepeat hi₂ (by omega) (by omega) rfl hextra

theorem codeLens_of_reads (ht : Table cl clh) (hcl : cl.length = 19) {acc acc' : List ℕ}
    (h : Lengths accepted cl total s acc s' acc') :
    ∀ {n : ℕ} {lens : List ℕ} {i : BitIn}, acc <+: lens → total ≤ lens.length →
    acc.length ≤ total → total ≤ acc.length + n → i.Ok p → i.bad = false → i.rem p = s →
    ∃ lens' i', codeLens p clh total n lens acc.length i = .ok (some lens', i') ∧ i'.Ok p
      ∧ i'.bad = false ∧ i'.rem p = s' ∧ acc' <+: lens' ∧ lens'.length = lens.length := by
  induction h with
  | @done s acc hall =>
      intro n lens i hacc _ _ _ hi hgood hrem
      refine ⟨lens, i, ?_, hi, hgood, hrem, hacc, rfl⟩
      cases n with
      | zero => exact if_neg (by omega)
      | succ n => rw [codeLens, if_neg (by omega)]
  | @one s s₁ s' acc acc' k hmore hcode hk _ ih =>
      intro n lens i hacc hroom _ hfuel hi hgood hrem
      rcases n with _ | n
      · omega
      · subst hrem
        obtain ⟨i₁, hrun, hi₁, hgood₁, hrem₁⟩ := Huff.decode_of_reads ht (by omega) hi hgood hcode
        obtain ⟨lens₁, hput, hlen₁, hacc₁⟩ := put_prefix hacc (by omega) k
        have hcount : (acc ++ [k]).length = acc.length + 1 := by simp
        obtain ⟨lens', i', hrun', hi', hgood', hrem', hacc', hlen'⟩ :=
          ih (n := n) hacc₁ (by omega) (by omega) (by omega) hi₁ hgood₁ hrem₁
        rw [hcount] at hrun'
        refine ⟨lens', i', ?_, hi', hgood', hrem', hacc', hlen'.trans hlen₁⟩
        rw [codeLens, if_pos hmore]
        simp only [hrun, ok_bind, hgood₁, Bool.false_eq_true, if_false, if_pos hk, hput]
        exact hrun'
  | @again s s₁ s₂ s' acc acc' k bits least x e hmore hcode hrep hextra hfit _ ih =>
      intro n lens i hacc hroom hle hfuel hi hgood hrem
      rcases n with _ | n
      · omega
      · subst hrem
        obtain ⟨i₁, hrun, hi₁, hgood₁, rfl⟩ := Huff.decode_of_reads ht (by omega) hi hgood hcode
        obtain ⟨i₂, htake, hi₂, hgood₂, hrem₂⟩ := BitIn.take_of_reads hi₁ hgood₁ hextra
        obtain ⟨lens₁, hrep', hlen₁, hacc₁⟩ := repeatLen_spec x (least + e) hacc hroom hle
        have hk : ¬ k < 16 := by
          intro hlt
          have hcases := repeated_cases hrep
          omega
        have hpos : 0 < least := by
          have hcases := repeated_cases hrep
          omega
        -- a repeat adds one length at least, unless the table is full already
        have hmore' : acc.length + 1
            ≤ ((acc ++ List.replicate (least + e) x).take total).length := by
          rw [List.length_take, List.length_append, List.length_replicate]
          omega
        obtain ⟨lens', i', hrun', hi', hgood', hrem', hacc', hlen'⟩ :=
          ih (n := n) hacc₁ (by omega) (List.length_take_le _ _) (by omega) hi₂ hgood₂ hrem₂
        refine ⟨lens', i', ?_, hi', hgood', hrem', hacc', hlen'.trans hlen₁⟩
        rw [codeLens, if_pos hmore]
        simp only [hrun, ok_bind, hgood₁, Bool.false_eq_true, if_false, if_neg hk]
        rcases repeated_cases hrep with ⟨rfl, rfl, rfl, hlast⟩ | ⟨rfl, rfl, rfl, rfl⟩
          | ⟨rfl, rfl, rfl, rfl⟩
        -- only symbol 16 looks back, so only it needs a length to repeat
        · have hzero : acc.length ≠ 0 := by
            intro hzero
            rw [List.length_eq_zero_iff.mp hzero] at hlast
            cases hlast
          obtain ⟨y, hget, hy, -⟩ := get_last hacc hzero
          obtain rfl : y = x := by
            rw [hlast] at hy
            injection hy with hy
            exact hy.symm
          simp only [if_true, if_neg hzero, hget, ok_bind, htake, hrep']
          exact hrun'
        · simp only [show (17 : ℕ) ≠ 16 by omega, if_true, if_false, htake, ok_bind, hrep']
          exact hrun'
        · simp only [show (18 : ℕ) ≠ 16 by omega, show (18 : ℕ) ≠ 17 by omega, if_false, htake,
            ok_bind, hrep']
          exact hrun'

end CodeLens

/-! ## The head -/

/-- The tables of the two codes of a block. -/
structure Tables (L D : List ℕ) (lit dist : Huff) : Prop where
  lit : Table L lit
  dist : Table D dist
  lit_le : L.length ≤ 288
  dist_le : D.length ≤ 288

/-- The two codes are the two parts of what was filled. -/
theorem take_of_prefix {acc lens : List ℕ} (h : acc <+: lens) {n : ℕ} (hn : n ≤ acc.length) :
    lens.take n = acc.take n := by
  obtain ⟨rest, rfl⟩ := h
  rw [List.take_append_of_le_length hn]

theorem drop_of_prefix {acc lens : List ℕ} (h : acc <+: lens) {n m : ℕ} (hn : n + m = acc.length) :
    (lens.drop n).take m = acc.drop n := by
  obtain ⟨rest, rfl⟩ := h
  rw [List.drop_append_of_le_length (by omega), List.take_left' (by rw [List.length_drop]; omega)]

theorem builds_spec {acc lens : List ℕ} {n m : ℕ} (hfill : acc <+: lens)
    (hall : acc.length = n + m) (hshort : ∀ x ∈ acc, x < 16) (hn : n ≤ 288) (hm : m ≤ 288) :
    ∃ r r', Huff.build lens n = .ok r ∧ Huff.build (lens.drop n) m = .ok r'
      ∧ (r = none → ¬ Fits (acc.take n)) ∧ (r' = none → ¬ Fits (acc.drop n))
      ∧ ∀ lit dist, r = some lit → r' = some dist →
        Fits (acc.take n) ∧ Fits (acc.drop n) ∧ Tables (acc.take n) (acc.drop n) lit dist := by
  have hroom := hfill.length_le
  have hlit : lens.take n = acc.take n := take_of_prefix hfill (by omega)
  have hdist : (lens.drop n).take m = acc.drop n := drop_of_prefix hfill hall.symm
  obtain ⟨r, hrun, hnone, hsome⟩ := Huff.build_spec lens n (by omega) hn
    (by rw [hlit]; exact fun x hx => hshort x (List.mem_of_mem_take hx))
  obtain ⟨r', hrun', hnone', hsome'⟩ := Huff.build_spec (lens.drop n) m
    (by rw [List.length_drop]; omega) hm
    (by rw [hdist]; exact fun x hx => hshort x (List.mem_of_mem_drop hx))
  rw [hlit] at hnone hsome
  rw [hdist] at hnone' hsome'
  refine ⟨r, r', hrun, hrun', hnone, hnone', ?_⟩
  intro lit dist hr hr'
  obtain ⟨hfit, ht⟩ := hsome lit hr
  obtain ⟨hfit', ht'⟩ := hsome' dist hr'
  refine ⟨hfit, hfit', ht, ht', ?_, ?_⟩
  · rw [List.length_take]
    omega
  · rw [List.length_drop]
    omega

theorem dynamicTables_spec (hi : i.Ok p) :
    ∃ r i', dynamicTables p i = .ok (r, i') ∧ i'.Ok p ∧ ∀ lit dist, r = some (lit, dist) →
      ∃ L D, Tables L D lit dist
        ∧ (i'.bad = false → i.bad = false ∧ Header accepted (i.rem p) L D (i'.rem p)) := by
  obtain ⟨hlit, i₁, htake₁, hi₁, -, hread₁⟩ := BitIn.take_spec hi 5
  obtain ⟨hdist, i₂, htake₂, hi₂, -, hread₂⟩ := BitIn.take_spec hi₁ 5
  obtain ⟨hclen, i₃, htake₃, hi₃, hclen_lt, hread₃⟩ := BitIn.take_spec hi₂ 4
  rw [dynamicTables]
  simp only [htake₁, htake₂, htake₃, ok_bind]
  by_cases hmax : 286 < hlit + 257 ∨ 30 < hdist + 1
  · rw [if_pos hmax]
    exact ⟨none, i₃, rfl, hi₃, fun lit dist h => by cases h⟩
  · rw [if_neg hmax]
    -- the header's three readings come in its order: the code lengths' own lengths first
    obtain ⟨cl, i₄, hcl, hread₄⟩ := clLens_spec hi₃ (n := hclen + 4) (by omega)
    simp only [hcl, ok_bind]
    cases hbad : i₄.bad with
    | true => exact ⟨none, i₄, rfl, hread₄.ok, fun lit dist h => by cases h⟩
    | false =>
        rw [if_neg Bool.false_ne_true]
        obtain ⟨hgood₃, vs, hvs, heach, hplaced⟩ := hread₄.reads hbad
        have hwhole : cl.take 19 = cl := List.take_of_length_le hread₄.length.le
        obtain ⟨r, hbuild, -, hclh⟩ := Huff.build_spec cl 19 hread₄.length.ge (by omega)
          (by rw [hwhole]; exact hread₄.short)
        rw [hwhole] at hclh
        simp only [hbuild, ok_bind]
        cases r with
        | none => exact ⟨none, i₄, rfl, hread₄.ok, fun lit dist h => by cases h⟩
        | some clh =>
            obtain ⟨hfits, htable⟩ := hclh clh rfl
            obtain ⟨r, i', hrun, hi', hlens⟩ := codeLens_spec (hlit + 257 + (hdist + 1))
              htable hread₄.length (hlit + 257 + (hdist + 1))
              (List.nil_prefix (l := List.replicate 318 0)) (by rw [List.length_replicate]; omega) (Nat.zero_le _)
              (by omega) (by simp) hread₄.ok
            rw [List.length_nil] at hrun
            simp only [hrun, ok_bind]
            cases r with
            | none => exact ⟨none, i', rfl, hi', fun lit dist h => by cases h⟩
            | some lens =>
                obtain ⟨acc, hfill, hlen, hall, hshort, hreads⟩ := hlens lens rfl
                obtain ⟨r, r', hbuild, hbuild', -, -, hboth⟩ := builds_spec hfill hall hshort
                  (by omega) (by omega)
                simp only [hbuild, ok_bind]
                cases r with
                | none => exact ⟨none, i', rfl, hi', fun lit dist h => by cases h⟩
                | some lit =>
                    simp only [hbuild', ok_bind]
                    cases r' with
                    | none => exact ⟨none, i', rfl, hi', fun lit dist h => by cases h⟩
                    | some dist =>
                        obtain ⟨hfitl, hfitd, htables⟩ := hboth lit dist rfl rfl
                        refine ⟨some (lit, dist), i', rfl, hi', ?_⟩
                        rintro _ _ ⟨rfl⟩
                        refine ⟨acc.take (hlit + 257), acc.drop (hlit + 257), htables, ?_⟩
                        intro hgood
                        obtain ⟨hgood₂, h₃⟩ := hread₃ hgood₃
                        obtain ⟨hgood₁, h₂⟩ := hread₂ hgood₂
                        obtain ⟨hgood₀, h₁⟩ := hread₁ hgood₁
                        rw [hplaced] at hfits
                        refine ⟨hgood₀, .intro h₁ h₂ h₃ (by omega)
                          (show hdist + 1 ≤ 30 by omega) hvs heach hfits ?_ hfitl hfitd⟩
                        rw [← hplaced]
                        exact (hreads hgood).2

theorem dynamicTables_of_header (hi : i.Ok p) (hgood : i.bad = false) {L D : List ℕ}
    (h : Header accepted (i.rem p) L D s') :
    ∃ lit dist i', dynamicTables p i = .ok (some (lit, dist), i') ∧ Tables L D lit dist
      ∧ i'.Ok p ∧ i'.bad = false ∧ i'.rem p = s' := by
  cases h with
  | @intro s₁ s₂ s₃ s₄ _ hlit hdist hclen vs acc h₁ h₂ h₃ hlit_le hdist_le hcount h₄ hcl h₅ hfitl
      hfitd =>
      replace hdist_le : hdist + 1 ≤ 30 := hdist_le
      -- the cursor is moved along the header's own readings, one after the other
      obtain ⟨i₁, htake₁, hi₁, hgood₁, rfl⟩ := BitIn.take_of_reads hi hgood h₁
      obtain ⟨i₂, htake₂, hi₂, hgood₂, rfl⟩ := BitIn.take_of_reads hi₁ hgood₁ h₂
      obtain ⟨i₃, htake₃, hi₃, hgood₃, rfl⟩ := BitIn.take_of_reads hi₂ hgood₂ h₃
      have hclen_lt : hclen < 16 := h₃.lt
      obtain ⟨i₄, hrun₄, hi₄, hgood₄, rfl⟩ := clLens_of_reads hi₃ hgood₃ (by omega) h₄
      have hlength : (placed vs).length = 19 := length_placed (by omega)
      have hwhole : (placed vs).take 19 = placed vs := List.take_of_length_le hlength.le
      obtain ⟨r, hbuild, hnone, hclh⟩ := Huff.build_spec (placed vs) 19 hlength.ge (by omega)
        (by rw [hwhole]; exact placed_short h₄)
      rw [hwhole] at hnone hclh
      cases r with
      | none => exact absurd hcl (hnone rfl)
      | some clh =>
          obtain ⟨-, htable⟩ := hclh clh rfl
          obtain ⟨lens, i', hrun, hi', hgood', hrem', hfill, -⟩ := codeLens_of_reads htable hlength h₅
            (n := hlit + 257 + (hdist + 1)) (List.nil_prefix (l := List.replicate 318 0))
            (by rw [List.length_replicate]; omega) (Nat.zero_le _) (by omega) hi₄ hgood₄ rfl
          rw [List.length_nil] at hrun
          obtain ⟨r, r', hbuild₁, hbuild₂, hnone₁, hnone₂, hboth⟩ := builds_spec hfill
            h₅.length_eq (h₅.short (by simp)) (by omega) (by omega)
          cases r with
          | none => exact absurd hfitl (hnone₁ rfl)
          | some lit =>
              cases r' with
              | none => exact absurd hfitd (hnone₂ rfl)
              | some dist =>
                  obtain ⟨-, -, htables⟩ := hboth lit dist rfl rfl
                  refine ⟨lit, dist, i', ?_, htables, hi', hgood', hrem'⟩
                  rw [hcount] at hrun₄
                  rw [dynamicTables]
                  simp only [htake₁, htake₂, htake₃, ok_bind]
                  rw [if_neg (by omega)]
                  simp only [hrun₄, hgood₄, Bool.false_eq_true, if_false, ok_bind, hbuild, hrun,
                    hbuild₁, hbuild₂]
                  rfl

end Inflate

end OpenPowerMac
