/-
What is in a node: bytes, records and their offsets.

`Holds n recs` says that the 512 bytes of `n` hold the records `recs`: each where the
table at the end of the node has its offset, one behind the other, all in front of the
table. `makeNode` builds such a node of any records that fit (`makeNode_spec`), and
`packLevel` cuts records into groups that fit.
-/
import OpenPowerMac.HfsTree
import Mathlib.Tactic.Ring

set_option autoImplicit false

namespace OpenPowerMac

namespace Hfs

/-! ## Numbers in a node -/

def u16At (n : Bytes) (i : ℕ) : ℕ := (n.getD i 0#8).toNat * 2 ^ 8 + (n.getD (i + 1) 0#8).toNat

theorem getD_append_right {X Y : Bytes} (i : ℕ) :
    (X ++ Y).getD (X.length + i) 0#8 = Y.getD i 0#8 := by
  rw [List.getD_eq_getElem?_getD, List.getElem?_append_right (Nat.le_add_right _ _),
    Nat.add_sub_cancel_left, ← List.getD_eq_getElem?_getD]

theorem u16At_append (X Y : Bytes) (v : ℕ) :
    u16At (X ++ (be16 v ++ Y)) X.length = v % 2 ^ 16 := by
  have h₀ := getD_append_right (X := X) (Y := be16 v ++ Y) 0
  have h₁ := getD_append_right (X := X) (Y := be16 v ++ Y) 1
  rw [u16At, h₁, ← Nat.add_zero X.length, h₀]
  show (BitVec.ofNat 8 (v >>> 8)).toNat * 2 ^ 8 + (BitVec.ofNat 8 v).toNat = _
  rw [BitVec.toNat_ofNat, BitVec.toNat_ofNat, Nat.shiftRight_eq_div_pow]
  omega

theorem get32_append (X Y : Bytes) (v : ℕ) :
    get32 (X ++ (be32 v ++ Y)) X.length = v % 2 ^ 32 := by
  have h₀ := getD_append_right (X := X) (Y := be32 v ++ Y) 0
  have h₁ := getD_append_right (X := X) (Y := be32 v ++ Y) 1
  have h₂ := getD_append_right (X := X) (Y := be32 v ++ Y) 2
  have h₃ := getD_append_right (X := X) (Y := be32 v ++ Y) 3
  rw [get32, h₁, h₂, h₃, ← Nat.add_zero X.length, h₀]
  show (BitVec.ofNat 8 (v >>> 24)).toNat * 2 ^ 24 + (BitVec.ofNat 8 (v >>> 16)).toNat * 2 ^ 16
    + (BitVec.ofNat 8 (v >>> 8)).toNat * 2 ^ 8 + (BitVec.ofNat 8 v).toNat = _
  simp only [BitVec.toNat_ofNat, Nat.shiftRight_eq_div_pow]
  omega

/-! ## Writing -/

theorem write_append {X Z Y bs : Bytes} {at_ : ℕ} (hat : at_ = X.length) (hlen : bs.length = Z.length) :
    write (X ++ (Z ++ Y)) at_ bs = some (X ++ (bs ++ Y)) := by
  subst hat
  have hroom : X.length + bs.length ≤ (X ++ (Z ++ Y)).length := by
    rw [List.length_append, List.length_append]
    omega
  have hdrop : (X ++ (Z ++ Y)).drop (X.length + bs.length) = Y := by
    rw [hlen, ← List.length_append, ← List.append_assoc, List.drop_left]
  rw [write, if_pos hroom, List.take_left, hdrop, List.append_assoc]

/-- Bytes written at the front or at the end of what is still zero. -/
theorem write_front {X Y bs : Bytes} {z : ℕ} (hz : bs.length ≤ z) :
    write (X ++ (List.replicate z 0#8 ++ Y)) X.length bs
      = some (X ++ bs ++ (List.replicate (z - bs.length) 0#8 ++ Y)) := by
  have hsplit : List.replicate z 0#8 ++ Y
      = List.replicate bs.length 0#8 ++ (List.replicate (z - bs.length) 0#8 ++ Y) := by
    rw [← List.append_assoc, List.replicate_append_replicate, Nat.add_sub_cancel' hz]
  rw [hsplit, write_append rfl List.length_replicate.symm, List.append_assoc]

theorem write_back {X Y bs : Bytes} {z at_ : ℕ} (hat : at_ + bs.length = X.length + z)
    (hz : bs.length ≤ z) :
    write (X ++ (List.replicate z 0#8 ++ Y)) at_ bs
      = some (X ++ (List.replicate (z - bs.length) 0#8 ++ (bs ++ Y))) := by
  have hsplit : X ++ (List.replicate z 0#8 ++ Y)
      = (X ++ List.replicate (z - bs.length) 0#8) ++ (List.replicate bs.length 0#8 ++ Y) := by
    rw [List.append_assoc, ← List.append_assoc (List.replicate _ _) (List.replicate _ _),
      List.replicate_append_replicate, Nat.sub_add_cancel hz]
  have hlen : at_ = (X ++ List.replicate (z - bs.length) 0#8).length := by
    rw [List.length_append, List.length_replicate]
    omega
  rw [hsplit, write_append hlen List.length_replicate.symm, List.append_assoc]

/-! ## A node -/

/-- How many bytes some records have. -/
def total (recs : List Bytes) : ℕ := (recs.map List.length).sum

@[simp] theorem total_nil : total [] = 0 := rfl

@[simp] theorem total_cons (r : Bytes) (rs : List Bytes) : total (r :: rs) = r.length + total rs := by
  rw [total, List.map_cons, List.sum_cons, total]

theorem total_append (rs rs' : List Bytes) : total (rs ++ rs') = total rs + total rs' := by
  rw [total, List.map_append, List.sum_append, total, total]

theorem length_flatten (recs : List Bytes) : recs.flatten.length = total recs :=
  List.length_flatten

/-- Where record `i` begins, by the table at the end of a node. -/
def recOffset (n : Bytes) (i : ℕ) : ℕ := u16At n (510 - 2 * i)

/-- The records of a node. -/
def nodeRecs (n : Bytes) : List Bytes :=
  (List.range (u16At n 10)).map fun i =>
    (n.drop (recOffset n i)).take (recOffset n (i + 1) - recOffset n i)

/-- The records of a node, and that they fit. -/
structure Holds (n : Bytes) (recs : List Bytes) : Prop where
  length : n.length = 512
  records : nodeRecs n = recs
  offset : ∀ i ≤ recs.length, recOffset n i = 14 + total (recs.take i)
  room : recOffset n recs.length + 2 * (recs.length + 1) ≤ 512

/-- Records that fit a node. -/
def Fits (recs : List Bytes) : Prop := 14 + total recs + 2 * (recs.length + 1) ≤ 512

/-- The table of the offsets, the last one first. -/
def table : ℕ → List Bytes → Bytes
  | at_, [] => be16 at_
  | at_, r :: rs => table (at_ + r.length) rs ++ be16 at_

theorem length_table (at_ : ℕ) (rs : List Bytes) : (table at_ rs).length = 2 * (rs.length + 1) := by
  induction rs generalizing at_ with
  | nil => rfl
  | cons r rs ih =>
      rw [table, List.length_append, ih, List.length_cons]
      rfl

/-- The offset of record `i` stands `i + 1` places before the end of the table. -/
theorem u16At_table (rs : List Bytes) : ∀ (at_ : ℕ) {i : ℕ} (A Y : Bytes), i ≤ rs.length →
    u16At (A ++ (table at_ rs ++ Y)) (A.length + 2 * (rs.length - i))
      = (at_ + total (rs.take i)) % 2 ^ 16 := by
  induction rs with
  | nil =>
      intro at_ i A Y hi
      obtain rfl : i = 0 := Nat.le_zero.mp hi
      exact u16At_append A Y at_
  | cons r rs ih =>
      intro at_ i A Y hi
      rw [table]
      rcases i with _ | i
      · have hlen : A.length + 2 * ((r :: rs).length - 0) = (A ++ table (at_ + r.length) rs).length := by
          rw [List.length_append, length_table, List.length_cons]
          omega
        rw [hlen, List.append_assoc, ← List.append_assoc A, u16At_append]
        rfl
      · have hpos : A.length + 2 * ((r :: rs).length - (i + 1)) = A.length + 2 * (rs.length - i) := by
          rw [List.length_cons]
          omega
        rw [hpos, List.append_assoc, ih _ A (be16 at_ ++ Y) (Nat.le_of_succ_le_succ hi),
          List.take_succ_cons, total_cons, Nat.add_assoc]

theorem placeRecs_spec (rs : List Bytes) : ∀ {X Y : Bytes} {z : ℕ},
    total rs + 2 * (rs.length + 1) ≤ z →
    placeRecs rs X.length (X.length + z - 2) (X ++ (List.replicate z 0#8 ++ Y))
      = some (X ++ rs.flatten ++ (List.replicate (z - (total rs + 2 * (rs.length + 1))) 0#8
        ++ (table X.length rs ++ Y))) := by
  induction rs with
  | nil =>
      intro X Y z hz
      rw [total_nil, List.length_nil] at hz
      rw [placeRecs, write_back (by show _ + 2 = _; omega) (by show 2 ≤ z; omega), List.flatten_nil,
        List.append_nil]
      rfl
  | cons r rs ih =>
      intro X Y z hz
      rw [total_cons, List.length_cons] at hz
      have htable : write (X ++ (List.replicate z 0#8 ++ Y)) (X.length + z - 2) (be16 X.length)
          = some (X ++ (List.replicate (z - 2) 0#8 ++ (be16 X.length ++ Y))) :=
        write_back (by show _ + 2 = _; omega) (by show 2 ≤ z; omega)
      have hrec : write (X ++ (List.replicate (z - 2) 0#8 ++ (be16 X.length ++ Y))) X.length r
          = some (X ++ r ++ (List.replicate (z - 2 - r.length) 0#8 ++ (be16 X.length ++ Y))) :=
        write_front (by omega)
      have hnext := ih (X := X ++ r) (Y := be16 X.length ++ Y) (z := z - 2 - r.length) (by omega)
      have hat : (X ++ r).length = X.length + r.length := List.length_append
      have hslot : (X ++ r).length + (z - 2 - r.length) - 2 = X.length + z - 2 - 2 := by omega
      rw [hslot, hat] at hnext
      have hzeros : z - 2 - r.length - (total rs + 2 * (rs.length + 1))
          = z - (r.length + total rs + 2 * (rs.length + 1 + 1)) := by omega
      rw [placeRecs, htable, Option.bind_eq_bind, Option.bind_some, hrec, Option.bind_some, hnext,
        hzeros, table, List.flatten_cons, total_cons, List.length_cons]
      simp only [List.append_assoc]

/-- The 14 bytes in front of the records. -/
def descriptor (type height : U8) (count fLink bLink : ℕ) : Bytes :=
  be32 fLink ++ be32 bLink ++ [type, height] ++ be16 count ++ [0#8, 0#8]

/-- What `makeNode` builds. -/
def nodeBytes (type height : U8) (recs : List Bytes) (fLink bLink : ℕ) : Bytes :=
  descriptor type height recs.length fLink bLink ++ recs.flatten
    ++ (List.replicate (498 - (total recs + 2 * (recs.length + 1))) 0#8 ++ table 14 recs)

/-- The same with nothing but zeros behind. -/
theorem write_next {X bs : Bytes} {at_ z k : ℕ} (hat : X.length = at_) (hz : z = bs.length + k) :
    write (X ++ List.replicate z 0#8) at_ bs = some (X ++ bs ++ List.replicate k 0#8) := by
  have h : write (X ++ (List.replicate z 0#8 ++ [])) X.length bs
      = some (X ++ bs ++ (List.replicate (z - bs.length) 0#8 ++ [])) := write_front (by omega)
  rw [List.append_nil, List.append_nil] at h
  rw [← hat, h, show z - bs.length = k by omega]

theorem makeNode_eq (type height : U8) {recs : List Bytes} (fLink bLink : ℕ) (hfit : Fits recs) :
    makeNode type height recs fLink bLink = some (nodeBytes type height recs fLink bLink) := by
  have hplace := placeRecs_spec recs (X := descriptor type height recs.length fLink bLink) (Y := [])
    (z := 498) (by rw [Fits] at hfit; omega)
  rw [List.append_nil, List.append_nil] at hplace
  have hzeros : List.replicate 500 0#8 = [0#8, 0#8] ++ List.replicate 498 0#8 := by
    rw [List.replicate_succ, List.replicate_succ]
    rfl
  have hf : write (List.replicate 512 0#8) 0 (be32 fLink)
      = some (be32 fLink ++ List.replicate 508 0#8) := by
    have h : write ([] ++ List.replicate 512 0#8) 0 (be32 fLink)
        = some ([] ++ be32 fLink ++ List.replicate 508 0#8) := write_next rfl rfl
    rwa [List.nil_append, List.nil_append] at h
  have hb : write (be32 fLink ++ List.replicate 508 0#8) 4 (be32 bLink)
      = some (be32 fLink ++ be32 bLink ++ List.replicate 504 0#8) :=
    write_next rfl rfl
  have ht : write (be32 fLink ++ be32 bLink ++ List.replicate 504 0#8) 8 [type]
      = some (be32 fLink ++ be32 bLink ++ [type] ++ List.replicate 503 0#8) :=
    write_next rfl rfl
  have hh : write (be32 fLink ++ be32 bLink ++ [type] ++ List.replicate 503 0#8) 9 [height]
      = some (be32 fLink ++ be32 bLink ++ [type] ++ [height] ++ List.replicate 502 0#8) :=
    write_next rfl rfl
  have hc : write (be32 fLink ++ be32 bLink ++ [type] ++ [height] ++ List.replicate 502 0#8) 10
        (be16 recs.length)
      = some (be32 fLink ++ be32 bLink ++ [type] ++ [height] ++ be16 recs.length
        ++ List.replicate 500 0#8) :=
    write_next rfl rfl
  have hdescriptor : be32 fLink ++ be32 bLink ++ [type] ++ [height] ++ be16 recs.length
      ++ List.replicate 500 0#8
        = descriptor type height recs.length fLink bLink ++ List.replicate 498 0#8 := by
    rw [hzeros, ← List.append_assoc]
    rfl
  rw [makeNode]
  simp only [hf, hb, ht, hh, hc, Option.bind_eq_bind, Option.bind_some, hdescriptor]
  exact hplace

variable {n : Bytes} {recs : List Bytes} {type height : U8} {fLink bLink : ℕ}

theorem length_nodeBytes (hfit : Fits recs) :
    (nodeBytes type height recs fLink bLink).length = 512 := by
  rw [Fits] at hfit
  have hdescriptor : (descriptor type height recs.length fLink bLink).length = 14 := rfl
  rw [nodeBytes, List.length_append, List.length_append, List.length_append, hdescriptor,
    length_flatten, List.length_replicate, length_table]
  omega

theorem recOffset_nodeBytes (hfit : Fits recs) {i : ℕ} (hi : i ≤ recs.length) :
    recOffset (nodeBytes type height recs fLink bLink) i = 14 + total (recs.take i) := by
  rw [Fits] at hfit
  have htotal : total recs = total (recs.take i) + total (recs.drop i) := by
    rw [← total_append, List.take_append_drop]
  have hread := u16At_table recs 14 (descriptor type height recs.length fLink bLink
    ++ recs.flatten ++ List.replicate (498 - (total recs + 2 * (recs.length + 1))) 0#8) [] hi
  have hpos : (descriptor type height recs.length fLink bLink ++ recs.flatten
      ++ List.replicate (498 - (total recs + 2 * (recs.length + 1))) 0#8).length
        + 2 * (recs.length - i) = 510 - 2 * i := by
    have hdescriptor : (descriptor type height recs.length fLink bLink).length = 14 := rfl
    rw [List.length_append, List.length_append, hdescriptor, length_flatten, List.length_replicate]
    omega
  rw [hpos, List.append_nil, List.append_assoc] at hread
  rw [recOffset, nodeBytes, hread]
  omega

theorem u16At_nodeBytes (hfit : Fits recs) :
    u16At (nodeBytes type height recs fLink bLink) 10 = recs.length := by
  rw [Fits] at hfit
  have hread := u16At_append (be32 fLink ++ be32 bLink ++ [type, height])
    ([0#8, 0#8] ++ recs.flatten ++ (List.replicate (498 - (total recs + 2 * (recs.length + 1))) 0#8
      ++ table 14 recs)) recs.length
  have hcount : recs.length % 2 ^ 16 = recs.length := Nat.mod_eq_of_lt (by omega)
  rw [hcount] at hread
  rw [nodeBytes, descriptor]
  simp only [List.append_assoc] at hread ⊢
  exact hread

/-- A record lies between its offset and the next. -/
theorem take_drop_flatten {A B : Bytes} {rs : List Bytes} {i : ℕ} (hi : i < rs.length) :
    ((A ++ (rs.flatten ++ B)).drop (A.length + total (rs.take i))).take (rs[i].length) = rs[i] := by
  have hsplit : rs.flatten = (rs.take i).flatten ++ (rs[i] ++ (rs.drop (i + 1)).flatten) := by
    conv_lhs => rw [← List.take_append_drop i rs, List.drop_eq_getElem_cons hi]
    rw [List.flatten_append, List.flatten_cons]
  rw [hsplit, List.append_assoc, ← List.append_assoc A, ← length_flatten, ← List.length_append,
    List.drop_left, List.append_assoc, List.take_left]

theorem nodeRecs_nodeBytes (type height : U8) (fLink bLink : ℕ) (hfit : Fits recs) :
    nodeRecs (nodeBytes type height recs fLink bLink) = recs := by
  rw [nodeRecs, u16At_nodeBytes hfit]
  refine List.ext_getElem (by rw [List.length_map, List.length_range]) ?_
  intro i _ hi
  have hnext : total (recs.take (i + 1)) = total (recs.take i) + recs[i].length := by
    rw [List.take_succ_eq_append_getElem hi, total_append, total_cons, total_nil, Nat.add_zero]
  rw [List.getElem_map, List.getElem_range, recOffset_nodeBytes hfit (Nat.le_of_lt hi),
    recOffset_nodeBytes hfit hi, hnext,
    show 14 + (total (recs.take i) + recs[i].length) - (14 + total (recs.take i)) = recs[i].length
      by omega, nodeBytes, List.append_assoc]
  exact take_drop_flatten (A := descriptor type height recs.length fLink bLink) hi

theorem holds_nodeBytes (hfit : Fits recs) : Holds (nodeBytes type height recs fLink bLink) recs where
  length := length_nodeBytes hfit
  records := nodeRecs_nodeBytes _ _ _ _ hfit
  offset _ hi := recOffset_nodeBytes hfit hi
  room := by
    rw [recOffset_nodeBytes hfit (Nat.le_refl _), List.take_length]
    exact hfit

theorem holds_nodeRecs (hfit : Fits recs) (hn : n = nodeBytes type height recs fLink bLink) :
    Holds n (nodeRecs n) := by
  have hholds : Holds (nodeBytes type height recs fLink bLink) recs := holds_nodeBytes hfit
  rw [← hn] at hholds
  rw [hholds.records]
  exact hholds

theorem type_nodeBytes : (nodeBytes type height recs fLink bLink).getD 8 0#8 = type := rfl

theorem fLink_nodeBytes : get32 (nodeBytes type height recs fLink bLink) 0 = fLink % 2 ^ 32 := by
  have hread := get32_append [] (be32 bLink ++ [type, height] ++ be16 recs.length ++ [0#8, 0#8]
    ++ recs.flatten ++ (List.replicate (498 - (total recs + 2 * (recs.length + 1))) 0#8
      ++ table 14 recs)) fLink
  rw [nodeBytes, descriptor]
  simp only [List.append_assoc, List.nil_append] at hread ⊢
  exact hread

theorem bLink_nodeBytes : get32 (nodeBytes type height recs fLink bLink) 4 = bLink % 2 ^ 32 := by
  have hread := get32_append (be32 fLink) ([type, height] ++ be16 recs.length ++ [0#8, 0#8]
    ++ recs.flatten ++ (List.replicate (498 - (total recs + 2 * (recs.length + 1))) 0#8
      ++ table 14 recs)) bLink
  rw [nodeBytes, descriptor]
  simp only [List.append_assoc] at hread ⊢
  exact hread

/-! ## Groups -/

/-- The groups are the records, cut. -/
theorem packFrom_flatten {rs : List Bytes} : ∀ (cur : List Bytes) (used : ℕ),
    (packFrom rs cur used).flatten = cur ++ rs := by
  induction rs with
  | nil =>
      intro cur used
      rw [packFrom, List.append_nil]
      split
      · rw [List.flatten_singleton]
      · next hcur => rw [not_not.mp hcur, List.flatten_nil]
  | cons r rs ih =>
      intro cur used
      rw [packFrom]
      split
      · rw [List.flatten_cons, ih, List.singleton_append]
      · rw [ih, List.append_assoc, List.singleton_append]

/-- Each group has a record and fits. -/
theorem packFrom_fits {rs : List Bytes} : ∀ (cur : List Bytes), (cur ≠ [] → Fits cur) →
    (∀ r ∈ rs, Fits [r]) → ∀ g ∈ packFrom rs cur (total cur), g ≠ [] ∧ Fits g := by
  induction rs with
  | nil =>
      intro cur hcur _ g hg
      rw [packFrom] at hg
      split at hg
      · next hne =>
        rw [List.mem_singleton] at hg
        exact hg ▸ ⟨hne, hcur hne⟩
      · exact absurd hg List.not_mem_nil
  | cons r rs ih =>
      intro cur hcur hrs g hg
      obtain ⟨hr, hrest⟩ := List.forall_mem_cons.mp hrs
      rw [packFrom] at hg
      split at hg
      · next hfull =>
        rcases List.mem_cons.mp hg with rfl | hg
        · exact ⟨hfull.1, hcur hfull.1⟩
        · have hused : r.length = total [r] := by rw [total_cons, total_nil, Nat.add_zero]
          rw [hused] at hg
          exact ih _ (fun _ => hr) hrest g hg
      · next hroom =>
        have hused : total cur + r.length = total (cur ++ [r]) := by
          rw [total_append, total_cons, total_nil, Nat.add_zero]
        rw [hused] at hg
        refine ih _ (fun _ => ?_) hrest g hg
        by_cases hempty : cur = []
        · rw [hempty]
          exact hr
        · -- the test has left room for the record and its offset
          rw [Fits, ← hused, List.length_append, List.length_singleton]
          have hle := not_lt.mp fun hlt => hroom ⟨hempty, hlt⟩
          omega

/-- Not more groups than records. -/
theorem length_packFrom_le {rs : List Bytes} : ∀ (cur : List Bytes) (used : ℕ),
    (packFrom rs cur used).length ≤ rs.length + 1 := by
  induction rs with
  | nil =>
      intro cur used
      rw [packFrom]
      split
      · exact Nat.le_refl _
      · exact Nat.zero_le _
  | cons r rs ih =>
      intro cur used
      rw [packFrom]
      split
      · exact Nat.succ_le_succ (ih _ _)
      · exact Nat.le_succ_of_le (ih _ _)

theorem packLevel_flatten (rs : List Bytes) : (packLevel rs).flatten = rs :=
  packFrom_flatten [] 0

theorem packLevel_fits {rs : List Bytes} (h : ∀ r ∈ rs, Fits [r]) :
    ∀ g ∈ packLevel rs, g ≠ [] ∧ Fits g :=
  packFrom_fits [] (fun hne => absurd rfl hne) h

/-- Two records that fit a node leave fewer groups than records. -/
theorem length_packLevel_lt {r r' : Bytes} (rs : List Bytes) (h : Fits [r, r']) :
    (packLevel (r :: r' :: rs)).length < (r :: r' :: rs).length := by
  rw [Fits, total_cons, total_cons, total_nil] at h
  have hsecond : ¬ ([r] ≠ [] ∧ 512 < 14 + r.length + r'.length + 2 * ([r].length + 2)) := by
    rintro ⟨-, hlt⟩
    rw [List.length_singleton] at hlt
    simp only [List.length_cons, List.length_nil] at h
    omega
  rw [packLevel, packFrom, if_neg (fun h => h.1 rfl), List.nil_append, Nat.zero_add, packFrom,
    if_neg hsecond, List.length_cons, List.length_cons]
  exact Nat.lt_succ_of_le (length_packFrom_le _ _)

end Hfs

end OpenPowerMac
