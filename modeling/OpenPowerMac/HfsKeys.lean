/-
Catalog keys: how they are ordered and how they stand in a record.

A key is a parent and a name. `sortKey` gives it as a list of numbers, the letters of
the name folded, whose order is the order of `nameCompare` (`recLess_iff`). A reader
finds the key of a record, and the node that an index record points to, by the bytes in
front (`keyOf_keyBytes`, `childOf_keyBytes`).
-/
import OpenPowerMac.HfsNode
import Mathlib.Data.List.Lex
import Mathlib.Data.Prod.Basic

set_option autoImplicit false

namespace OpenPowerMac

namespace Hfs

/-! ## The order -/

def foldName (name : Bytes) : List ℕ := name.map fun c => (foldByte c).toNat

/-- A key as a list of numbers. -/
def sortKey (k : ℕ × Bytes) : List ℕ := k.1 :: foldName k.2

def Rec.key (r : Rec) : ℕ × Bytes := (r.parent.toNat, r.name)

theorem nameCompare_eq : ∀ {a b : Bytes}, nameCompare a b = .eq ↔ foldName a = foldName b
  | [], [] => ⟨fun _ => rfl, fun _ => rfl⟩
  | [], _ :: _ => ⟨nofun, nofun⟩
  | _ :: _, [] => ⟨nofun, nofun⟩
  | x :: a, y :: b => by
      have ih := nameCompare_eq (a := a) (b := b)
      have hcons : foldName (x :: a) = foldName (y :: b)
          ↔ foldByte x = foldByte y ∧ foldName a = foldName b := by
        rw [foldName, foldName, List.map_cons, List.map_cons, List.cons.injEq, BitVec.toNat_inj]
        rfl
      rw [nameCompare, hcons]
      by_cases hxy : foldByte x = foldByte y
      · rw [if_neg (not_not.mpr hxy), ih]
        exact ⟨fun h => ⟨hxy, h⟩, And.right⟩
      · rw [if_pos hxy]
        constructor
        · intro h
          split at h <;> cases h
        · exact fun h => absurd h.1 hxy

theorem nameCompare_lt : ∀ {a b : Bytes}, nameCompare a b = .lt ↔ foldName a < foldName b
  | [], [] => ⟨nofun, fun h => absurd h (lt_irrefl _)⟩
  | [], _ :: _ => ⟨fun _ => List.nil_lt_cons _ _, fun _ => rfl⟩
  | _ :: _, [] => ⟨nofun, fun h => absurd h (List.not_lt_nil _)⟩
  | x :: a, y :: b => by
      have ih := nameCompare_lt (a := a) (b := b)
      have hcons : foldName (x :: a) < foldName (y :: b)
          ↔ foldByte x < foldByte y ∨ foldByte x = foldByte y ∧ foldName a < foldName b := by
        rw [foldName, foldName, List.map_cons, List.map_cons, List.cons_lt_cons_iff,
          BitVec.toNat_inj, ← BitVec.lt_def]
        rfl
      rw [nameCompare, hcons]
      by_cases hxy : foldByte x = foldByte y
      · rw [if_neg (not_not.mpr hxy), ih, hxy]
        constructor
        · exact fun h => .inr ⟨rfl, h⟩
        · rintro (h | ⟨-, h⟩)
          · exact absurd (BitVec.lt_def.mp h) (Nat.lt_irrefl _)
          · exact h
      · rw [if_pos hxy]
        constructor
        · intro h
          split at h
          · next hlt => exact .inl hlt
          · cases h
        · rintro (h | ⟨h, -⟩)
          · rw [if_pos h]
          · exact absurd h hxy

theorem recLess_iff {a b : Rec} : recLess a b = true ↔ sortKey a.key < sortKey b.key := by
  have hcons : sortKey a.key < sortKey b.key
      ↔ a.parent < b.parent ∨ a.parent = b.parent ∧ foldName a.name < foldName b.name := by
    rw [sortKey, sortKey, List.cons_lt_cons_iff, BitVec.lt_def, ← BitVec.toNat_inj]
    rfl
  rw [recLess, hcons]
  by_cases hp : a.parent = b.parent
  · rw [if_neg (not_not.mpr hp), decide_eq_true_iff, nameCompare_lt, hp]
    constructor
    · exact fun h => .inr ⟨rfl, h⟩
    · rintro (h | ⟨-, h⟩)
      · exact absurd (BitVec.lt_def.mp h) (Nat.lt_irrefl _)
      · exact h
  · rw [if_pos hp, decide_eq_true_iff]
    constructor
    · exact .inl
    · rintro (h | ⟨h, -⟩)
      · exact h
      · exact absurd h hp

/-! ## Keys in a record -/

/-- Where the data of a record begins: behind the key, at an even place. -/
def dataAt (r : Bytes) : ℕ := (r.getD 0 0#8).toNat + 1 + ((r.getD 0 0#8).toNat + 1) % 2

/-- The key of a record. -/
def keyOf (r : Bytes) : ℕ × Bytes := (get32 r 2, (r.drop 7).take (r.getD 6 0#8).toNat)

/-- The node that an index record points to. -/
def childOf (r : Bytes) : ℕ := get32 r (dataAt r)

/-- The bytes of a key in front of what fills it up. -/
def keyFront (kl : U8) (parent : ℕ) (name : Bytes) : Bytes :=
  [kl, 0#8] ++ be32 parent ++ [BitVec.ofNat 8 name.length] ++ name

theorem length_keyFront (kl : U8) (parent : ℕ) (name : Bytes) :
    (keyFront kl parent name).length = 7 + name.length := by
  rw [keyFront, List.length_append]
  rfl

theorem get32_lt (b : Bytes) (i : ℕ) : get32 b i < 2 ^ 32 := by
  have h₀ := (b.getD i 0#8).isLt
  have h₁ := (b.getD (i + 1) 0#8).isLt
  have h₂ := (b.getD (i + 2) 0#8).isLt
  have h₃ := (b.getD (i + 3) 0#8).isLt
  rw [get32]
  omega

theorem keyOf_keyFront {kl : U8} {parent : ℕ} {name X : Bytes} (hparent : parent < 2 ^ 32)
    (hname : name.length ≤ 31) : keyOf (keyFront kl parent name ++ X) = (parent, name) := by
  have hget := get32_append [kl, 0#8] ([BitVec.ofNat 8 name.length] ++ (name ++ X)) parent
  rw [Nat.mod_eq_of_lt hparent] at hget
  have hlen : (BitVec.ofNat 8 name.length).toNat = name.length := by
    rw [BitVec.toNat_ofNat]
    omega
  have hfront : keyFront kl parent name ++ X
      = [kl, 0#8] ++ (be32 parent ++ ([BitVec.ofNat 8 name.length] ++ (name ++ X))) := by
    simp only [keyFront, List.append_assoc]
  rw [keyOf, hfront]
  refine Prod.ext hget ?_
  show (name ++ X).take (BitVec.ofNat 8 name.length).toNat = name
  rw [hlen, List.take_left]

/-- What fills a key up leaves its data at an even place. -/
theorem evened_front {k : Bytes} {z : ℕ} (hk : k.length ≤ z) :
    evened (k ++ List.replicate (z - k.length) 0#8)
      = k ++ List.replicate (z + z % 2 - k.length) 0#8 := by
  have hlen : (k ++ List.replicate (z - k.length) 0#8).length = z := by
    rw [List.length_append, List.length_replicate]
    omega
  rw [evened, hlen]
  rcases Nat.mod_two_eq_zero_or_one z with heven | hodd
  · rw [heven, if_neg (by decide), Nat.add_zero]
  · rw [if_pos hodd, hodd, Nat.sub_add_comm hk, List.append_assoc, List.replicate_succ']

theorem keyBytes_front (parent : U32) {name : Bytes} (padFixed : Bool) (hname : name.length ≤ 31) :
    ∃ kl : U8, kl.toNat = (if padFixed then 37 else 6 + name.length)
      ∧ keyBytes parent name padFixed = keyFront kl parent.toNat name
        ++ List.replicate (kl.toNat + 1 + (kl.toNat + 1) % 2 - (7 + name.length)) 0#8 := by
  have hkl : (if padFixed then 37#8 else BitVec.ofNat 8 (6 + name.length)).toNat
      = if padFixed then 37 else 6 + name.length := by
    cases padFixed
    · rw [if_neg nofun, if_neg nofun, BitVec.toNat_ofNat]
      omega
    · rfl
  refine ⟨_, hkl, ?_⟩
  rw [← length_keyFront (if padFixed then 37#8 else BitVec.ofNat 8 (6 + name.length))
    parent.toNat name]
  refine evened_front (k := keyFront _ _ _) ?_
  rw [length_keyFront, hkl]
  split <;> omega

theorem length_keyBytes {parent : U32} {name : Bytes} {padFixed : Bool} (hname : name.length ≤ 31) :
    (keyBytes parent name padFixed).length = if padFixed then 38 else 8 + name.length / 2 * 2 := by
  obtain ⟨kl, hkl, hbytes⟩ := keyBytes_front parent padFixed hname
  rw [hbytes, List.length_append, length_keyFront, List.length_replicate, hkl]
  split <;> omega

theorem keyOf_keyBytes {parent : U32} {name X : Bytes} {padFixed : Bool}
    (hname : name.length ≤ 31) :
    keyOf (keyBytes parent name padFixed ++ X) = (parent.toNat, name) := by
  obtain ⟨kl, -, hbytes⟩ := keyBytes_front parent padFixed hname
  rw [hbytes, List.append_assoc]
  exact keyOf_keyFront parent.isLt hname

theorem keyOf_bytes {r : Rec} (hname : r.name.length ≤ 31) : keyOf r.bytes = r.key :=
  keyOf_keyBytes hname

theorem length_bytes {r : Rec} (hname : r.name.length ≤ 31) :
    r.bytes.length = 8 + r.name.length / 2 * 2 + r.payload.length := by
  rw [Rec.bytes, List.length_append, length_keyBytes hname]
  rfl

/-- A parent node has the key as it stands in front of the record. -/
theorem keyOf_take_bytes {r : Rec} (hname : r.name.length ≤ 31) :
    ∃ kl, r.bytes.head? = some kl ∧ keyOf (r.bytes.take (kl.toNat + 1)) = r.key := by
  obtain ⟨kl, hkl, hbytes⟩ := keyBytes_front r.parent false hname
  refine ⟨kl, ?_, ?_⟩
  · rw [Rec.bytes, hbytes]
    rfl
  · have hlen : kl.toNat + 1 = (keyFront kl r.parent.toNat r.name).length := by
      rw [length_keyFront, hkl, if_neg nofun]
      omega
    rw [Rec.bytes, hbytes, List.append_assoc, hlen, List.take_left, ← List.append_nil (keyFront _ _ _)]
    exact keyOf_keyFront r.parent.isLt hname

/-- The record that an index node has for a child. -/
def Child.record (c : Child) : Bytes := indexKey c.firstKey ++ be32 c.node

variable {c : Child}

theorem keyOf_record (hname : (keyOf c.firstKey).2.length ≤ 31) :
    keyOf c.record = keyOf c.firstKey := by
  have hget : (BitVec.ofNat 32 (get32 c.firstKey 2)).toNat = get32 c.firstKey 2 := by
    rw [BitVec.toNat_ofNat, Nat.mod_eq_of_lt (get32_lt _ _)]
  rw [Child.record, indexKey]
  exact (keyOf_keyBytes hname).trans (by rw [hget, keyOf])

theorem length_record (hname : (keyOf c.firstKey).2.length ≤ 31) : c.record.length = 42 := by
  rw [Child.record, List.length_append, indexKey]
  exact congrArg (· + 4) (length_keyBytes hname)

theorem childOf_record (hname : (keyOf c.firstKey).2.length ≤ 31) (hnode : c.node < 2 ^ 32) :
    childOf c.record = c.node := by
  have hread := get32_append (indexKey c.firstKey) [] c.node
  have hlen : (indexKey c.firstKey).length = 38 := length_keyBytes hname
  rw [List.append_nil, Nat.mod_eq_of_lt hnode, hlen] at hread
  obtain ⟨kl, hkl, hbytes⟩ := keyBytes_front (BitVec.ofNat 32 (get32 c.firstKey 2)) true hname
  have hat : dataAt c.record = 38 := by
    have hfirst : c.record.getD 0 0#8 = kl := by
      rw [Child.record, indexKey]
      exact congrArg (fun b : Bytes => (b ++ be32 c.node).getD 0 0#8) hbytes
    rw [dataAt, hfirst, hkl, if_pos rfl]
  rw [childOf, hat]
  exact hread

end Hfs

end OpenPowerMac
