/-
The catalog tree of an HFS volume, from `machine/src/hfs.cpp`.

A node is built in 512 bytes that come zeroed. A write that would leave them gives
`none`, what the code must not do. A count or an offset is a natural number; it is cut
to the width of the field where it is stored. `std::sort` is a merge sort: for distinct
keys any sort gives the same list.
-/
import OpenPowerMac.Word
import Mathlib.Data.List.Basic

set_option autoImplicit false

namespace OpenPowerMac

namespace Hfs

abbrev Bytes : Type := List U8

/-! ## Names -/

/-- `foldByte`. -/
def foldByte (c : U8) : U8 := if 0x61#8 ≤ c ∧ c ≤ 0x7A#8 then c - 32#8 else c

/-- `nameCompare`, as an ordering. -/
def nameCompare : Bytes → Bytes → Ordering
  | [], [] => .eq
  | [], _ :: _ => .lt
  | _ :: _, [] => .gt
  | a :: as, b :: bs =>
      if foldByte a ≠ foldByte b then (if foldByte a < foldByte b then .lt else .gt)
      else nameCompare as bs

/-! ## Records -/

/-- `Rec`: a catalog record, key and payload. -/
structure Rec where
  parent : U32
  name : Bytes
  payload : Bytes
  deriving DecidableEq

def be16 (v : ℕ) : Bytes := [BitVec.ofNat 8 (v >>> 8), BitVec.ofNat 8 v]

def be32 (v : ℕ) : Bytes :=
  [BitVec.ofNat 8 (v >>> 24), BitVec.ofNat 8 (v >>> 16), BitVec.ofNat 8 (v >>> 8), BitVec.ofNat 8 v]

/-- A byte more where there is an odd number. -/
def evened (k : Bytes) : Bytes := if k.length % 2 = 1 then k ++ [0#8] else k

/-- `keyBytes`. -/
def keyBytes (parent : U32) (name : Bytes) (padFixed : Bool) : Bytes :=
  let kl : U8 := if padFixed then 37#8 else BitVec.ofNat 8 (6 + name.length)
  let k := [kl, 0#8] ++ be32 parent.toNat ++ [BitVec.ofNat 8 name.length] ++ name
  evened (k ++ List.replicate (kl.toNat + 1 - k.length) 0#8)

/-- A record as a leaf holds it. -/
def Rec.bytes (r : Rec) : Bytes := keyBytes r.parent r.name false ++ r.payload

/-! ## Nodes -/

/-- Bytes over what is there. -/
def write (n : Bytes) (at_ : ℕ) (bs : Bytes) : Option Bytes :=
  if at_ + bs.length ≤ n.length then some (n.take at_ ++ bs ++ n.drop (at_ + bs.length)) else none

/-- The loop of `makeNode` over the records. -/
def placeRecs : List Bytes → ℕ → ℕ → Bytes → Option Bytes
  | [], at_, offSlot, n => write n offSlot (be16 at_)
  | r :: rs, at_, offSlot, n => do
      let n ← write n offSlot (be16 at_)
      let n ← write n at_ r
      placeRecs rs (at_ + r.length) (offSlot - 2) n

/-- `makeNode`. -/
def makeNode (type height : U8) (recs : List Bytes) (fLink bLink : ℕ) : Option Bytes := do
  let n := List.replicate 512 0#8
  let n ← write n 0 (be32 fLink)
  let n ← write n 4 (be32 bLink)
  let n ← write n 8 [type]
  let n ← write n 9 [height]
  let n ← write n 10 (be16 recs.length)
  placeRecs recs 14 (512 - 2) n

/-- The loop of `packLevel`. -/
def packFrom : List Bytes → List Bytes → ℕ → List (List Bytes)
  | [], cur, _ => if cur ≠ [] then [cur] else []
  | r :: rs, cur, used =>
      if cur ≠ [] ∧ 512 < 14 + used + r.length + 2 * (cur.length + 2) then
        cur :: packFrom rs [r] r.length
      else packFrom rs (cur ++ [r]) (used + r.length)

/-- `packLevel`. -/
def packLevel (recs : List Bytes) : List (List Bytes) := packFrom recs [] 0

/-! ## The tree -/

/-- `BTree`. -/
structure BTree where
  nodes : List Bytes
  root : ℕ
  firstLeaf : ℕ
  lastLeaf : ℕ
  leafRecs : ℕ
  depth : ℕ

/-- `Child`. -/
structure Child where
  node : ℕ
  firstKey : Bytes

/-- The order of the records. -/
def recLess (a b : Rec) : Bool :=
  if a.parent ≠ b.parent then a.parent < b.parent else nameCompare a.name b.name = .lt

/-- `get32`. -/
def get32 (b : Bytes) (at_ : ℕ) : ℕ :=
  (b.getD at_ 0#8).toNat * 2 ^ 24 + (b.getD (at_ + 1) 0#8).toNat * 2 ^ 16
    + (b.getD (at_ + 2) 0#8).toNat * 2 ^ 8 + (b.getD (at_ + 3) 0#8).toNat

/-- The key that an index level has for a child. -/
def indexKey (firstKey : Bytes) : Bytes :=
  keyBytes (BitVec.ofNat 32 (get32 firstKey 2)) ((firstKey.drop 7).take (firstKey.getD 6 0#8).toNat) true

/-- The loop over the groups of leaf records, from leaf `i` on. -/
def leaves : ℕ → List (List Bytes) → Option (List (Bytes × Child))
  | _, [] => some []
  | i, g :: gs => do
      let num := 1 + i
      let n ← makeNode 0xFF#8 1#8 g (if gs ≠ [] then num + 1 else 0) (if i ≠ 0 then num - 1 else 0)
      let fr ← g.head?
      let kl ← fr.head?
      let rest ← leaves (i + 1) gs
      some ((n, ⟨num, fr.take (kl.toNat + 1)⟩) :: rest)

/-- The loop over the groups of an index level: node numbers go on from `num`, and
`level` is what the groups are still to cover. -/
def indexNodes (height : U8) : ℕ → List (List Bytes) → List Child → Option (List (Bytes × Child))
  | _, [], _ => some []
  | num, g :: gs, level => do
      let n ← makeNode 0#8 height g 0 0
      let c ← level.head?
      let rest ← indexNodes height (num + 1) gs (level.drop g.length)
      some ((n, ⟨num, c.firstKey⟩) :: rest)

/-- `while (level.size() > 1)`; each turn leaves fewer. -/
def indexLevels : ℕ → List Bytes → List Child → ℕ → Option (List Bytes × List Child × ℕ)
  | 0, nodes, level, height => if 1 < level.length then none else some (nodes, level, height)
  | n + 1, nodes, level, height =>
      if 1 < level.length then do
        let height := height + 1
        let idxRecs := level.map fun c => indexKey c.firstKey ++ be32 c.node
        let next ← indexNodes (BitVec.ofNat 8 height) nodes.length (packLevel idxRecs) level
        indexLevels n (nodes ++ next.map Prod.fst) (next.map Prod.snd) height
      else some (nodes, level, height)

/-- The tree before its header is written; node 0 is a placeholder. -/
def buildTree (recs : List Rec) : Option BTree := do
  let sorted := recs.mergeSort fun a b => !recLess b a
  let leafRecs := sorted.map Rec.bytes
  let leafGroups := packLevel leafRecs
  let ls ← leaves 0 leafGroups
  let level := ls.map Prod.snd
  let (nodes, level, height) ← indexLevels level.length ([] :: ls.map Prod.fst) level 1
  some
    { nodes
      root := match level.head? with
        | none => 0
        | some c => c.node
      firstLeaf := 1
      lastLeaf := 1 + leafGroups.length - 1
      leafRecs := leafRecs.length
      depth := height }

/-- The marks of the nodes in use. -/
def markNodes : ℕ → Bytes → Option Bytes
  | 0, hdr => some hdr
  | n + 1, hdr => do
      let hdr ← markNodes n hdr
      let b ← hdr[248 + n / 8]?
      write hdr (248 + n / 8) [b ||| (0x80#8 >>> (n % 8))]

/-- The header node. -/
def headerNode (t : BTree) (fileNodes : ℕ) : Option Bytes := do
  let hdr := List.replicate 512 0#8
  let hdr ← write hdr 8 [1#8]
  let hdr ← write hdr 10 (be16 3)
  let hdr ← write hdr 510 (be16 14)
  let hdr ← write hdr 508 (be16 120)
  let hdr ← write hdr 506 (be16 248)
  let hdr ← write hdr 504 (be16 504)
  -- the B-tree's header record: depth, root, leaves, sizes, node counts
  let hdr ← write hdr 14 (be16 t.depth)
  let hdr ← write hdr 16 (be32 t.root)
  let hdr ← write hdr 20 (be32 t.leafRecs)
  let hdr ← write hdr 24 (be32 t.firstLeaf)
  let hdr ← write hdr 28 (be32 t.lastLeaf)
  let hdr ← write hdr 32 (be16 512)
  let hdr ← write hdr 34 (be16 37)
  let hdr ← write hdr 36 (be32 fileNodes)
  let hdr ← write hdr 40 (be32 (fileNodes + 2 ^ 32 - t.nodes.length))
  markNodes t.nodes.length hdr

/-- `buildCatalogTree`. -/
def buildCatalogTree (recs : List Rec) (fileNodes : ℕ) : Option BTree := do
  let t ← buildTree recs
  let hdr ← headerNode t fileNodes
  some { t with nodes := t.nodes.set 0 hdr }

end Hfs

end OpenPowerMac
