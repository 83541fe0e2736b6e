/-
The catalog that `buildCatalogTree` builds holds every record once, in order, and a
search by `nameCompare` from the root finds it (`buildCatalogTree_spec`), for records
that are there, of keys that differ, in at most the 2048 nodes that the map of the header
has a bit for.
-/
import OpenPowerMac.HfsCatalog
import OpenPowerMac.HfsHeader

set_option autoImplicit false

namespace OpenPowerMac

namespace Hfs

open BStar

/-! ## The search -/

def keyCompare (a b : ℕ × Bytes) : Ordering :=
  if a.1 ≠ b.1 then (if a.1 < b.1 then .lt else .gt) else nameCompare a.2 b.2

theorem keyCompare_eq {a b : ℕ × Bytes} : keyCompare a b = .eq ↔ sortKey a = sortKey b := by
  rw [keyCompare, sortKey, sortKey, List.cons.injEq]
  by_cases hp : a.1 = b.1
  · rw [if_neg (not_not.mpr hp), nameCompare_eq]
    exact ⟨fun h => ⟨hp, h⟩, And.right⟩
  · rw [if_pos hp]
    constructor
    · intro h
      split at h <;> cases h
    · exact fun h => absurd h.1 hp

theorem keyCompare_lt {a b : ℕ × Bytes} : keyCompare a b = .lt ↔ sortKey a < sortKey b := by
  rw [keyCompare, sortKey, sortKey, List.cons_lt_cons_iff]
  by_cases hp : a.1 = b.1
  · rw [if_neg (not_not.mpr hp), nameCompare_lt]
    constructor
    · exact fun h => .inr ⟨hp, h⟩
    · rintro (h | ⟨-, h⟩)
      · exact absurd h (by rw [hp]; exact Nat.lt_irrefl _)
      · exact h
  · rw [if_pos hp]
    constructor
    · intro h
      split at h
      · next hlt => exact .inl hlt
      · cases h
    · rintro (h | ⟨h, -⟩)
      · rw [if_pos h]
      · exact absurd h hp

theorem keyCompare_gt {a b : ℕ × Bytes} : keyCompare a b ≠ .gt ↔ sortKey a ≤ sortKey b := by
  rw [le_iff_lt_or_eq, ← keyCompare_lt, ← keyCompare_eq]
  cases keyCompare a b <;> simp

/-- The search for a key from a node down: in a leaf the record of the key, in an index
node on through the last record that does not exceed it. -/
def search (ns : List Bytes) (k : ℕ × Bytes) : ℕ → ℕ → Option Bytes
  | 0, _ => none
  | h + 1, num => do
      let n ← ns[num]?
      if n.getD 8 0#8 = 0xFF#8 then (nodeRecs n).find? fun r => keyCompare (keyOf r) k = .eq
      else do
        let r ← ((nodeRecs n).takeWhile fun r => keyCompare (keyOf r) k ≠ .gt).getLast?
        search ns k h (childOf r)

theorem search_eq {ns : List Bytes} {k : ℕ × Bytes} {h : ℕ} : ∀ {num : ℕ},
    search ns k h num = lookup (nodeView ns) keyOf sortKey (sortKey k) h num := by
  induction h with
  | zero => exact rfl
  | succ h ih =>
      intro num
      have hle : (fun r => decide (keyCompare (keyOf r) k ≠ .gt))
          = fun r => decide (sortKey (keyOf r) ≤ sortKey k) :=
        funext fun r => decide_eq_decide.mpr keyCompare_gt
      rw [search, lookup, nodeView, hle]
      rcases ns[num]? with _ | n
      · rfl
      · rw [Option.bind_eq_bind, Option.bind_some, Option.map_some, viewOf]
        by_cases hleaf : n.getD 8 0#8 = 0xFF#8
        · rw [if_pos hleaf, if_pos hleaf]
          exact congrArg (fun p => (nodeRecs n).find? p)
            (funext fun r => decide_eq_decide.mpr keyCompare_eq)
        · rw [if_neg hleaf, if_neg hleaf]
          simp only [lastEntry, List.takeWhile_map, List.getLast?_map, ih, Option.map_map,
            Option.bind_map]
          rfl

/-! ## The order of the records -/

theorem sorted_mergeSort {recs : List Rec}
    (hdistinct : recs.Pairwise fun r r' => keyCompare r.key r'.key ≠ .eq) :
    (recs.mergeSort fun a b => !recLess b a).Pairwise fun r r' => recLess r r' = true := by
  have hle : ∀ a b : Rec, (!recLess b a) = true ↔ sortKey a.key ≤ sortKey b.key := by
    intro a b
    rw [Bool.not_eq_true', ← Bool.not_eq_true, recLess_iff, not_lt]
  have hsorted : (recs.mergeSort fun a b => !recLess b a).Pairwise
      fun a b => (!recLess b a) = true := List.pairwise_mergeSort
    (fun a b c hab hbc => (hle a c).mpr (le_trans ((hle a b).mp hab) ((hle b c).mp hbc)))
    (fun a b => by
      rw [Bool.or_eq_true, hle, hle]
      exact le_total _ _) recs
  have hne : (recs.mergeSort fun a b => !recLess b a).Pairwise
      fun r r' => keyCompare r.key r'.key ≠ .eq := by
    refine ((List.mergeSort_perm recs _).pairwise_iff ?_).mpr hdistinct
    intro a b h heq
    exact h (keyCompare_eq.mpr (keyCompare_eq.mp heq).symm)
  refine (hsorted.and hne).imp ?_
  rintro a b ⟨hab, hne⟩
  exact recLess_iff.mpr (lt_of_le_of_ne ((hle a b).mp hab) fun h => hne (keyCompare_eq.mpr h))

/-! ## The catalog -/

/-- What `buildCatalogTree` is for. -/
structure Catalog (recs : List Rec) (t : BTree) : Prop where
  header : ∃ hdr, t.nodes[0]? = some hdr ∧ Header t hdr
  nodes : ∀ n ∈ t.nodes, Holds n (nodeRecs n)
  leafRecs : t.leafRecs = recs.length
  leaves : ∃ rs : List Rec, rs.Perm recs ∧ rs.Pairwise (fun r r' => recLess r r' = true)
    ∧ leafWalk t.nodes t.lastLeaf 0 t.firstLeaf = some (rs.map Rec.bytes, t.lastLeaf)
    ∧ Spans (nodeView t.nodes) keyOf t.depth t.root (rs.map Rec.bytes)
  found : ∀ r ∈ recs, search t.nodes r.key t.depth t.root = some r.bytes
  missed : ∀ k, (∀ r ∈ recs, keyCompare r.key k ≠ .eq) → search t.nodes k t.depth t.root = none

/-- No node has room for 249 records. -/
theorem length_flatten_le : ∀ {gs : List (List Bytes)}, (∀ g ∈ gs, g ≠ [] ∧ Fits g) →
    gs.flatten.length ≤ 248 * gs.length
  | [], _ => Nat.le_refl _
  | g :: gs, h => by
      obtain ⟨⟨-, hfit⟩, hrest⟩ := List.forall_mem_cons.mp h
      have ih := length_flatten_le hrest
      rw [Fits] at hfit
      rw [List.flatten_cons, List.length_append, List.length_cons]
      omega

/-- The tree before its header is written. -/
structure Built (rs : List Rec) (t : BTree) : Prop where
  placeholder : t.nodes[0]? = some []
  nodes : ∀ i n, 0 < i → t.nodes[i]? = some n → Holds n (nodeRecs n)
  firstLeaf : t.firstLeaf = 1
  leafRecs : t.leafRecs = rs.length
  leaves : t.lastLeaf ≤ t.nodes.length ∧ t.leafRecs ≤ 248 * t.lastLeaf
  depth : t.depth ≤ t.nodes.length
  root : t.root < 2 ^ 32
  spans : Spans (nodeView t.nodes) keyOf t.depth t.root (rs.map Rec.bytes)
  walk : ∀ ns, Extends t.nodes ns →
    leafWalk ns t.lastLeaf 0 t.firstLeaf = some (rs.map Rec.bytes, t.lastLeaf)

theorem buildTree_spec {recs rs : List Rec} (hne : recs ≠ [])
    (hname : ∀ r ∈ recs, r.name.length ≤ 31) (hpayload : ∀ r ∈ recs, r.payload.length ≤ 456)
    (hrs : rs = recs.mergeSort fun a b => !recLess b a) :
    ∃ t, buildTree recs = some t ∧ (packLevel (rs.map Rec.bytes)).length < t.nodes.length
      ∧ (t.nodes.length ≤ 2 ^ 32 → Built rs t) := by
  have hperm : rs.Perm recs := hrs ▸ List.mergeSort_perm recs _
  have hfits : ∀ g ∈ packLevel (rs.map Rec.bytes), g ≠ [] ∧ Fits g := by
    refine packLevel_fits fun b hb => ?_
    obtain ⟨r, hr, rfl⟩ := List.mem_map.mp hb
    have hn := hname r (hperm.mem_iff.mp hr)
    have hp := hpayload r (hperm.mem_iff.mp hr)
    rw [Fits, total_cons, total_nil, length_bytes hn, List.length_singleton]
    omega
  have hflatten := packLevel_flatten (rs.map Rec.bytes)
  have hgroups : packLevel (rs.map Rec.bytes) ≠ [] := by
    intro hnil
    rw [hnil] at hflatten
    have hempty := List.map_eq_nil_iff.mp hflatten.symm
    rw [hempty] at hperm
    exact hne hperm.symm.eq_nil
  -- the leaves
  obtain ⟨ls, lps, hls, hsnd, hgs, hnames, hholds, hleaves⟩ :=
    leaves_spec 0 [[]] rfl hfits (fun g hg b hb => by
      have hmem : b ∈ rs.map Rec.bytes := hflatten ▸ List.mem_flatten.mpr ⟨g, hg, hb⟩
      obtain ⟨r, hr, rfl⟩ := List.mem_map.mp hmem
      exact ⟨r, hname r (hperm.mem_iff.mp hr), rfl⟩)
  have hlps : lps ≠ [] := by
    rintro rfl
    exact hgroups hgs.symm
  -- the index levels
  obtain ⟨ns, c, height, hlevels, hprefix, hheight, hholds', hroot⟩ :=
    indexLevels_spec (lps.map Prod.fst).length ([[]] ++ ls.map Prod.fst) 1 hlps
      (by rw [List.length_map]; omega) hnames
  have hbuild : buildTree recs = some ⟨ns, c.node, 1, 1 + (packLevel (rs.map Rec.bytes)).length - 1,
      (rs.map Rec.bytes).length, height⟩ := by
    rw [buildTree, ← hrs, hls, Option.bind_eq_bind, Option.bind_some]
    simp only [hsnd]
    rw [show ([] : Bytes) :: ls.map Prod.fst = [[]] ++ ls.map Prod.fst from rfl, hlevels]
    rfl
  have hleast := hprefix.length_le
  rw [List.length_append, List.length_map] at hleast hheight
  have hcount : ls.length = (packLevel (rs.map Rec.bytes)).length := by
    have hpairs := congrArg List.length hsnd
    rw [List.length_map, List.length_map] at hpairs
    rw [hpairs, ← hgs, List.length_map]
  have hone : ([[]] : List Bytes).length = 1 := rfl
  refine ⟨_, hbuild, show _ < ns.length by omega, fun hbound => ?_⟩
  have hbound : ns.length ≤ 2 ^ 32 := hbound
  obtain ⟨hok, hwalk⟩ := hleaves (by omega)
  have hc := hroot hbound hok
  have hrecs := length_flatten_le hfits
  rw [hflatten] at hrecs
  have hlast : 1 + (packLevel (rs.map Rec.bytes)).length - 1
      = (packLevel (rs.map Rec.bytes)).length := by omega
  refine ⟨?_, ?_, rfl, List.length_map _, ⟨?_, ?_⟩, ?_, hc.node, ?_, ?_⟩
  · obtain ⟨more, rfl⟩ := hprefix
    rfl
  · refine hholds' fun k b hk hb => ?_
    rw [List.getElem?_append_right hk] at hb
    exact hholds b (List.mem_of_getElem? hb)
  · show 1 + (packLevel (rs.map Rec.bytes)).length - 1 ≤ ns.length
    omega
  · show (rs.map Rec.bytes).length ≤ 248 * (1 + (packLevel (rs.map Rec.bytes)).length - 1)
    omega
  · show height ≤ ns.length
    omega
  · have hs := hc.spans
    rw [hgs, hflatten] at hs
    exact hs
  · intro ns' hext
    have hstart : Extends ([[]] ++ ls.map Prod.fst) ns' := by
      obtain ⟨more, rfl⟩ := hprefix
      exact (extends_append _ more).trans hext
    have hw := hwalk _ hstart hgroups
    rw [hflatten] at hw
    rw [Nat.zero_add, Nat.add_zero] at hw
    simp only [hlast]
    exact hw

/-- The header takes the place of the placeholder. -/
theorem extends_header {ns : List Bytes} (h : ns[0]? = some []) (hdr : Bytes) :
    Extends ns (ns.set 0 hdr) := by
  intro i n hi hn
  rcases i with _ | i
  · rw [h] at hi
    exact absurd (Option.some.inj hi).symm hn
  · rw [List.getElem?_set_ne (by omega), hi]

/-- A search sees the sorted records. -/
theorem search_spans {ns : List Bytes} {rs : List Rec} {height root : ℕ}
    (hname : ∀ r ∈ rs, r.name.length ≤ 31) (hsorted : rs.Pairwise fun r r' => recLess r r' = true)
    (hspans : Spans (nodeView ns) keyOf height root (rs.map Rec.bytes)) (k : ℕ × Bytes) :
    search ns k height root
      = (rs.map Rec.bytes).find? fun b => decide (sortKey (keyOf b) = sortKey k) := by
  rw [search_eq]
  refine (lookup_spans hspans ?_).trans (congrArg (fun p => (rs.map Rec.bytes).find? p)
    (funext fun b => decide_eq_decide.mpr Iff.rfl))
  rw [List.pairwise_map]
  refine hsorted.imp_of_mem ?_
  intro r r' hr hr' hlt
  rw [keyOf_bytes (hname r hr), keyOf_bytes (hname r' hr')]
  exact recLess_iff.mp hlt

theorem buildCatalogTree_spec {recs : List Rec} {fileNodes : ℕ} (hne : recs ≠ [])
    (hname : ∀ r ∈ recs, r.name.length ≤ 31) (hpayload : ∀ r ∈ recs, r.payload.length ≤ 456)
    (hdistinct : recs.Pairwise fun r r' => keyCompare r.key r'.key ≠ .eq)
    (hnodes : ∀ t, buildTree recs = some t → t.nodes.length ≤ 2048) :
    ∃ t, buildCatalogTree recs fileNodes = some t ∧ Catalog recs t := by
  obtain ⟨rs, hrs⟩ : ∃ rs, rs = recs.mergeSort fun a b => !recLess b a := ⟨_, rfl⟩
  have hperm : rs.Perm recs := hrs ▸ List.mergeSort_perm recs _
  have hsorted := sorted_mergeSort hdistinct
  rw [← hrs] at hsorted
  have hname' : ∀ r ∈ rs, r.name.length ≤ 31 := fun r hr => hname r (hperm.mem_iff.mp hr)
  obtain ⟨t, hbuild, -, hbuilt⟩ := buildTree_spec hne hname hpayload hrs
  have hlen := hnodes t hbuild
  have ht := hbuilt (by omega)
  obtain ⟨hleaves, hrecs⟩ := ht.leaves
  have hdepth := ht.depth
  obtain ⟨hdr, hhdr, hheader⟩ := headerNode_spec (t := t) fileNodes hlen (by omega) ht.root
    (by omega) (by rw [ht.firstLeaf]; decide) (by omega)
  -- the header is written last, over the place kept for it, and moves no other node
  have hext := extends_header ht.placeholder hdr
  have hpos : 0 < t.nodes.length := (List.getElem?_eq_some_iff.mp ht.placeholder).choose
  have hspans := hext.spans ht.spans
  have hsearch := search_spans hname' hsorted hspans
  refine ⟨{ t with nodes := t.nodes.set 0 hdr }, ?_, ?_, ?_, ?_, ?_, ?_, ?_⟩
  · rw [buildCatalogTree, hbuild, Option.bind_eq_bind, Option.bind_some, hhdr]
    rfl
  · refine ⟨hdr, ?_, hheader.type, hheader.holds, hheader.places, hheader.depth, hheader.root,
      hheader.leafRecs, hheader.firstLeaf, hheader.lastLeaf⟩
    exact List.getElem?_set_self hpos
  · intro n hn
    obtain ⟨i, hi⟩ := List.mem_iff_getElem?.mp hn
    have hi : (t.nodes.set 0 hdr)[i]? = some n := hi
    rcases i with _ | i
    · rw [List.getElem?_set_self hpos] at hi
      exact Option.some.inj hi ▸ hheader.holds
    · rw [List.getElem?_set_ne (by omega)] at hi
      exact ht.nodes (i + 1) n (by omega) hi
  · exact ht.leafRecs.trans hperm.length_eq
  · exact ⟨rs, hperm, hsorted, ht.walk _ hext, hspans⟩
  · intro r hr
    show search (t.nodes.set 0 hdr) r.key t.depth t.root = _
    rw [hsearch]
    have hmem := hperm.mem_iff.mpr hr
    obtain ⟨pre, post, hsplit⟩ := List.append_of_mem hmem
    -- the records before `r` in the order have a lesser key, so the search does not stop there
    have hfirst : ∀ b ∈ pre.map Rec.bytes, ¬ (decide (sortKey (keyOf b) = sortKey r.key)) = true := by
      intro b hb
      obtain ⟨r', hr', rfl⟩ := List.mem_map.mp hb
      rw [hsplit] at hsorted
      have hlt := recLess_iff.mp ((List.pairwise_append.mp hsorted).2.2 r' hr' r List.mem_cons_self)
      rw [keyOf_bytes (hname' r' (hsplit ▸ List.mem_append_left _ hr')), decide_eq_true_iff]
      exact ne_of_lt hlt
    rw [hsplit, List.map_append, List.find?_append, List.find?_eq_none.mpr hfirst, Option.none_or,
      List.map_cons, List.find?_cons_of_pos (by rw [keyOf_bytes (hname r hr), decide_eq_true_iff])]
  · intro k hk
    show search (t.nodes.set 0 hdr) k t.depth t.root = _
    rw [hsearch, List.find?_eq_none]
    intro b hb
    obtain ⟨r, hr, rfl⟩ := List.mem_map.mp hb
    rw [keyOf_bytes (hname' r hr), decide_eq_true_iff]
    exact fun heq => hk r (hperm.mem_iff.mp hr) (keyCompare_eq.mpr heq)

/-- Files of one folder, of names that fill the key, three to a leaf under one index node. -/
def twelveFiles : List Rec :=
  (List.range 12).map fun i =>
    ⟨2#32, BitVec.ofNat 8 (0x61 + i) :: List.replicate 30 0x2E#8, List.replicate 102 0#8⟩

theorem twelveFiles_catalog :
    ∃ t, buildCatalogTree twelveFiles 32 = some t ∧ Catalog twelveFiles t := by
  refine buildCatalogTree_spec (by decide) (by decide) (by decide) (by decide) ?_
  intro t ht
  -- the sort recurses on halves, which `decide` does not unfold
  have hsorted : twelveFiles.mergeSort (fun a b => !recLess b a) = twelveFiles :=
    List.mergeSort_of_pairwise (by decide)
  have hcount : (buildTree twelveFiles).map (fun t => (t.nodes.length, t.depth)) = some (6, 2) := by
    rw [buildTree, hsorted]
    decide +kernel
  rw [ht] at hcount
  have hlen : t.nodes.length = 6 := congrArg Prod.fst (Option.some.inj hcount)
  omega

/-! ## Too many records, and none -/

/-- A tree of more nodes than the map has bytes for is not built. -/
theorem buildCatalogTree_none {recs : List Rec} {fileNodes : ℕ} {t : BTree}
    (hbuild : buildTree recs = some t) (hlen : 2112 < t.nodes.length) :
    buildCatalogTree recs fileNodes = none := by
  obtain ⟨hfields, heq⟩ := headerNode_eq t fileNodes rfl
  obtain ⟨j, hj⟩ := Nat.exists_eq_add_of_le (Nat.succ_le_of_lt hlen)
  rw [hj, markNodes_none j hfields] at heq
  rw [buildCatalogTree, hbuild, Option.bind_eq_bind, Option.bind_some, heq]
  rfl

/-- A node has room for four records of files. -/
theorem length_flatten_files : ∀ {gs : List (List Bytes)}, (∀ g ∈ gs, g ≠ [] ∧ Fits g) →
    (∀ g ∈ gs, ∀ b ∈ g, b.length = 110) → gs.flatten.length ≤ 4 * gs.length
  | [], _, _ => Nat.le_refl _
  | g :: gs, h, hb => by
      obtain ⟨⟨-, hfit⟩, hrest⟩ := List.forall_mem_cons.mp h
      obtain ⟨hg, hbs⟩ := List.forall_mem_cons.mp hb
      have ih := length_flatten_files hrest hbs
      have htotal : total g = g.length * 110 := by
        rw [total, List.map_eq_replicate_iff.mpr hg, List.sum_replicate_nat]
      rw [Fits, htotal] at hfit
      rw [List.flatten_cons, List.length_append, List.length_cons]
      omega

/-- Records as of files, one in each of as many folders. -/
def manyFiles : List Rec :=
  (List.range 8448).map fun i => ⟨BitVec.ofNat 32 i, [], List.replicate 102 0#8⟩

theorem manyFiles_no_catalog : (∀ r ∈ manyFiles, r.name.length ≤ 31 ∧ r.payload.length = 102)
    ∧ manyFiles.Pairwise (fun r r' => keyCompare r.key r'.key ≠ .eq)
    ∧ buildCatalogTree manyFiles 2048 = none
    ∧ (buildCatalogTree [] 2048).map (fun t => t.nodes[t.firstLeaf]?) = some none := by
  have hfiles : ∀ r ∈ manyFiles, r.name.length ≤ 31 ∧ r.payload.length = 102 := by
    intro r hr
    obtain ⟨i, -, rfl⟩ := List.mem_map.mp hr
    exact ⟨Nat.zero_le _, List.length_replicate⟩
  have hcount : manyFiles.length = 8448 := by rw [manyFiles, List.length_map, List.length_range]
  refine ⟨hfiles, ?_, ?_, ?_⟩
  · rw [manyFiles, List.pairwise_map]
    refine List.pairwise_lt_range.imp_of_mem ?_
    intro i j hi hj hlt heq
    have hkey := keyCompare_eq.mp heq
    have hi := List.mem_range.mp hi
    have hj := List.mem_range.mp hj
    rw [Rec.key, Rec.key, sortKey, sortKey, List.cons.injEq, BitVec.toNat_ofNat, BitVec.toNat_ofNat]
      at hkey
    omega
  · obtain ⟨rs, hrs⟩ : ∃ rs, rs = manyFiles.mergeSort fun a b => !recLess b a := ⟨_, rfl⟩
    have hperm : rs.Perm manyFiles := hrs ▸ List.mergeSort_perm manyFiles _
    have hne : manyFiles ≠ [] := by
      intro h
      rw [h] at hcount
      cases hcount
    obtain ⟨t, hbuild, hlt, -⟩ := buildTree_spec hne (fun r hr => (hfiles r hr).1)
      (fun r hr => by rw [(hfiles r hr).2]; decide) hrs
    refine buildCatalogTree_none hbuild ?_
    have hflatten := packLevel_flatten (rs.map Rec.bytes)
    have hsize : ∀ b ∈ rs.map Rec.bytes, b.length = 110 := by
      intro b hb
      obtain ⟨r, hr, rfl⟩ := List.mem_map.mp hb
      obtain ⟨i, -, rfl⟩ := List.mem_map.mp (hperm.mem_iff.mp hr)
      rw [length_bytes (Nat.zero_le _), List.length_replicate, List.length_nil]
    have hfour := length_flatten_files (packLevel_fits fun b hb => by
        rw [Fits, total_cons, total_nil, hsize b hb, List.length_singleton]
        decide)
      (fun g hg b hb => hsize b (hflatten ▸ List.mem_flatten.mpr ⟨g, hg, hb⟩))
    rw [hflatten, List.length_map, hperm.length_eq, hcount] at hfour
    omega
  · rw [buildCatalogTree, buildTree, List.mergeSort_nil]
    decide +kernel

end Hfs

end OpenPowerMac
