/-
The reservation for the catalog is large enough.

The nodes are reserved before the tree is built, from a count of the bytes of its records. A
node that is closed is full but for less than the largest record (`length_packFrom_le_weight`),
an index level has about a tenth of the nodes below it (`indexLevels_count`), and so the tree
has fewer nodes than `catNodesUB` (`reserved`). The count is cut to 32 bits, which tells only
for more items than there are catalog numbers (`manyItems_outgrow`).
-/
import OpenPowerMac.HfsBuild
import OpenPowerMac.HfsFind

set_option autoImplicit false

namespace OpenPowerMac

namespace Hfs

/-! ## A level -/

/-- The bytes that records take in a node, their offsets with them. -/
def weight (recs : List Bytes) : ℕ := total recs + 2 * recs.length

theorem weight_cons (r : Bytes) (rs : List Bytes) : weight (r :: rs) = r.length + 2 + weight rs := by
  rw [weight, weight, total_cons, List.length_cons]
  omega

theorem weight_append (rs rs' : List Bytes) : weight (rs ++ rs') = weight rs + weight rs' := by
  rw [weight, weight, weight, total_append, List.length_append]
  omega

/-- A node is closed when the next record does not fit it any more. -/
theorem length_packFrom_le_weight {m : ℕ} {rs : List Bytes} : ∀ (cur : List Bytes),
    (∀ r ∈ rs, r.length + m ≤ 495) →
    m * (packFrom rs cur (total cur)).length ≤ weight cur + weight rs + m := by
  induction rs with
  | nil =>
      intro cur _
      rw [packFrom]
      split
      · rw [List.length_singleton, Nat.mul_one]
        exact Nat.le_add_left _ _
      · rw [List.length_nil, Nat.mul_zero]
        exact Nat.zero_le _
  | cons r rs ih =>
      intro cur hsmall
      obtain ⟨hr, hrest⟩ := List.forall_mem_cons.mp hsmall
      have hone : total [r] = r.length := by rw [total_cons, total_nil, Nat.add_zero]
      rw [packFrom, weight_cons]
      split
      · next hfull =>
        have hrec := ih [r] hrest
        rw [hone, weight_cons, weight, total_nil, List.length_nil] at hrec
        have hclosed : 497 ≤ weight cur + (r.length + 2) := by
          rw [weight]
          omega
        rw [List.length_cons, Nat.mul_add, Nat.mul_one]
        omega
      · have hrec := ih (cur ++ [r]) hrest
        rw [total_append, hone, weight_append, weight_cons, weight, weight, total_nil,
          List.length_nil] at hrec
        rw [weight]
        omega

/-! ## The index levels -/

theorem length_indexNodes {height : U8} {gs : List (List Bytes)} : ∀ {num : ℕ} {level : List Child}
    {next : List (Bytes × Child)}, indexNodes height num gs level = some next →
    next.length = gs.length ∧ ∀ p ∈ next, ∃ c ∈ level, p.2.firstKey = c.firstKey := by
  induction gs with
  | nil =>
      intro num level next h
      cases h
      exact ⟨rfl, nofun⟩
  | cons g gs ih =>
      intro num level next h
      rw [indexNodes] at h
      obtain ⟨n, -, h⟩ := Option.bind_eq_some_iff.mp h
      obtain ⟨c, hc, h⟩ := Option.bind_eq_some_iff.mp h
      obtain ⟨rest, hrest, h⟩ := Option.bind_eq_some_iff.mp h
      cases h
      obtain ⟨hlen, hkeys⟩ := ih hrest
      refine ⟨congrArg (· + 1) hlen, List.forall_mem_cons.mpr ⟨⟨c, List.mem_of_head? hc, rfl⟩, ?_⟩⟩
      intro p hp
      obtain ⟨c', hc', hkey⟩ := hkeys p hp
      exact ⟨c', List.mem_of_mem_drop hc', hkey⟩

/-- An index record has 42 bytes, and so a level has about a tenth of the nodes below it. -/
theorem length_packLevel_records {level : List Child}
    (hname : ∀ c ∈ level, (keyOf c.firstKey).2.length ≤ 31) :
    453 * (packLevel (level.map Child.record)).length ≤ 44 * level.length + 453 := by
  have hsize : ∀ b ∈ level.map Child.record, b.length = 42 := by
    intro b hb
    obtain ⟨c, hc, rfl⟩ := List.mem_map.mp hb
    exact length_record (hname c hc)
  have hweight : weight (level.map Child.record) = 44 * level.length := by
    rw [weight, total, List.map_eq_replicate_iff.mpr hsize, List.sum_replicate_nat, List.length_map]
    omega
  have hpack := length_packFrom_le_weight (m := 453) []
    (fun r hr => by rw [hsize r hr])
  rw [total_nil, hweight, weight, total_nil, List.length_nil] at hpack
  rw [packLevel]
  omega

/-- The nodes above a level: none above one node, one above a few, an eighth in general. -/
structure Above (n above : ℕ) : Prop where
  one : n = 1 → above = 0
  few : 2 ≤ n → n ≤ 7 → above = 1
  any : 8 * above ≤ n + 16

theorem Above.turn {n next above : ℕ} (hn : 2 ≤ n) (hpos : 0 < next)
    (hnext : 453 * next ≤ 44 * n + 453) (h : Above next above) : Above n (next + above) where
  one heq := by omega
  few _ _ := by
    have hone : next = 1 := by omega
    rw [hone, h.one hone]
  any := by
    have hone := h.one
    have hfew := h.few
    have hany := h.any
    rcases Nat.lt_or_ge n 72 with hsmall | hlarge
    · -- no more than seven nodes stand above these
      by_cases hnext₁ : next = 1
      · have habove := hone hnext₁
        omega
      · have habove := hfew (by omega) (by omega)
        omega
    · omega

theorem indexLevels_count (fuel : ℕ) : ∀ {ns ns' : List Bytes} {level level' : List Child}
    {height height' : ℕ}, level ≠ [] → (∀ c ∈ level, (keyOf c.firstKey).2.length ≤ 31) →
    indexLevels fuel ns level height = some (ns', level', height') →
    ∃ above, ns'.length = ns.length + above ∧ Above level.length above := by
  induction fuel with
  | zero =>
      intro ns ns' level level' height height' hne _ h
      rw [indexLevels] at h
      split at h
      · cases h
      · cases h
        have hpos := List.length_pos_of_ne_nil hne
        exact ⟨0, rfl, fun _ => rfl, by omega, by omega⟩
  | succ fuel ih =>
      intro ns ns' level level' height height' hne hname h
      have hpos := List.length_pos_of_ne_nil hne
      rw [indexLevels] at h
      split at h
      · next hmore =>
        obtain ⟨next, hnext, h⟩ := Option.bind_eq_some_iff.mp h
        obtain ⟨hlen, hkeys⟩ := length_indexNodes hnext
        have hpack : 453 * next.length ≤ 44 * level.length + 453 := hlen ▸ length_packLevel_records hname
        have hnext₀ : next ≠ [] := by
          rintro rfl
          have hflatten := packLevel_flatten (level.map Child.record)
          have hnil : packLevel (level.map Child.record) = [] := List.length_eq_zero_iff.mp hlen.symm
          rw [hnil] at hflatten
          exact hne (List.map_eq_nil_iff.mp hflatten.symm)
        obtain ⟨above, hns, habove⟩ := ih (fun hnil => hnext₀ (List.map_eq_nil_iff.mp hnil))
          (fun c hc => by
            obtain ⟨p, hp, rfl⟩ := List.mem_map.mp hc
            obtain ⟨c', hc', hkey⟩ := hkeys p hp
            rw [hkey]
            exact hname c' hc') h
        rw [List.length_append, List.length_map] at hns
        rw [List.length_map] at habove
        exact ⟨next.length + above, by omega,
          habove.turn hmore (List.length_pos_of_ne_nil hnext₀) hpack⟩
      · cases h
        exact ⟨0, rfl, fun _ => rfl, by omega, by omega⟩

/-! ## The tree -/

/-- What the records of a leaf level take. -/
def recWeight (r : Rec) : ℕ := 8 + r.name.length + r.payload.length + 4

theorem weight_bytes {rs : List Rec} (hname : ∀ r ∈ rs, r.name.length ≤ 31) :
    weight (rs.map Rec.bytes) + 2 * rs.length ≤ (rs.map recWeight).sum := by
  induction rs with
  | nil => exact Nat.le_refl _
  | cons r rs ih =>
      obtain ⟨hr, hrest⟩ := List.forall_mem_cons.mp hname
      have hrec := ih hrest
      rw [List.map_cons, List.map_cons, List.sum_cons, weight_cons, length_bytes hr, List.length_cons,
        recWeight]
      omega

/-- The nodes of a tree, header and index levels and all. -/
theorem buildTree_count {recs : List Rec} {t : BTree} (hne : recs ≠ [])
    (hname : ∀ r ∈ recs, r.name.length ≤ 31) (hpayload : ∀ r ∈ recs, r.payload.length ≤ 102)
    (ht : buildTree recs = some t) :
    t.nodes.length ≤ ((recs.map recWeight).sum + 479) / 480 * 2 + 8 := by
  obtain ⟨rs, hrs⟩ : ∃ rs, rs = recs.mergeSort fun a b => !recLess b a := ⟨_, rfl⟩
  have hperm : rs.Perm recs := hrs ▸ List.mergeSort_perm recs _
  have hname' : ∀ r ∈ rs, r.name.length ≤ 31 := fun r hr => hname r (hperm.mem_iff.mp hr)
  have hsum : (rs.map recWeight).sum = (recs.map recWeight).sum := (hperm.map recWeight).sum_nat
  have hsmall : ∀ b ∈ rs.map Rec.bytes, b.length + 355 ≤ 495 := by
    intro b hb
    obtain ⟨r, hr, rfl⟩ := List.mem_map.mp hb
    have hn := hname' r hr
    have hp := hpayload r (hperm.mem_iff.mp hr)
    rw [length_bytes hn]
    omega
  -- the leaves
  have hleaves := length_packFrom_le_weight [] hsmall
  have hweight := weight_bytes hname'
  rw [total_nil, weight, total_nil, List.length_nil] at hleaves
  have hflatten := packLevel_flatten (rs.map Rec.bytes)
  have hfits : ∀ g ∈ packLevel (rs.map Rec.bytes), g ≠ [] ∧ Fits g := by
    refine packLevel_fits fun b hb => ?_
    have hb := hsmall b hb
    rw [Fits, total_cons, total_nil, List.length_singleton]
    omega
  obtain ⟨ls, lps, hls, hsnd, hgs, hnames, -, -⟩ :=
    leaves_spec 0 [[]] rfl hfits (fun g hg b hb => by
      have hmem : b ∈ rs.map Rec.bytes := hflatten ▸ List.mem_flatten.mpr ⟨g, hg, hb⟩
      obtain ⟨r, hr, rfl⟩ := List.mem_map.mp hmem
      exact ⟨r, hname' r hr, rfl⟩)
  have hcount : ls.length = (packLevel (rs.map Rec.bytes)).length := by
    have hpairs := congrArg List.length hsnd
    rw [List.length_map, List.length_map] at hpairs
    rw [hpairs, ← hgs, List.length_map]
  have hlevel : ls.map Prod.snd ≠ [] := by
    intro hnil
    rw [List.map_eq_nil_iff.mp hnil] at hcount
    rw [List.length_eq_zero_iff.mp hcount.symm] at hflatten
    have hempty := List.map_eq_nil_iff.mp hflatten.symm
    rw [hempty] at hperm
    exact hne hperm.symm.eq_nil
  -- the index levels
  rw [buildTree, ← hrs, hls, Option.bind_eq_bind, Option.bind_some] at ht
  obtain ⟨⟨ns, level, height⟩, hlevels, ht⟩ := Option.bind_eq_some_iff.mp ht
  cases ht
  obtain ⟨above, hns, habove⟩ := indexLevels_count _ hlevel
    (fun c hc => by
      rw [hsnd] at hc
      obtain ⟨p, hp, rfl⟩ := List.mem_map.mp hc
      exact hnames p hp) hlevels
  have hany := habove.any
  rw [List.length_cons, List.length_map] at hns
  rw [List.length_map] at hany
  show ns.length ≤ _
  rw [packLevel] at hcount
  omega

/-- A tree of no more nodes than the map has bits for is given its header. -/
theorem buildCatalogTree_some {recs : List Rec} {t : BTree} (hne : recs ≠ [])
    (hname : ∀ r ∈ recs, r.name.length ≤ 31) (hpayload : ∀ r ∈ recs, r.payload.length ≤ 456)
    (ht : buildTree recs = some t) (hlen : t.nodes.length ≤ 2048) (fileNodes : ℕ) :
    ∃ t', buildCatalogTree recs fileNodes = some t' ∧ t'.nodes.length = t.nodes.length := by
  obtain ⟨t', hbuild, -, hbuilt⟩ := buildTree_spec hne hname hpayload rfl
  rw [ht] at hbuild
  cases hbuild
  have hok := hbuilt (by omega)
  obtain ⟨hleaves, hrecs⟩ := hok.leaves
  have hdepth := hok.depth
  obtain ⟨hdr, hhdr, -⟩ := headerNode_spec (t := t) fileNodes hlen (by omega) hok.root
    (by omega) (by rw [hok.firstLeaf]; decide) (by omega)
  refine ⟨{ t with nodes := t.nodes.set 0 hdr }, ?_, List.length_set⟩
  rw [buildCatalogTree, ht, Option.bind_eq_bind, Option.bind_some, hhdr]
  rfl

/-! ## The records -/

theorem length_dirRecord (parent : U32) (name : Bytes) (cnid crDate mdDate : U32) (valence : ℕ) :
    (dirRecord parent name cnid crDate mdDate valence).payload.length = 70 := rfl

theorem length_threadRecord (cnid parent : U32) {name : Bytes} (hname : name.length ≤ 31) :
    (threadRecord cnid parent name).payload.length = 46 := by
  simp only [threadRecord, be32, List.length_append, List.length_cons, List.length_nil,
    List.length_replicate]
  omega

theorem length_fileRecord (abSize : ℕ) (now : U32) (p : Placed) :
    (fileRecord abSize now p).payload.length ≤ 102 := by
  have hextent : ∀ start blocks : U16, (extent start blocks).length = 4 := by
    intro start blocks
    rw [extent]
    split <;> rfl
  simp only [fileRecord, be16, be32, hextent, List.length_append, List.length_cons, List.length_nil,
    List.length_replicate, List.length_take]
  omega

theorem length_volumeName (volName : Bytes) : (volumeName volName).length ≤ 27 := by
  rw [volumeName, List.length_take]
  exact Nat.min_le_left _ _

variable {volName : Bytes} {now : U32} {items : List Found} {abSize : ℕ} {placed : List Placed}

/-- The records of the folders have the sizes that the estimate takes them to have. -/
theorem dirRecords_small (hnames : ∀ it ∈ items, it.mac.length ≤ 31) :
    ∀ r ∈ dirRecords volName now items, r.name.length ≤ 31 ∧ r.payload.length ≤ 102 := by
  have hvol := length_volumeName volName
  intro r hr
  rcases List.mem_append.mp hr with hr | hr
  · rcases List.mem_cons.mp hr with rfl | hr
    · exact ⟨hvol.trans (by decide), (length_dirRecord _ _ _ _ _ _).trans_le (by decide)⟩
    · rw [List.mem_singleton.mp hr]
      exact ⟨Nat.zero_le _, (length_threadRecord _ _ (hvol.trans (by decide))).trans_le (by decide)⟩
  · obtain ⟨it, hit, hr⟩ := List.mem_flatMap.mp hr
    have hmac := hnames it (List.mem_of_mem_filter hit)
    rcases List.mem_cons.mp hr with rfl | hr
    · exact ⟨hmac, (length_dirRecord _ _ _ _ _ _).trans_le (by decide)⟩
    · rw [List.mem_singleton.mp hr]
      exact ⟨Nat.zero_le _, (length_threadRecord _ _ hmac).trans_le (by decide)⟩

theorem place_files {fs : List Found} : ∀ {n last : ℕ} {ps : List Placed},
    place abSize fs n = some (ps, last) → ps.map Placed.file = fs := by
  induction fs with
  | nil =>
      intro n last ps h
      cases h
      rfl
  | cons f fs ih =>
      intro n last ps h
      rw [place] at h
      dsimp only at h
      split at h
      · cases h
      · obtain ⟨⟨qs, last'⟩, hrest, h⟩ := Option.bind_eq_some_iff.mp h
        cases h
        rw [List.map_cons, ih hrest]

/-- What the catalog has. -/
theorem catalogRecs_small (volName : Bytes) (now : U32) (abSize : ℕ)
    (hnames : ∀ it ∈ items, it.mac.length ≤ 31)
    (hplaced : placed.map Placed.file = filesOf items) :
    ∀ r ∈ catalogRecs volName now items abSize placed, r.name.length ≤ 31 ∧ r.payload.length ≤ 102 := by
  intro r hr
  rcases List.mem_append.mp hr with hr | hr
  · exact dirRecords_small hnames r hr
  · obtain ⟨p, hp, rfl⟩ := List.mem_map.mp hr
    have hfile : p.file ∈ filesOf items := hplaced ▸ List.mem_map_of_mem hp
    exact ⟨hnames p.file (List.mem_of_mem_filter hfile), length_fileRecord abSize now p⟩

/-- The estimate counts every record. -/
theorem catalogRecs_weight (volName : Bytes) (now : U32) (abSize : ℕ)
    (hplaced : placed.map Placed.file = filesOf items) :
    ((catalogRecs volName now items abSize placed).map recWeight).sum
      ≤ recBytesUB volName now items := by
  have hfiles : ∀ ps : List Placed, ((ps.map (fileRecord abSize now)).map recWeight).sum
      ≤ ((ps.map Placed.file).map fun it => 8 + it.mac.length + 102 + 4).sum := by
    intro ps
    induction ps with
    | nil => exact Nat.le_refl _
    | cons p ps ih =>
        have hlen := length_fileRecord abSize now p
        simp only [List.map_cons, List.sum_cons]
        refine Nat.add_le_add ?_ ih
        show 8 + p.file.mac.length + (fileRecord abSize now p).payload.length + 4 ≤ _
        omega
  rw [catalogRecs, List.map_append, List.sum_append, recBytesUB, ← hplaced]
  exact Nat.add_le_add_left (hfiles placed) _

/-- No item is counted with more than 171 bytes. -/
theorem recBytesUB_le (volName : Bytes) (now : U32) (hnames : ∀ it ∈ items, it.mac.length ≤ 31) :
    recBytesUB volName now items ≤ 171 * items.length + 171 := by
  have hitems : ∀ (valence : Found → ℕ) (its : List Found), (∀ it ∈ its, it.mac.length ≤ 31) →
      ((((its.filter fun it => it.isDir).flatMap fun it =>
          [dirRecord it.parent it.mac it.cnid it.crDate it.mdDate (valence it),
            threadRecord it.cnid it.parent it.mac]).map recWeight).sum
        + ((its.filter fun it => !it.isDir).map fun it => 8 + it.mac.length + 102 + 4).sum)
      ≤ 171 * its.length := by
    intro valence its
    induction its with
    | nil => exact fun _ => Nat.le_refl _
    | cons it its ih =>
        intro hall
        obtain ⟨hmac, hrest⟩ := List.forall_mem_cons.mp hall
        have hrec := ih hrest
        have hthread := length_threadRecord it.cnid it.parent hmac
        have hdirName : (dirRecord it.parent it.mac it.cnid it.crDate it.mdDate (valence it)).name
            = it.mac := rfl
        have hthreadName : (threadRecord it.cnid it.parent it.mac).name = [] := rfl
        -- a folder is weighed with its thread record, a file alone with the longer payload
        simp only [List.filter_cons, List.length_cons]
        cases it.isDir with
        | true =>
            simp only [if_true, Bool.not_true, List.flatMap_cons, List.map_append, List.sum_append,
              List.map_cons, List.map_nil, List.sum_cons, List.sum_nil, recWeight, length_dirRecord,
              hthread, hdirName, hthreadName, List.length_nil, Bool.false_eq_true, if_false]
            omega
        | false =>
            simp only [Bool.not_false, if_true, List.map_cons, List.sum_cons, Bool.false_eq_true,
              if_false]
            omega
  have hvol := length_volumeName volName
  have hroot := length_threadRecord 2#32 1#32 (hvol.trans (by decide))
  have hsum := hitems (fun it => valence items it.cnid) items hnames
  have hfront : (([dirRecord 1#32 (volumeName volName) 2#32 now now (valence items 2#32),
      threadRecord 2#32 1#32 (volumeName volName)]).map recWeight).sum ≤ 171 := by
    simp only [List.map_cons, List.map_nil, List.sum_cons, List.sum_nil, recWeight, length_dirRecord,
      hroot]
    show 8 + (volumeName volName).length + 70 + 4 + (8 + 0 + 46 + 4 + 0) ≤ 171
    omega
  rw [recBytesUB, dirRecords, List.map_append, List.sum_append]
  have hall := Nat.add_le_add hfront hsum
  refine Nat.le_trans (Nat.le_of_eq ?_) (hall.trans (Nat.le_of_eq (Nat.add_comm _ _)))
  exact Nat.add_assoc _ _ _

/-! ## The reservation -/

/-- What the reservation owes the tree: the nodes that it is built of are among those reserved,
none of the free nodes of its header is missing, and the map of 256 bytes has a bit for each. -/
structure Reserved (volName : Bytes) (now : U32) (items : List Found) (abSize : ℕ)
    (placed : List Placed) : Prop where
  nodes : ∃ t, buildTree (catalogRecs volName now items abSize placed) = some t
    ∧ t.nodes.length ≤ catNodesUB volName now items
    ∧ t.nodes.length ≤ catFileNodes volName now items abSize
  mapped : catFileNodes volName now items abSize ≤ 2048 →
    ∃ t, buildCatalogTree (catalogRecs volName now items abSize placed)
        (catFileNodes volName now items abSize) = some t
      ∧ t.nodes.length ≤ catNodesUB volName now items ∧ ∀ i < t.nodes.length, i / 8 < 256

/-- A block size is 512 bytes, doubled up to the width of its variable. -/
theorem blockSize_bounds {totalBytes abSize : ℕ} (h : blockSize totalBytes = some abSize) :
    512 ≤ abSize ∧ abSize ≤ 2 ^ 31 := by
  obtain ⟨k, hk, rfl⟩ := List.mem_map.mp (List.mem_of_find?_eq_some h)
  have hlow : 2 ^ 0 ≤ 2 ^ k := Nat.pow_le_pow_right (by decide) (Nat.zero_le k)
  have hhigh : 2 ^ k ≤ 2 ^ 22 :=
    Nat.pow_le_pow_right (by decide) (Nat.le_of_lt_succ (List.mem_range.mp hk))
  omega

/-- Whole blocks have room for the nodes. -/
theorem blocksFor_room {abSize n : ℕ} (hlow : 512 ≤ abSize) (hhigh : abSize ≤ 2 ^ 31)
    (hn : n ≤ 3 * 2 ^ 30) :
    n * 512 ≤ blocksFor abSize (n * 512) * abSize
      ∧ n ≤ blocksFor abSize (n * 512) * abSize / 512 % 2 ^ 32 := by
  have hdiv := Nat.div_add_mod (n * 512 + abSize - 1) abSize
  have hmod := Nat.mod_lt (n * 512 + abSize - 1) (show 0 < abSize by omega)
  have hle : n * 512 ≤ n * abSize := Nat.mul_le_mul_left n hlow
  have hfew : (n * 512 + abSize - 1) / abSize < n + 1 := by
    rw [Nat.div_lt_iff_lt_mul (by omega), Nat.succ_mul]
    omega
  rw [blocksFor, Nat.mod_eq_of_lt (show (n * 512 + abSize - 1) / abSize < 2 ^ 32 by omega)]
  rw [Nat.mul_comm] at hdiv
  omega

/-- The count keeps to its 32 bits for as many items as there are catalog numbers. -/
theorem catNodesUB_eq (volName : Bytes) (now : U32) (hitems : items.length < 2 ^ 32)
    (hnames : ∀ it ∈ items, it.mac.length ≤ 31) :
    catNodesUB volName now items = (recBytesUB volName now items + 479) / 480 * 2 + 8
      ∧ catNodesUB volName now items ≤ 3 * 2 ^ 30 := by
  have hle := recBytesUB_le volName now hnames
  rw [catNodesUB]
  omega

theorem reserved_placed (volName : Bytes) (now : U32) (hitems : items.length < 2 ^ 32)
    (hnames : ∀ it ∈ items, it.mac.length ≤ 31) (hlow : 512 ≤ abSize) (hhigh : abSize ≤ 2 ^ 31)
    (hplaced : placed.map Placed.file = filesOf items) :
    Reserved volName now items abSize placed := by
  have hsmall := catalogRecs_small volName now abSize hnames hplaced
  have hweight := catalogRecs_weight volName now abSize hplaced
  have hne : catalogRecs volName now items abSize placed ≠ [] := List.cons_ne_nil _ _
  obtain ⟨hcount, hbound⟩ := catNodesUB_eq volName now hitems hnames
  have hroom : catNodesUB volName now items ≤ catFileNodes volName now items abSize :=
    (blocksFor_room hlow hhigh hbound).2
  have hpayload : ∀ r ∈ catalogRecs volName now items abSize placed, r.payload.length ≤ 456 :=
    fun r hr => (hsmall r hr).2.trans (by decide)
  obtain ⟨t, ht, -, -⟩ := buildTree_spec hne (fun r hr => (hsmall r hr).1) hpayload rfl
  have hnodes := buildTree_count hne (fun r hr => (hsmall r hr).1) (fun r hr => (hsmall r hr).2) ht
  have hub : t.nodes.length ≤ catNodesUB volName now items := by omega
  refine ⟨⟨t, ht, hub, hub.trans hroom⟩, fun hmap => ?_⟩
  obtain ⟨t', ht', hlen⟩ := buildCatalogTree_some hne (fun r hr => (hsmall r hr).1) hpayload ht
    (by omega) (catFileNodes volName now items abSize)
  exact ⟨t', ht', by omega, fun i hi => by omega⟩

/-- Forks are refused for what cannot be read. -/
theorem copyForks_error {ps : List Placed} : ∀ {e : BuildError}, copyForks ps = .error e →
    ∃ name, e = .readFailed name ∨ e = .rsrcReadFailed name := by
  induction ps with
  | nil => exact nofun
  | cons p ps ih =>
      intro e h
      rw [copyForks] at h
      dsimp only at h
      split at h
      · cases h
        exact ⟨_, .inl rfl⟩
      · split at h
        · cases h
          exact ⟨_, .inr rfl⟩
        · cases hcopy : copyForks ps with
          | error e' =>
              rw [hcopy] at h
              cases h
              exact ih hcopy
          | ok forks =>
              rw [hcopy] at h
              cases h

/-- **The reservation is large enough**, for as many items as there are catalog numbers: the
build does not leave the map, and it never refuses for want of nodes. -/
theorem reserved (limits : HfsLimits) (volName : Bytes) (now : U32) (writable : Bool)
    (items : List Found) (totalBytes abSize : ℕ) (hitems : items.length < 2 ^ 32)
    (hnames : ∀ it ∈ items, it.mac.length ≤ 31) (habs : blockSize totalBytes = some abSize) :
    (∀ n placed last, place abSize (filesOf items) n = some (placed, last) →
        Reserved volName now items abSize placed)
      ∧ ∃ r, layOut limits volName now writable items abSize = some r
        ∧ r ≠ .error .outgrewReservation := by
  obtain ⟨hlow, hhigh⟩ := blockSize_bounds habs
  have hall : ∀ n placed last, place abSize (filesOf items) n = some (placed, last) →
      Reserved volName now items abSize placed :=
    fun n placed last hplace => reserved_placed volName now hitems hnames hlow hhigh (place_files hplace)
  refine ⟨hall, ?_⟩
  have hroom := (blocksFor_room hlow hhigh (catNodesUB_eq volName now hitems hnames).2).1
  unfold layOut
  dsimp only
  split
  case h_1 => exact ⟨_, rfl, nofun⟩
  next placed last hplace =>
  have hres := hall _ placed last hplace
  split
  case isTrue => exact ⟨_, rfl, nofun⟩
  next hmap =>
  obtain ⟨t, ht, hub, -⟩ := hres.mapped (not_lt.mp hmap)
  rw [ht]
  dsimp only
  rw [if_neg (show ¬ t.nodes.length * 512 > catBlocks volName now items abSize * abSize by
    rw [catBlocks]
    omega)]
  split
  case isTrue => exact ⟨_, rfl, nofun⟩
  split
  case isTrue => exact ⟨_, rfl, nofun⟩
  refine ⟨_, rfl, fun h => ?_⟩
  cases hcopy : copyForks placed with
  | error e =>
      rw [hcopy] at h
      cases h
      obtain ⟨name, h | h⟩ := copyForks_error hcopy <;> cases h
  | ok forks =>
      rw [hcopy] at h
      cases h

/-- An empty file in the root. -/
def emptyFile : Found where
  cnid := 16#32
  parent := 2#32
  mac := [0x41#8]
  hostName := [0x41#8]
  bytes := []
  rsrc := []

/-- A folder, with a text of 700 bytes and an application of two forks in it, and an empty file
beside it. -/
def someItems : List Found :=
  [{ cnid := 16#32, parent := 2#32, isDir := true, mac := ascii "Documents"
     hostName := ascii "Documents", bytes := [], rsrc := [] },
    { cnid := 17#32, parent := 16#32, mac := ascii "Read Me", hostName := ascii "Read Me.txt"
      dataLen := 700#64, bytes := List.replicate 700 0x20#8, rsrc := [] },
    { cnid := 18#32, parent := 16#32, mac := ascii "SimpleText of many letters, 30"
      hostName := ascii "SimpleText", dataLen := 8#64, rsrcLen := 40#64
      bytes := ascii "Joy!peff", rsrc := List.replicate 40 0x52#8 },
    { emptyFile with cnid := 19#32 }]

theorem someItems_reserved :
    (∀ n placed last, place 512 (filesOf someItems) n = some (placed, last) →
        Reserved (ascii "Drop") 0#32 someItems 512 placed)
      ∧ ∃ r, layOut {} (ascii "Drop") 0#32 true someItems 512 = some r
        ∧ r ≠ .error .outgrewReservation :=
  reserved {} (ascii "Drop") 0#32 true someItems 748 512 (by decide) (by decide) (by decide)

/-! ## More items than numbers -/

/-- As many empty files. -/
def emptyFiles (n : ℕ) : List Found := List.replicate n emptyFile

theorem filesOf_emptyFiles (n : ℕ) : filesOf (emptyFiles n) = emptyFiles n :=
  List.filter_eq_self.mpr fun it hit => by rw [List.eq_of_mem_replicate hit]; rfl

theorem dirRecords_emptyFiles (n : ℕ) :
    ((dirRecords [] 0#32 (emptyFiles n)).map recWeight).sum = 140 := by
  have hnone : (emptyFiles n).filter (fun it => it.isDir) = [] :=
    List.filter_eq_nil_iff.mpr fun it hit => by rw [List.eq_of_mem_replicate hit]; exact nofun
  rw [dirRecords, hnone]
  rfl

theorem recBytesUB_emptyFiles (n : ℕ) : recBytesUB [] 0#32 (emptyFiles n) = 140 + 115 * n := by
  rw [recBytesUB, filesOf_emptyFiles, emptyFiles, List.map_replicate, List.sum_replicate_nat]
  refine congrArg₂ (· + ·) (dirRecords_emptyFiles n) ?_
  rw [Nat.mul_comm]
  rfl

/-- Files without bytes are placed, however many there are. -/
theorem place_emptyFiles {start : ℕ} (hstart : start ≤ 65000) (n : ℕ) :
    ∃ placed, place 512 (emptyFiles n) start = some (placed, start) := by
  induction n with
  | zero => exact ⟨[], rfl⟩
  | succ n ih =>
      obtain ⟨placed, hplaced⟩ := ih
      have hfit : ¬ start + 0 + 0 > 65000 := by omega
      have hfirst : place 512 (emptyFiles (n + 1)) start
          = if start + 0 + 0 > 65000 then none
            else (place 512 (emptyFiles n) (start + 0 + 0)).bind fun p =>
              some (⟨emptyFile, BitVec.ofNat 16 start, 0#16, BitVec.ofNat 16 (start + 0), 0#16⟩ :: p.1,
                p.2) :=
        rfl
      rw [hfirst, if_neg hfit, Nat.add_zero, hplaced]
      exact ⟨_, rfl⟩

/-- The tree over many files has a node for every 248 of them. -/
theorem emptyFiles_nodes {n : ℕ} {placed : List Placed}
    (hplaced : placed.map Placed.file = emptyFiles n) :
    ∃ t, buildTree (catalogRecs [] 0#32 (emptyFiles n) 512 placed) = some t
      ∧ n ≤ 248 * t.nodes.length := by
  have hfiles : placed.map Placed.file = filesOf (emptyFiles n) := by rw [filesOf_emptyFiles, hplaced]
  have hnames : ∀ it ∈ emptyFiles n, it.mac.length ≤ 31 := by
    intro it hit
    rw [List.eq_of_mem_replicate hit]
    decide
  have hsmall := catalogRecs_small [] 0#32 512 hnames hfiles
  obtain ⟨rs, hrs⟩ : ∃ rs, rs = (catalogRecs [] 0#32 (emptyFiles n) 512 placed).mergeSort
    fun a b => !recLess b a := ⟨_, rfl⟩
  have hperm : rs.Perm (catalogRecs [] 0#32 (emptyFiles n) 512 placed) :=
    hrs ▸ List.mergeSort_perm _ _
  obtain ⟨t, ht, hleaves, -⟩ := buildTree_spec (List.cons_ne_nil _ _) (fun r hr => (hsmall r hr).1)
    (fun r hr => (hsmall r hr).2.trans (by decide)) hrs
  refine ⟨t, ht, ?_⟩
  have hcount : n ≤ rs.length := by
    have hlen := congrArg List.length hplaced
    rw [List.length_map, emptyFiles, List.length_replicate] at hlen
    rw [hperm.length_eq, catalogRecs, List.length_append, List.length_map]
    omega
  have hfits := length_flatten_le (packLevel_fits fun b hb => by
    obtain ⟨r, hr, rfl⟩ := List.mem_map.mp hb
    have hr := hsmall r (hperm.mem_iff.mp hr)
    rw [Fits, total_cons, total_nil, length_bytes hr.1, List.length_singleton]
    omega)
  rw [packLevel_flatten, List.length_map] at hfits
  omega

/-- Where the count leaves two nodes for more files than the map has room for, the build leaves
the map. -/
theorem emptyFiles_leave {n : ℕ} (hub : catNodesUB [] 0#32 (emptyFiles n) = 2) (hn : 2112 * 248 < n) :
    catFileNodes [] 0#32 (emptyFiles n) 512 ≤ 2048
      ∧ (∃ placed last t, place 512 (filesOf (emptyFiles n)) 3 = some (placed, last)
        ∧ buildTree (catalogRecs [] 0#32 (emptyFiles n) 512 placed) = some t
        ∧ catNodesUB [] 0#32 (emptyFiles n) < t.nodes.length)
      ∧ layOut {} [] 0#32 true (emptyFiles n) 512 = none := by
  have hblocks : catBlocks [] 0#32 (emptyFiles n) 512 = 2 := by
    rw [catBlocks, hub]
    rfl
  have hroom : catFileNodes [] 0#32 (emptyFiles n) 512 = 2 := by
    rw [catFileNodes, hblocks]
    rfl
  obtain ⟨placed, hplace⟩ := place_emptyFiles (show 3 ≤ 65000 by decide) n
  obtain ⟨t, ht, hnodes⟩ := emptyFiles_nodes (place_files hplace)
  refine ⟨by omega, ⟨placed, 3, t, ?_, ht, by omega⟩, ?_⟩
  · rw [filesOf_emptyFiles, hplace]
  · have hstart : (catBlocks [] 0#32 (emptyFiles n) 512 + blocksFor 512 512) % 2 ^ 32 = 3 := by
      rw [hblocks]
      rfl
    unfold layOut
    dsimp only
    rw [hstart, filesOf_emptyFiles, hplace, hroom]
    dsimp only
    rw [if_neg (by decide), buildCatalogTree_none ht (by omega)]

/-- **The count wraps**: for 8963409992 files it leaves two nodes, and the build leaves the map. -/
theorem emptyFiles_outgrow : (∀ it ∈ emptyFiles 8963409992, it.mac.length ≤ 31)
    ∧ catNodesUB [] 0#32 (emptyFiles 8963409992) = 2
    ∧ catFileNodes [] 0#32 (emptyFiles 8963409992) 512 ≤ 2048
    ∧ (∃ placed last t, place 512 (filesOf (emptyFiles 8963409992)) 3 = some (placed, last)
      ∧ buildTree (catalogRecs [] 0#32 (emptyFiles 8963409992) 512 placed) = some t
      ∧ catNodesUB [] 0#32 (emptyFiles 8963409992) < t.nodes.length)
    ∧ layOut {} [] 0#32 true (emptyFiles 8963409992) 512 = none := by
  have hub : catNodesUB [] 0#32 (emptyFiles 8963409992) = 2 := by
    rw [catNodesUB, recBytesUB_emptyFiles]
    norm_num
  refine ⟨fun it hit => ?_, hub, emptyFiles_leave hub (by decide)⟩
  rw [List.eq_of_mem_replicate hit]
  decide

end Hfs

end OpenPowerMac
