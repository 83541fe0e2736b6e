/-
The catalog tree that `buildCatalogTree` builds.

The leaves hold the sorted records in groups; each index level has a node for a group of
the nodes below, with their first keys. `ChildOk` says this of one node of the level last
built, and a turn of the loop keeps it (`indexNodes_spec`), until one node is left.
-/
import OpenPowerMac.BStar
import OpenPowerMac.HfsKeys

set_option autoImplicit false

namespace OpenPowerMac

namespace Hfs

open BStar

/-! ## The nodes as a tree -/

/-- A node as a search sees it. -/
def viewOf (n : Bytes) : View Bytes (ℕ × Bytes) :=
  if n.getD 8 0#8 = 0xFF#8 then .leaf (nodeRecs n)
  else .index ((nodeRecs n).map fun r => (keyOf r, childOf r))

def nodeView (ns : List Bytes) (num : ℕ) : Option (View Bytes (ℕ × Bytes)) := ns[num]?.map viewOf

/-- Nodes that go on, the placeholder for the header aside. -/
def Extends (ns ns' : List Bytes) : Prop :=
  ∀ (i : ℕ) (n : Bytes), ns[i]? = some n → n ≠ [] → ns'[i]? = some n

theorem Extends.trans {ns ns' ns'' : List Bytes} (h : Extends ns ns') (h' : Extends ns' ns'') :
    Extends ns ns'' :=
  fun i n hi hne => h' i n (h i n hi hne) hne

theorem extends_append (ns more : List Bytes) : Extends ns (ns ++ more) := by
  intro i n hi _
  obtain ⟨hlt, -⟩ := List.getElem?_eq_some_iff.mp hi
  rw [List.getElem?_append_left hlt, hi]

theorem Extends.spans {ns ns' : List Bytes} (h : Extends ns ns') {height num : ℕ}
    {rs : List Bytes} (hs : Spans (nodeView ns) keyOf height num rs) :
    Spans (nodeView ns') keyOf height num rs := by
  refine hs.mono ?_
  intro i v hv hne
  obtain ⟨n, hn, rfl⟩ := Option.map_eq_some_iff.mp hv
  have hn' : n ≠ [] := fun hempty => hne (by rw [hempty]; rfl)
  rw [nodeView, h i n hn hn', Option.map_some]

/-- What is known of a node of the level last built, with the records below it. -/
structure ChildOk (ns : List Bytes) (height : ℕ) (c : Child) (rs : List Bytes) : Prop where
  spans : Spans (nodeView ns) keyOf height c.node rs
  first : rs.head?.map keyOf = some (keyOf c.firstKey)
  name : (keyOf c.firstKey).2.length ≤ 31
  node : c.node < 2 ^ 32

theorem ChildOk.extends {ns ns' : List Bytes} {height : ℕ} {c : Child} {rs : List Bytes}
    (hc : ChildOk ns height c rs) (h : Extends ns ns') : ChildOk ns' height c rs where
  spans := h.spans hc.spans
  first := hc.first
  name := hc.name
  node := hc.node

/-! ## An index level -/

/-- A node over a group of nodes. -/
theorem ChildOk.index {ns : List Bytes} {height num : ℕ} {ht : U8} {c : Child} {rs : List Bytes}
    {lps : List (Child × List Bytes)} (hok : ∀ p ∈ (c, rs) :: lps, ChildOk ns height p.1 p.2)
    (hfit : Fits ((((c, rs) :: lps).map Prod.fst).map Child.record)) (hnum : num < 2 ^ 32)
    (hnode : ns[num]? = some (nodeBytes 0#8 ht ((((c, rs) :: lps).map Prod.fst).map Child.record) 0 0)) :
    ChildOk ns (height + 1) ⟨num, c.firstKey⟩ ((((c, rs) :: lps).map Prod.snd).flatten) := by
  have hc := hok (c, rs) List.mem_cons_self
  have hrecords := nodeRecs_nodeBytes 0#8 ht 0 0 hfit
  -- the records of the node, read back, are the entries for the children
  have hview : nodeView ns num = some (.index ((((c, rs) :: lps).map
      fun p => ((keyOf p.1.firstKey, p.1.node), p.2)).map Prod.fst)) := by
    rw [nodeView, hnode, Option.map_some, viewOf, type_nodeBytes, if_neg (by decide), hrecords,
      List.map_map, List.map_map, List.map_map]
    refine congrArg (fun es => some (View.index es)) (List.map_congr_left ?_)
    intro p hp
    exact Prod.ext (keyOf_record (hok p hp).name) (childOf_record (hok p hp).name (hok p hp).node)
  have hspans := Spans.index (h := height) hview (List.cons_ne_nil _ _)
    (by
      intro q hq
      obtain ⟨p, hp, rfl⟩ := List.mem_map.mp hq
      exact (hok p hp).first)
    (by
      intro q hq
      obtain ⟨p, hp, rfl⟩ := List.mem_map.mp hq
      exact (hok p hp).spans)
  rw [List.map_map] at hspans
  refine ⟨hspans, ?_, hc.name, hnum⟩
  obtain ⟨r, hr, hkey⟩ := Option.map_eq_some_iff.mp hc.first
  rw [List.map_cons, List.flatten_cons, List.head?_append, hr, Option.some_or, Option.map_some, hkey]

theorem indexNodes_spec (ht : U8) (height : ℕ) {gs : List (List Bytes)} :
    ∀ (ns : List Bytes) {lps : List (Child × List Bytes)},
    gs.flatten = (lps.map Prod.fst).map Child.record → (∀ g ∈ gs, g ≠ [] ∧ Fits g) →
    ∃ (next : List (Bytes × Child)) (lps' : List (Child × List Bytes)),
      indexNodes ht ns.length gs (lps.map Prod.fst) = some next
      ∧ next.map Prod.snd = lps'.map Prod.fst ∧ lps'.length = gs.length
      ∧ (lps'.map Prod.snd).flatten = (lps.map Prod.snd).flatten
      ∧ (∀ p' ∈ lps', ∃ p ∈ lps, p'.1.firstKey = p.1.firstKey)
      ∧ (∀ n ∈ next.map Prod.fst, Holds n (nodeRecs n))
      ∧ (ns.length + gs.length ≤ 2 ^ 32 → (∀ p ∈ lps, ChildOk ns height p.1 p.2) →
        ∀ p' ∈ lps', ChildOk (ns ++ next.map Prod.fst) (height + 1) p'.1 p'.2) := by
  induction gs with
  | nil =>
      intro ns lps hgs _
      have hnil : lps = [] := List.map_eq_nil_iff.mp (List.map_eq_nil_iff.mp hgs.symm)
      subst hnil
      exact ⟨[], [], rfl, rfl, rfl, rfl, nofun, nofun, fun _ _ => nofun⟩
  | cons g gs ih =>
      intro ns lps hgs hgroups
      obtain ⟨⟨hne, hfit⟩, hrest⟩ := List.forall_mem_cons.mp hgroups
      rw [List.flatten_cons, List.map_map] at hgs
      obtain ⟨lps₁, lps₂, rfl, rfl, hgs₂⟩ := List.map_eq_append_iff.mp hgs.symm
      rw [← List.map_map] at hfit hgs₂
      obtain ⟨⟨c, rs⟩, lps₁, rfl⟩ : ∃ p lps, lps₁ = p :: lps :=
        List.exists_cons_of_ne_nil fun h => hne (List.map_eq_nil_iff.mpr h)
      obtain ⟨n, hn⟩ : ∃ n, n = nodeBytes 0#8 ht ((((c, rs) :: lps₁).map Prod.fst).map
        Child.record) 0 0 := ⟨_, rfl⟩
      obtain ⟨next, lps', hnext, hsnd, hlen, hflat, hkeys, hholds, hok⟩ :=
        ih (ns ++ [n]) hgs₂.symm hrest
      rw [List.length_append, List.length_singleton] at hnext
      have hmake := makeNode_eq 0#8 ht 0 0 hfit
      rw [← hn, List.map_map] at hmake
      -- the children of this node are the first ones; the rest are for the nodes to come
      have hdrop : ((((c, rs) :: lps₁ ++ lps₂).map Prod.fst).drop
          ((((c, rs) :: lps₁).map (Child.record ∘ Prod.fst)).length)) = lps₂.map Prod.fst := by
        rw [List.map_append, List.length_map]
        exact List.drop_left' (List.length_map _)
      have hnodes : ns ++ ((n, (⟨ns.length, c.firstKey⟩ : Child)) :: next).map Prod.fst
          = ns ++ [n] ++ next.map Prod.fst := by
        rw [List.map_cons, List.append_assoc, List.singleton_append]
      refine ⟨(n, ⟨ns.length, c.firstKey⟩) :: next,
        (⟨ns.length, c.firstKey⟩, (((c, rs) :: lps₁).map Prod.snd).flatten) :: lps', ?_, ?_, ?_, ?_,
        ?_, ?_, ?_⟩
      · rw [indexNodes, hdrop, hmake, hnext]
        rfl
      · rw [List.map_cons, List.map_cons, hsnd]
      · rw [List.length_cons, List.length_cons, hlen]
      · rw [List.map_cons, List.flatten_cons, hflat, List.map_append, List.flatten_append]
      · intro p' hp'
        rcases List.mem_cons.mp hp' with rfl | hp'
        · exact ⟨(c, rs), List.mem_append_left _ List.mem_cons_self, rfl⟩
        · obtain ⟨p, hp, hkey⟩ := hkeys p' hp'
          exact ⟨p, List.mem_append_right _ hp, hkey⟩
      · rw [List.map_cons]
        exact List.forall_mem_cons.mpr ⟨holds_nodeRecs hfit hn, hholds⟩
      · intro hbound hall p' hp'
        rw [List.length_cons] at hbound
        rw [hnodes]
        have hext : Extends ns (ns ++ [n]) := extends_append _ _
        rcases List.mem_cons.mp hp' with rfl | hp'
        · have hnode : (ns ++ [n])[ns.length]? = some n := by
            rw [List.getElem?_append_right (Nat.le_refl _), Nat.sub_self]
            rfl
          rw [hn] at hnode
          refine ChildOk.extends ?_ (extends_append (ns ++ [n]) (next.map Prod.fst))
          rw [hn]
          exact ChildOk.index
            (fun p hp => (hall p (List.mem_append_left _ hp)).extends (hn ▸ hext)) hfit
            (by omega) hnode
        · refine hok ?_ (fun p hp => (hall p (List.mem_append_right _ hp)).extends hext) p' hp'
          rw [List.length_append, List.length_singleton]
          omega

/-- The records of a level fit, two to a node. -/
theorem fits_records {c c' : Child} (h : (keyOf c.firstKey).2.length ≤ 31)
    (h' : (keyOf c'.firstKey).2.length ≤ 31) : Fits [c.record, c'.record] ∧ Fits [c.record] := by
  rw [Fits, Fits, total_cons, total_cons, total_cons, total_nil, length_record h, length_record h']
  simp only [List.length_cons, List.length_nil]
  omega

/-- The loop ends with one node, over all the records. -/
theorem indexLevels_spec (fuel : ℕ) : ∀ (ns : List Bytes) {lps : List (Child × List Bytes)}
    (height : ℕ), lps ≠ [] → lps.length ≤ fuel + 1 →
    (∀ p ∈ lps, (keyOf p.1.firstKey).2.length ≤ 31) →
    ∃ (ns' : List Bytes) (c : Child) (height' : ℕ),
      indexLevels fuel ns (lps.map Prod.fst) height = some (ns', [c], height')
      ∧ ns <+: ns' ∧ height' + ns.length ≤ height + ns'.length
      ∧ ((∀ i n, 0 < i → ns[i]? = some n → Holds n (nodeRecs n)) →
        ∀ i n, 0 < i → ns'[i]? = some n → Holds n (nodeRecs n))
      ∧ (ns'.length ≤ 2 ^ 32 → (∀ p ∈ lps, ChildOk ns height p.1 p.2) →
        ChildOk ns' height' c (lps.map Prod.snd).flatten) := by
  induction fuel with
  | zero =>
      intro ns lps height hne hlen _
      obtain ⟨p, rfl⟩ : ∃ p, lps = [p] := by
        refine List.length_eq_one_iff.mp ?_
        have hpos := List.length_pos_of_ne_nil hne
        omega
      refine ⟨ns, p.1, height, rfl, List.prefix_refl _, Nat.le_refl _, id, fun _ hok => ?_⟩
      rw [List.map_singleton, List.flatten_singleton]
      exact hok p List.mem_cons_self
  | succ fuel ih =>
      intro ns lps height hne hlen hname
      rcases lps with _ | ⟨p, _ | ⟨q, lps⟩⟩
      · exact absurd rfl hne
      · refine ⟨ns, p.1, height, rfl, List.prefix_refl _, Nat.le_refl _, id, fun _ hok => ?_⟩
        rw [List.map_singleton, List.flatten_singleton]
        exact hok p List.mem_cons_self
      · -- two nodes or more: a level above them, of fewer
        have hp := hname p List.mem_cons_self
        have hq := hname q (List.mem_cons_of_mem _ List.mem_cons_self)
        have hfits : ∀ g ∈ packLevel (((p :: q :: lps).map Prod.fst).map Child.record),
            g ≠ [] ∧ Fits g := by
          refine packLevel_fits fun r hr => ?_
          obtain ⟨c, hc, rfl⟩ := List.mem_map.mp hr
          obtain ⟨p', hp', rfl⟩ := List.mem_map.mp hc
          exact (fits_records (hname p' hp') (hname p' hp')).2
        have hfewer := length_packLevel_lt ((lps.map Prod.fst).map Child.record)
          (fits_records hp hq).1
        obtain ⟨next, lps', hnext, hsnd, hlen', hflat, hkeys, hholds, hok⟩ :=
          indexNodes_spec (BitVec.ofNat 8 (height + 1)) height ns
            (packLevel_flatten _) hfits
        have hne' : lps' ≠ [] := by
          rintro rfl
          have hnil := List.length_eq_zero_iff.mp hlen'.symm
          have hflatten := packLevel_flatten (((p :: q :: lps).map Prod.fst).map Child.record)
          rw [hnil] at hflatten
          cases hflatten
        have hless : lps'.length < (p :: q :: lps).length := by
          rw [hlen']
          refine Nat.lt_of_lt_of_le hfewer ?_
          rw [List.length_cons, List.length_cons, List.length_map, List.length_map]
          exact Nat.le_refl _
        obtain ⟨ns', c, height', hlevels, hprefix, hheight, hholds', hdone⟩ :=
          ih (ns ++ next.map Prod.fst) (height + 1) hne' (by omega)
            (fun p' hp' => by
              obtain ⟨p₀, hp₀, hkey⟩ := hkeys p' hp'
              rw [hkey]
              exact hname p₀ hp₀)
        rw [← hsnd] at hlevels
        have hle := hprefix.length_le
        rw [List.length_append, List.length_map] at hle hheight
        have hpos := List.length_pos_of_ne_nil hne'
        have hmade : next.length = (packLevel (((p :: q :: lps).map Prod.fst).map
            Child.record)).length := by
          have hpairs := congrArg List.length hsnd
          rw [List.length_map, List.length_map] at hpairs
          rw [hpairs, hlen']
        refine ⟨ns', c, height', ?_, (List.prefix_append _ _).trans hprefix, by omega,
          fun hall => hholds' ?_, fun hbound hall => ?_⟩
        · rw [indexLevels, if_pos (by rw [List.length_map, List.length_cons, List.length_cons]; omega)]
          show (indexNodes (BitVec.ofNat 8 (height + 1)) ns.length
            (packLevel (((p :: q :: lps).map Prod.fst).map Child.record))
            ((p :: q :: lps).map Prod.fst)).bind _ = _
          rw [hnext, Option.bind_some, hlevels]
        · intro i n hi hn
          rcases Nat.lt_or_ge i ns.length with hlt | hge
          · rw [List.getElem?_append_left hlt] at hn
            exact hall i n hi hn
          · rw [List.getElem?_append_right hge] at hn
            exact hholds n (List.mem_of_getElem? hn)
        · rw [← hflat]
          exact hdone hbound (hok (by omega) hall)

/-! ## The leaves -/

/-- The records from a leaf on along the forward links, with the number of the last leaf;
`none` where a node is no leaf or its back link is not the leaf before. -/
def leafWalk (ns : List Bytes) : ℕ → ℕ → ℕ → Option (List Bytes × ℕ)
  | 0, _, _ => none
  | k + 1, prev, num => do
      let n ← ns[num]?
      if n.getD 8 0#8 = 0xFF#8 ∧ get32 n 4 = prev then
        if get32 n 0 = 0 then some (nodeRecs n, num)
        else do
          let (rs, last) ← leafWalk ns k num (get32 n 0)
          some (nodeRecs n ++ rs, last)
      else none

section Leaf

variable {g : List Bytes} {fLink bLink : ℕ} (hfit : Fits g)
include hfit

/-- A leaf over its records. -/
theorem ChildOk.leaf {ns : List Bytes} {num : ℕ} {firstKey : Bytes}
    (hfirst : g.head?.map keyOf = some (keyOf firstKey)) (hname : (keyOf firstKey).2.length ≤ 31)
    (hnum : num < 2 ^ 32) (hnode : ns[num]? = some (nodeBytes 0xFF#8 1#8 g fLink bLink)) :
    ChildOk ns 1 ⟨num, firstKey⟩ g := by
  have hne : g ≠ [] := by
    rintro rfl
    cases hfirst
  refine ⟨.leaf ?_ hne, hfirst, hname, hnum⟩
  rw [nodeView, hnode, Option.map_some, viewOf, if_pos type_nodeBytes,
    nodeRecs_nodeBytes 0xFF#8 1#8 fLink bLink hfit]

/-- One leaf of the walk: its records, and the leaves behind it if there is a forward link. -/
theorem leafWalk_leaf {ns : List Bytes} {k prev num : ℕ}
    (hnode : ns[num]? = some (nodeBytes 0xFF#8 1#8 g fLink bLink)) (hback : bLink % 2 ^ 32 = prev) :
    leafWalk ns (k + 1) prev num = if fLink % 2 ^ 32 = 0 then some (g, num)
      else (leafWalk ns k num (fLink % 2 ^ 32)).map fun p => (g ++ p.1, p.2) := by
  have hrecords := nodeRecs_nodeBytes 0xFF#8 1#8 fLink bLink hfit
  rw [leafWalk, hnode, Option.bind_eq_bind, Option.bind_some,
    if_pos ⟨type_nodeBytes, bLink_nodeBytes.trans hback⟩, fLink_nodeBytes, hrecords]
  split_ifs
  · rfl
  · cases leafWalk ns k num (fLink % 2 ^ 32) <;> rfl

end Leaf

theorem leaves_spec {gs : List (List Bytes)} : ∀ (i : ℕ) (ns : List Bytes), ns.length = 1 + i →
    (∀ g ∈ gs, g ≠ [] ∧ Fits g) → (∀ g ∈ gs, ∀ b ∈ g, ∃ r : Rec, r.name.length ≤ 31 ∧ b = r.bytes) →
    ∃ (ls : List (Bytes × Child)) (lps : List (Child × List Bytes)), leaves i gs = some ls
      ∧ ls.map Prod.snd = lps.map Prod.fst ∧ lps.map Prod.snd = gs
      ∧ (∀ p ∈ lps, (keyOf p.1.firstKey).2.length ≤ 31)
      ∧ (∀ n ∈ ls.map Prod.fst, Holds n (nodeRecs n))
      ∧ (1 + i + gs.length ≤ 2 ^ 32 →
        (∀ p ∈ lps, ChildOk (ns ++ ls.map Prod.fst) 1 p.1 p.2)
        ∧ ∀ ns', Extends (ns ++ ls.map Prod.fst) ns' → gs ≠ [] →
          leafWalk ns' gs.length i (1 + i) = some (gs.flatten, i + gs.length)) := by
  induction gs with
  | nil => exact fun _ _ _ _ _ => ⟨[], [], rfl, rfl, rfl, nofun, nofun, fun _ => ⟨nofun, fun _ _ h => absurd rfl h⟩⟩
  | cons g gs ih =>
      intro i ns hns hgroups hbytes
      obtain ⟨⟨hne, hfit⟩, hrest⟩ := List.forall_mem_cons.mp hgroups
      obtain ⟨hg, hbytes'⟩ := List.forall_mem_cons.mp hbytes
      obtain ⟨b, g', rfl⟩ := List.exists_cons_of_ne_nil hne
      obtain ⟨r, hname, rfl⟩ := hg b List.mem_cons_self
      obtain ⟨kl, hkl, hkey⟩ := keyOf_take_bytes hname
      obtain ⟨fLink, hf⟩ : ∃ f, f = if gs ≠ [] then 1 + i + 1 else 0 := ⟨_, rfl⟩
      obtain ⟨bLink, hb⟩ : ∃ b, b = if i ≠ 0 then 1 + i - 1 else 0 := ⟨_, rfl⟩
      obtain ⟨n, hn⟩ : ∃ n, n = nodeBytes 0xFF#8 1#8 (r.bytes :: g') fLink bLink := ⟨_, rfl⟩
      have hmake := makeNode_eq 0xFF#8 1#8 fLink bLink hfit
      rw [← hn] at hmake
      have hprev : bLink = i := by
        rw [hb]
        split
        · omega
        · next hzero => exact (not_not.mp hzero).symm
      -- the tail is built with this leaf already among the nodes before it
      obtain ⟨ls, lps, hls, hsnd, hgs, hnames, hholds, hok⟩ := ih (i + 1) (ns ++ [n])
        (by rw [List.length_append, List.length_singleton]; omega) hrest hbytes'
      have hnodes : ns ++ ((n, (⟨1 + i, r.bytes.take (kl.toNat + 1)⟩ : Child)) :: ls).map Prod.fst
          = ns ++ [n] ++ ls.map Prod.fst := by
        rw [List.map_cons, List.append_assoc, List.singleton_append]
      have hnode : (ns ++ [n])[1 + i]? = some n := by
        rw [← hns, List.getElem?_append_right (Nat.le_refl _), Nat.sub_self]
        rfl
      -- a node built is never the empty place `Extends` allows to be filled later
      have hfull : n ≠ [] := by
        rintro rfl
        have htype : (nodeBytes 0xFF#8 1#8 (r.bytes :: g') fLink bLink).getD 8 0#8 = 0xFF#8 :=
          type_nodeBytes
        rw [← hn, List.getD_nil] at htype
        exact absurd htype (by decide)
      refine ⟨(n, ⟨1 + i, r.bytes.take (kl.toNat + 1)⟩) :: ls,
        (⟨1 + i, r.bytes.take (kl.toNat + 1)⟩, r.bytes :: g') :: lps, ?_, ?_, ?_, ?_, ?_, ?_⟩
      · rw [leaves, ← hf, ← hb]
        simp only [hmake, hls, List.head?_cons, hkl, Option.bind_eq_bind, Option.bind_some]
      · rw [List.map_cons, List.map_cons, hsnd]
      · rw [List.map_cons, hgs]
      · intro p hp
        rcases List.mem_cons.mp hp with rfl | hp
        · rw [hkey]
          exact hname
        · exact hnames p hp
      · rw [List.map_cons]
        exact List.forall_mem_cons.mpr ⟨holds_nodeRecs hfit hn, hholds⟩
      · intro hbound
        rw [List.length_cons] at hbound
        obtain ⟨hchildren, hwalk⟩ := hok (by omega)
        rw [hnodes]
        have hext := extends_append (ns ++ [n]) (ls.map Prod.fst)
        refine ⟨fun p hp => ?_, fun ns' hext' _ => ?_⟩
        · rcases List.mem_cons.mp hp with rfl | hp
          · have hat := hext _ _ hnode hfull
            rw [hn] at hat ⊢
            refine .leaf hfit ?_ ?_ (by omega) hat
            · rw [List.head?_cons, Option.map_some, hkey, keyOf_bytes hname]
            · rw [hkey]
              exact hname
          · exact hchildren p hp
        · have hhere := (hext.trans hext') _ _ hnode hfull
          rw [hn] at hhere
          rw [List.length_cons,
            leafWalk_leaf hfit hhere (by rw [hprev, Nat.mod_eq_of_lt (by omega)])]
          -- the forward link is 0 on the last leaf alone, and there the walk stops
          by_cases hlast : gs = []
          · rw [hf, if_neg (not_not.mpr hlast), Nat.zero_mod, if_pos rfl, hlast,
              List.flatten_singleton, List.length_nil]
            exact congrArg (fun k => some (r.bytes :: g', k)) (by omega)
          · have hpos := List.length_pos_of_ne_nil hlast
            have hnext := hwalk ns' hext' hlast
            rw [show i + 1 = 1 + i by omega, show 1 + (1 + i) = 1 + i + 1 by omega] at hnext
            rw [hf, if_pos hlast, Nat.mod_eq_of_lt (by omega), if_neg (by omega), hnext,
              Option.map_some, List.flatten_cons]
            exact congrArg (fun k => some (r.bytes :: g' ++ gs.flatten, k)) (by omega)

end Hfs

end OpenPowerMac
