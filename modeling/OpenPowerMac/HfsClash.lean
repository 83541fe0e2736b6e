/-
When the names of a built volume are distinct.

The scan refuses a folder in which two Mac names are the same bytes. The catalog's order folds
case, so two names that differ in case only pass the check and become one key
(`keepsKeysApart_iff`). The items of a scan are the names of the folders of the tree, each
folder under a number of its own (`scan_spec`).
-/
import OpenPowerMac.HfsReserve

set_option autoImplicit false

namespace OpenPowerMac

namespace Hfs

/-! ## Entries -/

/-- The Mac name that an entry is kept under. -/
def macNameOf (limits : HfsLimits) (e : HostEntry) : Option Bytes :=
  match examine limits 0#32 0#32 0#32 e with
  | .kept it => some it.mac
  | _ => none

/-- The Mac names of the entries of a folder that are kept. -/
def macNames (limits : HfsLimits) (es : List HostEntry) : List Bytes := es.filterMap (macNameOf limits)

/-- A header is read without a look at the item. -/
theorem tryMacBinary_congr (file : Bytes) (size : U64) (it it' : Item) :
    (tryMacBinary file size it = none ∧ tryMacBinary file size it' = none)
      ∨ ∃ h, tryMacBinary file size it = some (decoded h it)
        ∧ tryMacBinary file size it' = some (decoded h it') := by
  have hsame : ∀ i i' j : Item, tryMacBinary file size i = some j →
      ∃ h, tryMacBinary file size i = some (decoded h i)
        ∧ tryMacBinary file size i' = some (decoded h i') := by
    intro i i' j hj
    obtain ⟨hsize, h, hread, hok, hpass, rfl⟩ := tryMacBinary_eq_some_iff.mp hj
    exact ⟨h, hj, tryMacBinary_eq_some_iff.mpr ⟨hsize, h, hread, hok, hpass, rfl⟩⟩
  cases hit : tryMacBinary file size it with
  | some j =>
      obtain ⟨h, hi, hi'⟩ := hsame it it' j hit
      exact .inr ⟨h, hit ▸ hi, hi'⟩
  | none =>
      cases hit' : tryMacBinary file size it' with
      | none => exact .inl ⟨rfl, rfl⟩
      | some j =>
          obtain ⟨h, -, hi⟩ := hsame it' it j hit'
          rw [hit] at hi
          cases hi

/-- What of a file's item does not come from the place it is given. -/
structure SameFile (it it' : Item) : Prop where
  mac : it.mac = it'.mac
  dataLen : it.dataLen = it'.dataLen
  rsrcLen : it.rsrcLen = it'.rsrcLen

/-- What of an item is the place it is given. -/
structure SamePlace (it it' : Item) : Prop where
  isDir : it.isDir = it'.isDir
  cnid : it.cnid = it'.cnid
  parent : it.parent = it'.parent

theorem plainItem_same (name bytes : Bytes) (rsrc : Option Bytes) (it it' : Item) :
    SameFile (plainItem name bytes rsrc it) (plainItem name bytes rsrc it')
      ∧ SamePlace (plainItem name bytes rsrc it) it := by
  unfold plainItem
  by_cases hpef : BitVec.ofNat 64 bytes.length ≥ 8#64 ∧ readAll bytes 0 8 = some (ascii "Joy!peff")
  · simp only [if_pos hpef]
    exact ⟨⟨rfl, rfl, rfl⟩, ⟨rfl, rfl, rfl⟩⟩
  · simp only [if_neg hpef]
    exact ⟨⟨rfl, rfl, rfl⟩, ⟨rfl, rfl, rfl⟩⟩

theorem fileItem_same (name bytes : Bytes) (rsrc : Option Bytes) (it it' : Item) :
    SameFile (fileItem name bytes rsrc it) (fileItem name bytes rsrc it')
      ∧ SamePlace (fileItem name bytes rsrc it) it := by
  rw [fileItem, fileItem]
  cases isBin name with
  | false => exact plainItem_same name bytes rsrc it it'
  | true =>
      rcases tryMacBinary_congr bytes (BitVec.ofNat 64 bytes.length) it it' with ⟨h, h'⟩ | ⟨hd, h, h'⟩
      · rw [if_pos rfl, if_pos rfl, h, h']
        exact plainItem_same name bytes rsrc it it'
      · rw [if_pos rfl, if_pos rfl, h, h']
        exact ⟨⟨rfl, rfl, rfl⟩, ⟨rfl, rfl, rfl⟩⟩

theorem named_mac {it it' : Item} (h : it.mac = it'.mac) : (named it).mac = (named it').mac := by
  rw [named, named, h]
  split
  · rfl
  · exact h

theorem named_place (it : Item) : SamePlace (named it) it := by
  rw [named]
  split <;> exact ⟨rfl, rfl, rfl⟩

theorem named_ne_nil (it : Item) : (named it).mac ≠ [] := by
  rw [named]
  split
  · exact List.cons_ne_nil _ _
  · next h => exact h

/-- Whether an entry is a folder that the scan goes into, and what is in it. -/
def HostEntry.inner : HostEntry → Option (List HostEntry)
  | .folder name entries => if skipName name then none else some entries
  | _ => none

/-- An entry is examined in the same way under every number. -/
structure Examined (limits : HfsLimits) (parent cnid : U32) (e : HostEntry) (it : Found) : Prop where
  mac : macNameOf limits e = some it.mac
  named : it.mac ≠ []
  parent : it.parent = parent
  cnid : it.cnid = cnid
  isDir : it.isDir = e.inner.isSome
  goes : ∀ name entries, e = .folder name entries → e.inner = some entries

theorem examine_spec (limits : HfsLimits) (now parent cnid : U32) (e : HostEntry) :
    (macNameOf limits e = none ∧ e.inner = none
        ∧ ∀ it, examine limits now parent cnid e ≠ .kept it)
      ∨ ∃ it, examine limits now parent cnid e = .kept it ∧ Examined limits parent cnid e it := by
  cases e with
  | other name => exact .inl ⟨rfl, rfl, fun _ => nofun⟩
  | folder name entries =>
      by_cases hskip : skipName name = true
      · refine .inl ⟨?_, if_pos hskip, fun it => ?_⟩
        · rw [macNameOf, examine, if_pos hskip]
        · rw [examine, if_pos hskip]
          exact nofun
      · refine .inr ⟨_, if_neg hskip, ⟨?_, named_ne_nil _, (named_place _).parent,
          (named_place _).cnid, ?_, ?_⟩⟩
        · rw [macNameOf, examine, if_neg hskip]
          exact congrArg some (named_mac rfl)
        · rw [HostEntry.inner, if_neg hskip]
          exact (named_place _).isDir
        · rintro _ _ ⟨⟩
          exact if_neg hskip
  | file name bytes rsrc =>
      obtain ⟨hsame, hplace⟩ := fileItem_same name bytes rsrc
        { cnid := cnid, parent := parent, crDate := now, mdDate := now }
        { cnid := 0#32, parent := 0#32, crDate := 0#32, mdDate := 0#32 }
      by_cases hskip : skipName name = true
      · refine .inl ⟨?_, rfl, fun it => ?_⟩
        · rw [macNameOf, examine, if_pos hskip]
        · rw [examine, if_pos hskip]
          exact nofun
      · simp only [macNameOf, examine, if_neg hskip, hsame.dataLen, hsame.rsrcLen]
        by_cases hbig : (fileItem name bytes rsrc {}).dataLen.toNat > limits.maxForkBytes
            ∨ (fileItem name bytes rsrc {}).rsrcLen.toNat > limits.maxForkBytes
        · rw [if_pos hbig, if_pos hbig]
          exact .inl ⟨rfl, rfl, fun _ => nofun⟩
        · rw [if_neg hbig, if_neg hbig]
          refine .inr ⟨_, rfl, ⟨?_, named_ne_nil _, (named_place _).parent.trans hplace.parent,
            (named_place _).cnid.trans hplace.cnid, (named_place _).isDir.trans hplace.isDir, nofun⟩⟩
          rw [macNameOf, examine, if_neg hskip, if_neg hbig]
          exact congrArg some (named_mac hsame.mac).symm

/-! ## One folder -/

/-- The catalog key of an item. -/
def placeOf (it : Found) : U32 × Bytes := (it.parent, it.mac)

/-- The entries below what waits on the stack. -/
def entriesOn (stack : List (List HostEntry × U32)) : ℕ := (stack.map fun p => entriesIn p.1).sum

/-- The folders that wait on the stack, and those below them. -/
def foldersOn (stack : List (List HostEntry × U32)) : ℕ := (stack.map fun p => 1 + foldersIn p.1).sum

theorem entriesOn_append (s s' : List (List HostEntry × U32)) :
    entriesOn (s ++ s') = entriesOn s + entriesOn s' := by
  simp only [entriesOn, List.map_append, List.sum_append]

theorem foldersOn_append (s s' : List (List HostEntry × U32)) :
    foldersOn (s ++ s') = foldersOn s + foldersOn s' := by
  simp only [foldersOn, List.map_append, List.sum_append]

/-- What an entry puts on the stack. -/
def HostEntry.pushed (e : HostEntry) (cnid : U32) : List (List HostEntry × U32) :=
  e.inner.toList.map fun es => (es, cnid)

theorem pushed_weight (e : HostEntry) (cnid : U32) :
    1 + entriesOn (e.pushed cnid) ≤ e.entries ∧ foldersOn (e.pushed cnid) ≤ e.folders := by
  cases e with
  | folder name entries =>
      rw [HostEntry.pushed, HostEntry.inner, HostEntry.entries, HostEntry.folders]
      split <;> simp [entriesOn, foldersOn]
  | file name bytes rsrc => exact ⟨Nat.le_refl _, Nat.le_refl _⟩
  | other name => exact ⟨Nat.le_refl _, Nat.le_refl _⟩

/-- What one entry does to the scan. -/
structure Turned (limits : HfsLimits) (parent : U32) (e : HostEntry) (st st' : Scan) : Prop where
  items : st'.items.map placeOf
    = st.items.map placeOf ++ (macNameOf limits e).toList.map (Prod.mk parent)
  stack : st'.stack = e.pushed st.nextCnid ++ st.stack
  taken : st.nextCnid.toNat + (e.pushed st.nextCnid).length ≤ st'.nextCnid.toNat
  next : st'.nextCnid.toNat ≤ st.nextCnid.toNat + 1

/-- What the loop over a folder does to the scan. -/
structure Scanned (limits : HfsLimits) (parent : U32) (es : List HostEntry) (st st' : Scan)
    (pushed : List (List HostEntry × U32)) : Prop where
  items : st'.items.map placeOf
    = st.items.map placeOf ++ (macNames limits es).map (Prod.mk parent)
  stack : st'.stack = pushed ++ st.stack
  inner : ∀ es', (∃ n, (es', n) ∈ pushed) ↔ ∃ e ∈ es, e.inner = some es'
  apart : (pushed.map Prod.snd).Nodup
  fresh : ∀ p ∈ pushed, st.nextCnid ≤ p.2 ∧ p.2 < st'.nextCnid
  next : st.nextCnid ≤ st'.nextCnid
  entries : st'.nextCnid.toNat + entriesOn pushed ≤ st.nextCnid.toNat + entriesIn es
  folders : foldersOn pushed ≤ foldersIn es

theorem Scanned.nil (limits : HfsLimits) (parent : U32) (st : Scan) :
    Scanned limits parent [] st st [] where
  items := (List.append_nil _).symm
  stack := rfl
  inner _ := ⟨nofun, nofun⟩
  apart := List.nodup_nil
  fresh _ := nofun
  next := BitVec.le_refl _
  entries := Nat.le_refl _
  folders := Nat.le_refl _

/-- An entry, and then the rest of the folder. -/
theorem Scanned.cons {limits : HfsLimits} {parent : U32} {e : HostEntry} {es : List HostEntry}
    {st st₁ st' : Scan} {pushed : List (List HostEntry × U32)} (h : Turned limits parent e st st₁)
    (hs : Scanned limits parent es st₁ st' pushed) :
    Scanned limits parent (e :: es) st st' (pushed ++ e.pushed st.nextCnid) where
  items := by
    rw [hs.items, h.items, List.append_assoc, ← List.map_append, macNames, macNames,
      List.filterMap_cons]
    cases macNameOf limits e <;> rfl
  stack := by rw [hs.stack, h.stack, List.append_assoc]
  inner es' := by
    simp only [List.mem_append, exists_or, hs.inner, List.mem_cons, exists_eq_or_imp]
    rw [or_comm]
    refine or_congr_left ?_
    simp [HostEntry.pushed]
  apart := by
    rw [List.map_append, List.nodup_append]
    refine ⟨hs.apart, ?_, ?_⟩
    · rw [HostEntry.pushed]
      cases e.inner <;> simp
    · -- the folder itself has a number below those of the folders behind it
      rintro n hn m hm rfl
      obtain ⟨p, hp, rfl⟩ := List.mem_map.mp hn
      obtain ⟨q, hq, hqp⟩ := List.mem_map.mp hm
      obtain ⟨es', -, rfl⟩ := List.mem_map.mp hq
      have hlow := BitVec.le_def.mp (hs.fresh p hp).1
      have htaken := h.taken
      have hpos := List.length_pos_of_mem hq
      have hnum : st.nextCnid = p.2 := hqp
      rw [← hnum] at hlow
      omega
  fresh p hp := by
    have htaken := h.taken
    have hnext := BitVec.le_def.mp hs.next
    rcases List.mem_append.mp hp with hp | hp
    · have hfresh := hs.fresh p hp
      rw [BitVec.le_def, BitVec.lt_def] at hfresh ⊢
      omega
    · have hpos := List.length_pos_of_mem hp
      obtain ⟨es', -, rfl⟩ := List.mem_map.mp hp
      refine ⟨BitVec.le_refl st.nextCnid, BitVec.lt_def.mpr ?_⟩
      show st.nextCnid.toNat < st'.nextCnid.toNat
      omega
  next := by
    have htaken := h.taken
    have hnext := BitVec.le_def.mp hs.next
    rw [BitVec.le_def]
    omega
  entries := by
    have hentries := hs.entries
    have hnext := h.next
    have hweight := (pushed_weight e st.nextCnid).1
    rw [entriesOn_append, entriesIn]
    omega
  folders := by
    have hfolders := hs.folders
    have hweight := (pushed_weight e st.nextCnid).2
    rw [foldersOn_append, foldersIn]
    omega

/-- A number is taken without a wrap. -/
theorem toNat_next {n : U32} {k : ℕ} (hroom : n.toNat + k < 2 ^ 32) (hk : 1 ≤ k) :
    (n + 1#32).toNat = n.toNat + 1 := by
  rw [BitVec.toNat_add_of_lt (by rw [BitVec.toNat_ofNat]; omega)]
  rfl

/-- The names of a folder differ as bytes, from each other and from those seen. -/
def Unclashed (limits : HfsLimits) (seen : List (Bytes × Bytes)) (es : List HostEntry) : Prop :=
  (macNames limits es).Nodup ∧ ∀ m ∈ macNames limits es, seen.lookup m = none

theorem unclashed_skip {limits : HfsLimits} {seen : List (Bytes × Bytes)} {e : HostEntry}
    {es : List HostEntry} (h : macNameOf limits e = none) :
    Unclashed limits seen (e :: es) ↔ Unclashed limits seen es := by
  rw [Unclashed, macNames, List.filterMap_cons_none h]
  rfl

theorem unclashed_keep {limits : HfsLimits} {seen : List (Bytes × Bytes)} {e : HostEntry}
    {es : List HostEntry} {m : Bytes} (h : macNameOf limits e = some m) (host : Bytes) :
    Unclashed limits seen (e :: es)
      ↔ seen.lookup m = none ∧ Unclashed limits ((m, host) :: seen) es := by
  have hlookup : ∀ m', List.lookup m' ((m, host) :: seen) = none ↔ m' ≠ m ∧ seen.lookup m' = none := by
    intro m'
    rw [List.lookup_cons]
    by_cases heq : m' = m
    · simp [heq]
    · simp [heq, beq_eq_false_iff_ne.mpr heq]
  simp only [Unclashed, macNames, List.filterMap_cons_some h, List.nodup_cons, List.forall_mem_cons,
    hlookup]
  constructor
  · rintro ⟨⟨hm, hnodup⟩, hseen, hall⟩
    exact ⟨hseen, hnodup, fun m' hm' => ⟨fun heq => hm (heq ▸ hm'), hall m' hm'⟩⟩
  · rintro ⟨hseen, hnodup, hall⟩
    exact ⟨⟨fun hm => (hall m hm).1 rfl, hnodup⟩, hseen, fun m' hm' => (hall m' hm').2⟩

theorem keep_turned {limits : HfsLimits} {parent : U32} {e : HostEntry} {it : Found} {st : Scan}
    (h : Examined limits parent st.nextCnid e it)
    (hnext : (st.nextCnid + 1#32).toNat = st.nextCnid.toNat + 1) :
    Turned limits parent e st (st.keep e it) where
  items := by
    rw [h.mac, ← h.parent]
    exact List.map_append
  stack := by
    rw [HostEntry.pushed, ← h.cnid]
    cases e with
    | folder name entries => exact h.goes name entries rfl ▸ rfl
    | file name bytes rsrc => rfl
    | other name => rfl
  taken := by
    show _ ≤ (st.nextCnid + 1#32).toNat
    rw [hnext, HostEntry.pushed, List.length_map]
    cases e.inner with
    | none => exact Nat.le_succ _
    | some es => exact Nat.le_refl _
  next := Nat.le_of_eq hnext

/-- What the scan makes of a folder: the names differ as bytes, or it refuses. -/
theorem scanFolder_spec (limits : HfsLimits) (now parent : U32) (es : List HostEntry) :
    ∀ (seen : List (Bytes × Bytes)) (st : Scan), st.nextCnid.toNat + entriesIn es < 2 ^ 32 →
      (∃ st' pushed, scanFolder limits now parent es seen st = .ok st'
          ∧ Scanned limits parent es st st' pushed ∧ Unclashed limits seen es)
        ∨ (∃ a b m, scanFolder limits now parent es seen st = .error (.nameClash a b m))
          ∧ ¬ Unclashed limits seen es := by
  induction es with
  | nil => exact fun seen st _ => .inl ⟨st, [], rfl, Scanned.nil limits parent st, List.nodup_nil, nofun⟩
  | cons e es ih =>
      intro seen st hroom
      have hone := (pushed_weight e st.nextCnid).1
      rw [entriesIn] at hroom
      have hnext := toNat_next (n := st.nextCnid) hroom (by omega)
      rw [scanFolder]
      -- an entry that is not kept may take a number, and nothing else changes
      have hpass : macNameOf limits e = none → e.inner = none → ∀ st₁ : Scan,
          st₁.items = st.items → st₁.stack = st.stack → st.nextCnid.toNat ≤ st₁.nextCnid.toNat →
          st₁.nextCnid.toNat ≤ st.nextCnid.toNat + 1 →
          (∃ st' pushed, scanFolder limits now parent es seen st₁ = .ok st'
              ∧ Scanned limits parent (e :: es) st st' pushed ∧ Unclashed limits seen (e :: es))
            ∨ (∃ a b m, scanFolder limits now parent es seen st₁ = .error (.nameClash a b m))
              ∧ ¬ Unclashed limits seen (e :: es) := by
        intro hmac hinner st₁ hitems hstack hle hle'
        have hturn : Turned limits parent e st st₁ := by
          refine ⟨?_, ?_, ?_, hle'⟩
          · rw [hitems, hmac]
            exact (List.append_nil _).symm
          · rw [hstack, HostEntry.pushed, hinner]
            rfl
          · rw [HostEntry.pushed, hinner]
            exact hle
        rw [unclashed_skip hmac]
        refine (ih seen st₁ (by omega)).imp_left ?_
        rintro ⟨st', pushed, hscan, hscanned, hun⟩
        exact ⟨st', _, hscan, hscanned.cons hturn, hun⟩
      rcases examine_spec limits now parent st.nextCnid e with ⟨hmac, hinner, hnot⟩ | ⟨it, hit, hok⟩
      · cases hex : examine limits now parent st.nextCnid e with
        | skipped => exact hpass hmac hinner st rfl rfl (Nat.le_refl _) (Nat.le_succ _)
        | leftOut size =>
            refine hpass hmac hinner (st.leave e size) rfl rfl ?_ ?_
            · show st.nextCnid.toNat ≤ (st.nextCnid + 1#32).toNat
              omega
            · exact Nat.le_of_eq hnext
        | kept it => exact absurd hex (hnot it)
      · rw [hit, unclashed_keep hok.mac e.name]
        dsimp only
        cases hseen : seen.lookup it.mac with
        | some other => exact .inr ⟨⟨other, e.name, it.mac, rfl⟩, fun h => absurd h.1 nofun⟩
        | none =>
            have hkept : (st.keep e it).nextCnid.toNat = st.nextCnid.toNat + 1 := hnext
            refine (ih ((it.mac, e.name) :: seen) (st.keep e it) (by omega)).imp ?_ ?_
            · rintro ⟨st', pushed, hscan, hscanned, hun⟩
              exact ⟨st', _, hscan, hscanned.cons (keep_turned hok hnext), rfl, hun⟩
            · rintro ⟨herr, hun⟩
              exact ⟨herr, fun h => hun h.2⟩

/-! ## The tree -/

/-- The folders that a scan of a folder goes into, itself among them. -/
inductive FolderOf : List HostEntry → List HostEntry → Prop where
  | self (es : List HostEntry) : FolderOf es es
  | inside {es es' es'' : List HostEntry} {e : HostEntry} (he : e ∈ es) (hinner : e.inner = some es')
      (h : FolderOf es' es'') : FolderOf es es''

theorem folderOf_iff (es : List HostEntry) {es'' : List HostEntry} :
    FolderOf es es'' ↔ es'' = es ∨ ∃ es', (∃ e ∈ es, e.inner = some es') ∧ FolderOf es' es'' := by
  constructor
  · rintro (_ | ⟨he, hinner, h⟩)
    · exact .inl rfl
    · exact .inr ⟨_, ⟨_, he, hinner⟩, h⟩
  · rintro (rfl | ⟨es', ⟨e, he, hinner⟩, h⟩)
    · exact .self _
    · exact .inside he hinner h

/-- What waits on the stack has numbers of its own, all given out, and there are numbers for
the entries below it. -/
structure Waits (st : Scan) : Prop where
  room : st.nextCnid.toNat + entriesOn st.stack < 2 ^ 32
  below : ∀ p ∈ st.stack, p.2 < st.nextCnid
  apart : (st.stack.map Prod.snd).Nodup

/-- What the loop over the stack adds: the names of each folder, under a number of its own. -/
structure Walked (limits : HfsLimits) (st st' : Scan) (gs : List (U32 × List HostEntry)) : Prop where
  items : st'.items.map placeOf
    = st.items.map placeOf ++ gs.flatMap fun g => (macNames limits g.2).map (Prod.mk g.1)
  numbers : (gs.map Prod.fst).Nodup
  fresh : ∀ g ∈ gs, g.1 ∈ st.stack.map Prod.snd ∨ st.nextCnid ≤ g.1
  folders : ∀ es, (∃ n, (n, es) ∈ gs) ↔ ∃ p ∈ st.stack, FolderOf p.1 es
  differ : ∀ g ∈ gs, (macNames limits g.2).Nodup

variable {limits : HfsLimits} {st st₁ st' : Scan} {es : List HostEntry} {cnid : U32}
  {pushed rest : List (List HostEntry × U32)} {gs : List (U32 × List HostEntry)}

/-- The folders of a folder wait in its place. -/
theorem Waits.turn (h : Waits st) (hstack : st.stack = (es, cnid) :: rest)
    (hs : Scanned limits cnid es { st with stack := rest } st₁ pushed) : Waits st₁ := by
  obtain ⟨hroom, hbelow, hapart⟩ := h
  have hnext := BitVec.le_def.mp hs.next
  have hentries := hs.entries
  rw [hstack] at hroom hbelow hapart
  obtain ⟨-, hrest⟩ := List.forall_mem_cons.mp hbelow
  obtain ⟨-, hnodup⟩ := List.nodup_cons.mp hapart
  have hcons : entriesOn ((es, cnid) :: rest) = entriesIn es + entriesOn rest := List.sum_cons
  refine ⟨?_, ?_, ?_⟩
  · rw [hs.stack, entriesOn_append]
    show st₁.nextCnid.toNat + (entriesOn pushed + entriesOn rest) < 2 ^ 32
    have hentries : st₁.nextCnid.toNat + entriesOn pushed ≤ st.nextCnid.toNat + entriesIn es := hentries
    omega
  · rw [hs.stack]
    intro p hp
    rcases List.mem_append.mp hp with hp | hp
    · exact (hs.fresh p hp).2
    · exact BitVec.lt_def.mpr (Nat.lt_of_lt_of_le (BitVec.lt_def.mp (hrest p hp)) hnext)
  · rw [hs.stack, List.map_append, List.nodup_append]
    refine ⟨hs.apart, hnodup, ?_⟩
    rintro n hn m hm rfl
    obtain ⟨p, hp, rfl⟩ := List.mem_map.mp hn
    obtain ⟨q, hq, hqp⟩ := List.mem_map.mp hm
    have hlow : st.nextCnid ≤ p.2 := (hs.fresh p hp).1
    have hhigh := hrest q hq
    rw [hqp] at hhigh
    exact absurd hhigh (BitVec.not_lt.mpr hlow)

/-- A folder, and then what waits. -/
theorem Walked.turn (h : Waits st) (hstack : st.stack = (es, cnid) :: rest)
    (hs : Scanned limits cnid es { st with stack := rest } st₁ pushed)
    (hun : (macNames limits es).Nodup) (hw : Walked limits st₁ st' gs) :
    Walked limits st st' ((cnid, es) :: gs) where
  items := by
    rw [hw.items, hs.items, List.flatMap_cons, List.append_assoc]
  numbers := by
    have hbelow := h.below (es, cnid) (hstack ▸ List.mem_cons_self)
    have hapart := h.apart
    rw [hstack] at hapart
    refine List.nodup_cons.mpr ⟨fun hmem => ?_, hw.numbers⟩
    obtain ⟨g, hg, hgn⟩ := List.mem_map.mp hmem
    have hnot : ¬ st.nextCnid ≤ g.1 := by
      rw [hgn]
      exact BitVec.not_le.mpr hbelow
    -- a number is one of this folder's, one that waited, or a later one
    rcases hw.fresh g hg with hwait | hlate
    · rw [hs.stack, List.map_append] at hwait
      rcases List.mem_append.mp hwait with hwait | hwait
      · obtain ⟨p, hp, hpn⟩ := List.mem_map.mp hwait
        exact hnot (hpn ▸ (hs.fresh p hp).1)
      · rw [hgn] at hwait
        exact (List.nodup_cons.mp hapart).1 hwait
    · exact hnot (BitVec.le_trans hs.next hlate)
  fresh := by
    refine List.forall_mem_cons.mpr ⟨.inl ?_, fun g hg => ?_⟩
    · rw [hstack]
      exact List.mem_cons_self
    · rcases hw.fresh g hg with hwait | hlate
      · rw [hs.stack, List.map_append] at hwait
        rcases List.mem_append.mp hwait with hwait | hwait
        · obtain ⟨p, hp, hpn⟩ := List.mem_map.mp hwait
          exact .inr (hpn ▸ (hs.fresh p hp).1)
        · rw [hstack]
          exact .inl (List.mem_cons_of_mem _ hwait)
      · exact .inr (BitVec.le_trans hs.next hlate)
  folders es'' := by
    have hbelow : (∃ p ∈ pushed, FolderOf p.1 es'')
        ↔ ∃ es', (∃ e ∈ es, e.inner = some es') ∧ FolderOf es' es'' := by
      simp only [← hs.inner]
      constructor
      · rintro ⟨p, hp, hf⟩
        exact ⟨p.1, ⟨p.2, hp⟩, hf⟩
      · rintro ⟨es', ⟨n, hn⟩, hf⟩
        exact ⟨(es', n), hn, hf⟩
    simp only [List.mem_cons, exists_or, hw.folders, hs.stack, hstack, List.mem_append, or_and_right,
      exists_eq_left, hbelow]
    rw [folderOf_iff es, or_assoc]
    refine or_congr_left ?_
    simp
  differ := List.forall_mem_cons.mpr ⟨hun, hw.differ⟩

theorem unclashed_nil : Unclashed limits [] es ↔ (macNames limits es).Nodup :=
  ⟨And.left, fun h => ⟨h, fun _ _ => rfl⟩⟩

theorem scanLoop_nil {now : U32} {fuel : ℕ} (h : st.stack = []) :
    ∃ st' gs, scanLoop limits now fuel st = some (.ok st') ∧ Walked limits st st' gs := by
  obtain ⟨stack, items, nextCnid, totalBytes, warn⟩ := st
  obtain rfl : stack = [] := h
  have hloop : ∀ fuel st, st.stack = [] → scanLoop limits now fuel st = some (.ok st) := by
    rintro (_ | fuel) ⟨_, _, _, _, _⟩ ⟨⟩ <;> rfl
  exact ⟨_, [], hloop fuel _ rfl, (List.append_nil _).symm, List.nodup_nil, nofun,
    fun es => ⟨nofun, nofun⟩, nofun⟩

theorem scanLoop_cons {now : U32} {fuel : ℕ} (h : st.stack = (es, cnid) :: rest) :
    scanLoop limits now (fuel + 1) st
      = match scanFolder limits now cnid es [] { st with stack := rest } with
        | .error e => some (.error e)
        | .ok st => scanLoop limits now fuel st := by
  obtain ⟨stack, items, nextCnid, totalBytes, warn⟩ := st
  obtain rfl : stack = (es, cnid) :: rest := h
  rfl

theorem scanLoop_spec (limits : HfsLimits) (now : U32) (fuel : ℕ) : ∀ {st : Scan}, Waits st →
    foldersOn st.stack ≤ fuel →
    (∃ st' gs, scanLoop limits now fuel st = some (.ok st') ∧ Walked limits st st' gs)
      ∨ (∃ a b m, scanLoop limits now fuel st = some (.error (.nameClash a b m)))
        ∧ ∃ p ∈ st.stack, ∃ es, FolderOf p.1 es ∧ ¬ (macNames limits es).Nodup := by
  induction fuel with
  | zero =>
      intro st hwaits hfuel
      have hnil : st.stack = [] := by
        rcases hstack : st.stack with _ | ⟨p, rest⟩
        · rfl
        · rw [hstack, foldersOn, List.map_cons, List.sum_cons] at hfuel
          omega
      exact .inl (scanLoop_nil hnil)
  | succ fuel ih =>
      intro st hwaits hfuel
      rcases hstack : st.stack with _ | ⟨⟨es, cnid⟩, rest⟩
      · exact .inl (scanLoop_nil hstack)
      · have hcons : entriesOn ((es, cnid) :: rest) = entriesIn es + entriesOn rest := List.sum_cons
        have hroom := hwaits.room
        rw [hstack, hcons] at hroom
        have hscan := scanFolder_spec limits now cnid es [] { st with stack := rest }
          (by show st.nextCnid.toNat + entriesIn es < 2 ^ 32; omega)
        rw [unclashed_nil] at hscan
        rw [scanLoop_cons hstack]
        rcases hscan with ⟨st₁, pushed, hok, hs, hun⟩ | ⟨⟨a, b, m, herr⟩, hun⟩
        · rw [hok]
          dsimp only
          -- the folder taken off the stack pays for its turn: its inner folders were counted with
          -- it
          have hless : foldersOn st₁.stack ≤ fuel := by
            have hfolders := hs.folders
            have hfirst : foldersOn ((es, cnid) :: rest) = 1 + foldersIn es + foldersOn rest :=
              List.sum_cons
            rw [hstack, hfirst] at hfuel
            rw [hs.stack, foldersOn_append]
            show foldersOn pushed + foldersOn rest ≤ fuel
            omega
          refine (ih (hwaits.turn hstack hs) hless).imp ?_ ?_
          · rintro ⟨st', gs, hloop, hw⟩
            exact ⟨st', _, hloop, hw.turn hwaits hstack hs hun⟩
          · rintro ⟨herr, p, hp, es', hf, hdup⟩
            refine ⟨herr, ?_⟩
            rw [hs.stack] at hp
            rcases List.mem_append.mp hp with hp | hp
            · obtain ⟨e, he, hinner⟩ := (hs.inner p.1).mp ⟨p.2, hp⟩
              exact ⟨(es, cnid), List.mem_cons_self, es', .inside he hinner hf, hdup⟩
            · exact ⟨p, List.mem_cons_of_mem _ hp, es', hf, hdup⟩
        · rw [herr]
          exact .inr ⟨⟨a, b, m, rfl⟩, (es, cnid), List.mem_cons_self, es, .self es, hun⟩

/-- A scan refuses a tree in which two names of a folder are the same bytes, and else has the
names of its folders. -/
theorem scan_spec (limits : HfsLimits) (now : U32) {root : List HostEntry}
    (hroom : 16 + entriesIn root < 2 ^ 32) :
    (∃ (st : Scan) (gs : List (U32 × List HostEntry)), scan limits now root = some (.ok st)
        ∧ st.items.map placeOf = gs.flatMap (fun g => (macNames limits g.2).map (Prod.mk g.1))
        ∧ (gs.map Prod.fst).Nodup ∧ (∀ es, (∃ n, (n, es) ∈ gs) ↔ FolderOf root es)
        ∧ ∀ g ∈ gs, (macNames limits g.2).Nodup)
      ∨ (∃ a b m, scan limits now root = some (.error (.nameClash a b m)))
        ∧ ∃ es, FolderOf root es ∧ ¬ (macNames limits es).Nodup := by
  have hwaits : Waits ⟨[(root, 2#32)], [], 16#32, 0, []⟩ := by
    refine ⟨?_, ?_, List.nodup_singleton _⟩
    · show 16 + (entriesIn root + 0) < 2 ^ 32
      omega
    · simp
  have hstack : ∀ es, (∃ p ∈ [(root, 2#32)], FolderOf p.1 es) ↔ FolderOf root es := by simp
  refine (scanLoop_spec limits now (1 + foldersIn root) hwaits (Nat.le_refl _)).imp ?_ ?_
  · rintro ⟨st, gs, hscan, hw⟩
    exact ⟨st, gs, hscan, hw.items, hw.numbers, fun es => (hw.folders es).trans (hstack es), hw.differ⟩
  · rintro ⟨herr, hdup⟩
    refine ⟨herr, ?_⟩
    obtain ⟨p, hp, es, hf, hdup⟩ := hdup
    exact ⟨es, (hstack es).mp ⟨p, hp, hf⟩, hdup⟩

/-! ## The volume -/

/-- No two items of one parent have names that are one in the catalog. -/
def KeysApart (items : List Found) : Prop :=
  items.Pairwise fun it it' => it.parent = it'.parent → nameCompare it.mac it'.mac ≠ .eq

/-- A folder has two names that are one in the catalog. -/
def Clashes (limits : HfsLimits) (root : List HostEntry) : Prop :=
  ∃ es, FolderOf root es ∧ ¬ (macNames limits es).Pairwise fun a b => nameCompare a b ≠ .eq

/-- A folder has two names that are the same bytes. -/
def ClashesInBytes (limits : HfsLimits) (root : List HostEntry) : Prop :=
  ∃ es, FolderOf root es ∧ ¬ (macNames limits es).Nodup

theorem nameCompare_self (a : Bytes) : nameCompare a a = .eq := nameCompare_eq.mpr rfl

theorem ClashesInBytes.clashes {limits : HfsLimits} {root : List HostEntry}
    (h : ClashesInBytes limits root) : Clashes limits root := by
  obtain ⟨es, hf, hdup⟩ := h
  refine ⟨es, hf, fun hapart => hdup (hapart.imp ?_)⟩
  rintro a b hne rfl
  exact hne (nameCompare_self a)

theorem keysApart_iff {items : List Found}
    (hitems : items.map placeOf = gs.flatMap fun g => (macNames limits g.2).map (Prod.mk g.1))
    (hnumbers : (gs.map Prod.fst).Nodup) :
    KeysApart items ↔ ∀ g ∈ gs, (macNames limits g.2).Pairwise fun a b => nameCompare a b ≠ .eq := by
  have hkeys : KeysApart items ↔ (items.map placeOf).Pairwise fun p q =>
      p.1 = q.1 → nameCompare p.2 q.2 ≠ .eq := by
    rw [List.pairwise_map]
    rfl
  rw [hkeys, hitems, List.pairwise_flatMap]
  constructor
  · rintro ⟨hin, -⟩ g hg
    exact (List.pairwise_map.mp (hin g hg)).imp fun h => h rfl
  · intro hin
    refine ⟨fun g hg => List.pairwise_map.mpr ((hin g hg).imp ?_), ?_⟩
    · exact fun hne _ => hne
    -- two folders have two numbers
    · refine (List.pairwise_map.mp hnumbers).imp ?_
      rintro g g' hne p hp q hq heq
      obtain ⟨m, -, rfl⟩ := List.mem_map.mp hp
      obtain ⟨m', -, rfl⟩ := List.mem_map.mp hq
      exact absurd heq hne

/-- A volume is of the items it is laid out for, and no name is refused at this stage. -/
theorem layOut_items {volName : Bytes} {now : U32} {writable : Bool} {items : List Found}
    {abSize : ℕ} :
    (∀ v, layOut limits volName now writable items abSize = some (.ok v) → v.items = items)
      ∧ ∀ a b m, layOut limits volName now writable items abSize ≠ some (.error (.nameClash a b m)) := by
  unfold layOut
  dsimp only
  split
  case h_1 => exact ⟨fun _ => nofun, fun _ _ _ => nofun⟩
  split
  case isTrue => exact ⟨fun _ => nofun, fun _ _ _ => nofun⟩
  split
  case h_1 => exact ⟨fun _ => nofun, fun _ _ _ => nofun⟩
  split
  case isTrue => exact ⟨fun _ => nofun, fun _ _ _ => nofun⟩
  split
  case isTrue => exact ⟨fun _ => nofun, fun _ _ _ => nofun⟩
  split
  case isTrue => exact ⟨fun _ => nofun, fun _ _ _ => nofun⟩
  -- the forks are copied last
  next placed _ _ _ _ _ _ _ _ _ =>
  cases hcopy : copyForks placed with
  | error e =>
      refine ⟨fun _ => nofun, fun a b m h => ?_⟩
      cases h
      obtain ⟨name, h | h⟩ := copyForks_error hcopy <;> cases h
  | ok forks =>
      refine ⟨fun v h => ?_, fun _ _ _ => nofun⟩
      cases h
      rfl

/-- What is asked of the build of a folder: the items of a volume have keys of their own, and
a folder where two would have one key is refused with the names. -/
structure KeepsKeysApart (limits : HfsLimits) (volName : Bytes) (now : U32) (writable : Bool)
    (name : Bytes) (root : List HostEntry) : Prop where
  accepted : ∀ v, hfsBuildImage limits volName now writable (.folder name root) = some (.ok v) →
    KeysApart v.items
  refused : Clashes limits root →
    ∃ a b m, hfsBuildImage limits volName now writable (.folder name root)
      = some (.error (.nameClash a b m))

variable {root : List HostEntry}

/-- The build refuses just the names that are the same bytes. -/
theorem build_refuses_iff (limits : HfsLimits) (volName : Bytes) (now : U32) (writable : Bool)
    (name : Bytes) (hroom : 16 + entriesIn root < 2 ^ 32) :
    (∃ a b m, hfsBuildImage limits volName now writable (.folder name root)
      = some (.error (.nameClash a b m))) ↔ ClashesInBytes limits root := by
  rw [hfsBuildImage]
  rcases scan_spec limits now hroom with ⟨st, gs, hscan, -, -, hfolders, hdiffer⟩
    | ⟨⟨a, b, m, herr⟩, hdup⟩
  · rw [hscan]
    constructor
    · rintro ⟨a, b, m, h⟩
      dsimp only at h
      split at h
      · cases h
      · split at h
        · cases h
        · exact absurd h (layOut_items.2 a b m)
    · rintro ⟨es, hf, hdup⟩
      obtain ⟨n, hn⟩ := (hfolders es).mpr hf
      exact absurd (hdiffer _ hn) hdup
  · rw [herr]
    exact ⟨fun _ => hdup, fun _ => ⟨a, b, m, rfl⟩⟩

/-- The items of a volume have keys of their own just where no two names of a folder are one
in the catalog. -/
theorem build_keysApart_iff {volName : Bytes} {now : U32} {writable : Bool} {name : Bytes} {v : Volume}
    (hroom : 16 + entriesIn root < 2 ^ 32)
    (hv : hfsBuildImage limits volName now writable (.folder name root) = some (.ok v)) :
    KeysApart v.items ↔ ¬ Clashes limits root := by
  rw [hfsBuildImage] at hv
  rcases scan_spec limits now hroom with ⟨st, gs, hscan, hitems, hnumbers, hfolders, -⟩
    | ⟨⟨a, b, m, herr⟩, -⟩
  · rw [hscan] at hv
    dsimp only at hv
    split at hv
    · cases hv
    · split at hv
      · cases hv
      · rw [layOut_items.1 v hv, keysApart_iff hitems hnumbers, Clashes]
        push Not
        constructor
        · intro hall es hf
          obtain ⟨n, hn⟩ := (hfolders es).mpr hf
          exact hall _ hn
        · intro hall g hg
          exact hall g.2 ((hfolders g.2).mp ⟨g.1, hg⟩)
  · rw [herr] at hv
    cases hv

/-- **The catalog's keys are distinct** just where the names of each folder that are one to
`nameCompare` are also the same bytes: the scan compares bytes. -/
theorem keepsKeysApart_iff (limits : HfsLimits) (volName : Bytes) (now : U32) (writable : Bool)
    (name : Bytes) (root : List HostEntry) (hroom : 16 + entriesIn root < 2 ^ 32) :
    (KeepsKeysApart limits volName now writable name root
        ↔ (Clashes limits root → ClashesInBytes limits root))
      ∧ ∀ v, hfsBuildImage limits volName now writable (.folder name root) = some (.ok v) →
        (KeysApart v.items ↔ ¬ Clashes limits root) := by
  have hrefuses := build_refuses_iff limits volName now writable name hroom
  refine ⟨⟨fun h hclash => hrefuses.mp (h.refused hclash), fun h => ?_⟩,
    fun v hv => build_keysApart_iff hroom hv⟩
  refine ⟨fun v hv => (build_keysApart_iff hroom hv).mpr fun hclash => ?_,
    fun hclash => hrefuses.mpr (h hclash)⟩
  -- a volume is no refusal
  obtain ⟨a, b, m, herr⟩ := hrefuses.mpr (h hclash)
  rw [hv] at herr
  cases herr

theorem decodeUtf8_ascii {name : Bytes} (h : ∀ c ∈ name, c < 0x80#8) :
    decodeUtf8 name = name.map (BitVec.setWidth 32) := by
  induction name with
  | nil => rfl
  | cons c s ih =>
      rw [decodeUtf8.eq_def]
      dsimp only
      rw [if_pos (h c List.mem_cons_self), List.map_cons,
        ih fun c' hc => h c' (List.mem_cons_of_mem _ hc)]

/-- A short name in ASCII, with no colon, is its own name on the volume. -/
theorem toMacRoman_ascii {name : Bytes} (h : ∀ c ∈ name, c < 0x80#8 ∧ c ≠ 0x3A#8)
    (hlen : name.length ≤ 31) : toMacRoman (decodeUtf8 name) = name := by
  have hself : ∀ c ∈ name, (macRomanOf ∘ BitVec.setWidth 32) c = id c := by
    intro c hc
    obtain ⟨hlow, hcolon⟩ := h c hc
    rw [Function.comp_apply, macRomanOf, if_pos (by bv_omega), if_neg (by bv_omega), id_eq]
    bv_omega
  rw [decodeUtf8_ascii fun c hc => (h c hc).1, toMacRoman, List.map_map, List.map_congr_left hself,
    List.map_id, List.take_of_length_le hlen]

/-- The scan is of the root first. -/
theorem scan_root (limits : HfsLimits) (now : U32) (root : List HostEntry) :
    scan limits now root = match scanFolder limits now 2#32 root [] ⟨[], [], 16#32, 0, []⟩ with
      | .error e => some (.error e)
      | .ok st => scanLoop limits now (foldersIn root) st := by
  rw [scan, Nat.add_comm]
  rfl

/-- Two files that a host with case in its names tells apart. -/
def twoCases : List HostEntry :=
  [.file (ascii "Readme") [] none, .file (ascii "README") [] none]

theorem twoCases_keepsKeysApart :
    (KeepsKeysApart {} [] 0#32 true [] twoCases ↔ (Clashes {} twoCases → ClashesInBytes {} twoCases))
      ∧ ∀ v, hfsBuildImage {} [] 0#32 true (.folder [] twoCases) = some (.ok v) →
        (KeysApart v.items ↔ ¬ Clashes {} twoCases) :=
  keepsKeysApart_iff {} [] 0#32 true [] twoCases (by decide)

/-- The item of an empty file in the root. -/
def caseItem (cnid : U32) (name : Bytes) : Found where
  cnid := cnid
  parent := 2#32
  mac := name
  type := ascii "BINA"
  creator := ascii "????"
  hostName := name
  bytes := []
  rsrc := []

theorem examine_case (cnid : U32) {name : Bytes}
    (h : name = ascii "Readme" ∨ name = ascii "README") :
    examine {} 0#32 2#32 cnid (.file name [] none) = .kept (caseItem cnid name) := by
  have hmac : toMacRoman (decodeUtf8 name) = name :=
    toMacRoman_ascii (by rcases h with rfl | rfl <;> decide) (by rcases h with rfl | rfl <;> decide)
  have hskip : skipName name = false := by rcases h with rfl | rfl <;> decide
  have hbin : isBin name = false := by rcases h with rfl | rfl <;> decide
  have htype : typeForExt (extension name) = (ascii "BINA", ascii "????") := by
    rcases h with rfl | rfl <;> rfl
  have hne : name ≠ [] := by rcases h with rfl | rfl <;> exact List.cons_ne_nil _ _
  have hplain : fileItem name [] none { cnid := cnid, parent := 2#32 } = (caseItem cnid name).toItem := by
    simp only [fileItem, hbin, plainItem, hmac, htype]
    rfl
  have hnamed : named (caseItem cnid name).toItem = (caseItem cnid name).toItem := if_neg hne
  simp only [examine, hskip, hplain, hnamed]
  rfl

/-- **Two names that differ in case only** are accepted, and are one key. -/
theorem twoCases_accepted : (∃ v, hfsBuildImage {} [] 0#32 true (.folder [] twoCases) = some (.ok v)
      ∧ v.items = [caseItem 16#32 (ascii "Readme"), caseItem 17#32 (ascii "README")]
      ∧ nameCompare (ascii "Readme") (ascii "README") = .eq)
    ∧ ¬ KeepsKeysApart {} [] 0#32 true [] twoCases := by
  have hfolder : scanFolder {} 0#32 2#32 twoCases [] ⟨[], [], 16#32, 0, []⟩
      = .ok ⟨[], [caseItem 16#32 (ascii "Readme"), caseItem 17#32 (ascii "README")], 18#32, 0, []⟩ := by
    simp only [twoCases, scanFolder, examine_case _ (.inl rfl), examine_case _ (.inr rfl)]
    rfl
  have hscan : scan {} 0#32 twoCases
      = some (.ok ⟨[], [caseItem 16#32 (ascii "Readme"), caseItem 17#32 (ascii "README")], 18#32, 0,
        []⟩) := by
    rw [scan_root, hfolder]
    rfl
  obtain ⟨items, hitems⟩ : ∃ items, items = [caseItem 16#32 (ascii "Readme"),
    caseItem 17#32 (ascii "README")] := ⟨_, rfl⟩
  obtain ⟨placed, hplace, hforks⟩ : ∃ placed, place 512 (filesOf items) 11 = some (placed, 11)
      ∧ copyForks placed = .ok [([], []), ([], [])] := by
    subst hitems
    exact ⟨_, rfl, rfl⟩
  have hblocks : catBlocks [] 0#32 items 512 = 10 := by
    subst hitems
    decide
  have hroom : catFileNodes [] 0#32 items 512 = 10 := by
    rw [catFileNodes, hblocks]
    rfl
  have hres := reserved_placed [] 0#32 (show items.length < 2 ^ 32 by rw [hitems]; decide)
    (by rw [hitems]; decide) (Nat.le_refl 512) (by decide) (place_files hplace)
  have hub : catNodesUB [] 0#32 items = 10 := by
    subst hitems
    decide
  obtain ⟨cat, hcat, hnodes, -⟩ := hres.mapped (by omega)
  rw [hroom] at hcat
  -- two records of one key do not keep the tree from being built
  have hbuilt : ∃ v, layOut {} [] 0#32 true items 512 = some (.ok v) := by
    have hstart : (catBlocks [] 0#32 items 512 + blocksFor 512 512) % 2 ^ 32 = 11 := by
      rw [hblocks]
      rfl
    unfold layOut
    dsimp only
    rw [hstart, hplace, hroom]
    dsimp only
    rw [if_neg (by decide), hcat]
    dsimp only
    rw [if_neg (by rw [hblocks]; omega), if_neg (by decide), if_neg (by decide), hforks]
    exact ⟨_, rfl⟩
  obtain ⟨v, hv⟩ := hbuilt
  have hbuild : hfsBuildImage {} [] 0#32 true (.folder [] twoCases) = some (.ok v) := by
    rw [hfsBuildImage, hscan, ← hitems]
    dsimp only
    rw [if_neg (by rw [hitems]; exact List.cons_ne_nil _ _)]
    exact hv
  have hsame : v.items = items := layOut_items.1 v hv
  refine ⟨⟨v, hbuild, hsame.trans hitems, by decide⟩, fun hkeeps => ?_⟩
  have hapart := hkeeps.accepted v hbuild
  rw [hsame, hitems, KeysApart, List.pairwise_pair] at hapart
  exact hapart rfl (by decide)

end Hfs

end OpenPowerMac
