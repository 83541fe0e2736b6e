/-
What the cache operations do to the levels.

Every internal movement of `cache.cpp` (a fill, a castout, a push, an L2
allocation with its own castout, a snooped block, a flush) is one of the named
movements of the two levels: coherence is kept and no read can tell. Each lemma
below takes the shape before and returns the levels after, with the movements
that lead there; none of them asks for coherence. The operations that change the
view (a store, a `dcbz`, a kill) are stated by the one block they change it at.
-/
import OpenPowerMac.CacheLevels

set_option autoImplicit false

namespace OpenPowerMac

open Hierarchy

namespace Cpu

variable {c : Cpu PlainBus}

/-! ## Lookups -/

/-- The L1 is as it was. -/
structure SameL1 {β : Type} (c c' : Cpu β) : Prop where
  l1x : c'.l1x = c.l1x
  l1d : c'.l1d = c.l1d

theorem SameL1.trans {β : Type} {c₁ c₂ c₃ : Cpu β} (h₁₂ : SameL1 c₁ c₂) (h₂₃ : SameL1 c₂ c₃) :
    SameL1 c₁ c₃ := ⟨h₂₃.l1x.trans h₁₂.l1x, h₂₃.l1d.trans h₁₂.l1d⟩

theorem SameL1.l1Entry {β : Type} {c c' : Cpu β} (h : SameL1 c c') : c'.l1Entry = c.l1Entry := by
  funext p
  rw [Cpu.l1Entry, h.l1x, h.l1d, Cpu.l1Entry]

/-- The line of a live way is its entry's. -/
theorem line_of_entry {s : BitVec 7} {w : Fin 8} {k : BitVec 27} {e : Line × Bool}
    (h : c.l1Entry (s, w) = some (k, e)) : (c.l1d s w).b = e.1 ∧ (c.l1d s w).d = e.2 := by
  have hway := wayEntry_of_entry h (c.l1d s w)
  have hsame : c.l1Entry (s, w) = wayEntry s ((c.l1x s).tv w) (c.l1d s w) := rfl
  rw [hsame, hway, Option.some.injEq, Prod.mk.injEq] at h
  rw [← h.2]
  exact ⟨rfl, rfl⟩

/-- The base a castout computes is the block's. -/
theorem base_of_entry (hs : Shape c) {s : BitVec 7} {w : Fin 8} {k : BitVec 27} {e : Line × Bool}
    (h : c.l1Entry (s, w) = some (k, e)) :
    (((c.l1x s).tv w >>> 1) <<< 12) ||| (s.setWidth 32 <<< 5) = blkAddr k := by
  rw [castout_base s _ (hs.tvShort s w)]
  unfold l1Entry wayEntry at h
  by_cases hv : (c.l1x s).tv w &&& 1#32 ≠ 0#32
  · rw [if_pos hv, Option.some.injEq, Prod.mk.injEq] at h
    rw [h.1]
  · rw [if_neg hv] at h
    exact absurd h (by simp)

theorem near_of_entry (hs : Shape c) {p : BitVec 7 × Fin 8} {k : BitVec 27} {e : Line × Bool}
    (h : c.l1Entry p = some (k, e)) : c.levels.near k = some e :=
  (lookup_eq_some_iff hs.l1Distinct k e).mpr ⟨p, h⟩

theorem far_of_entry (hs : Shape c) {i : ℕ} {k : BitVec 27} {e : Line × Bool}
    (h : c.l2Entry i = some (k, e)) : c.levels.far k = some e :=
  (lookup_eq_some_iff hs.l2Distinct k e).mpr ⟨i, h⟩

theorem lineWayQuiet_some (hs : Shape c) {pa : U32} {w : Fin 8}
    (h : c.lineWayQuiet pa = some w) :
    c.l1Entry (setOf pa, w)
      = some (blkOf pa, ((c.l1d (setOf pa) w).b, (c.l1d (setOf pa) w).d)) := by
  have htv : (c.l1x (setOf pa)).tv w = tvOf pa := by simpa using List.find?_some h
  exact (l1Entry_eq_some_iff hs _ pa _).mpr ⟨rfl, htv, rfl⟩

theorem lineWayQuiet_none (hs : Shape c) {pa : U32} (h : c.lineWayQuiet pa = none) :
    c.levels.near (blkOf pa) = none := by
  refine (lookup_eq_none_iff hs.l1Distinct _).mpr ?_
  rintro ⟨s, w⟩ e he
  obtain ⟨hset, htv, _⟩ := (l1Entry_eq_some_iff hs _ pa e).mp he
  have hne := List.find?_eq_none.mp h w (List.mem_finRange w)
  simp only at hset htv
  rw [← hset] at hne
  exact hne (by simpa using htv)

/-- An L2 that is off, inert or unsized holds nothing. -/
theorem l2Entry_none_of_unusable (hs : Shape c)
    (h : c.l2On = false ∨ c.l2Sets = 0#32 ∨ c.l2Inert = true) (i : ℕ) : c.l2Entry i = none := by
  have hv : (c.l2At i).v = false := by
    rcases h with h | h | h
    · exact hs.l2Unused (Or.inl h) i
    · have hempty := hs.l2Size_of_zero h
      rw [l2At_of_size_le (by rw [hempty]; exact Nat.zero_le _)]
    · exact hs.l2Unused (Or.inr h) i
  unfold l2Entry
  rw [hv]
  rfl

theorem far_none_of_unusable (hs : Shape c)
    (h : c.l2On = false ∨ c.l2Sets = 0#32 ∨ c.l2Inert = true) (k : BitVec 27) :
    c.levels.far k = none := by
  have := lookup_empty (l2Entry_none_of_unusable hs h)
  exact congrFun this k

theorem l2Way_some {pa : U32} (hs : Shape c) {i : ℕ} (h : c.l2Way pa = some i) :
    c.l2Entry i = some (blkOf pa, ((c.l2At i).b, (c.l2At i).d)) := by
  unfold l2Way at h
  simp only at h
  by_cases h0 : (c.l2At (c.l2SetOf pa * 2)).v ∧ (c.l2At (c.l2SetOf pa * 2)).tag = pa >>> 5
  · rw [if_pos h0, Option.some.injEq] at h
    rw [← h]
    exact (l2Entry_eq_some_iff hs _ pa _).mpr ⟨h0.1, h0.2, rfl⟩
  · rw [if_neg h0] at h
    by_cases h1 : (c.l2At (c.l2SetOf pa * 2 + 1)).v
        ∧ (c.l2At (c.l2SetOf pa * 2 + 1)).tag = pa >>> 5
    · rw [if_pos h1, Option.some.injEq] at h
      rw [← h]
      exact (l2Entry_eq_some_iff hs _ pa _).mpr ⟨h1.1, h1.2, rfl⟩
    · rw [if_neg h1] at h
      exact absurd h (by simp)

/-- A line that holds the block is one of the two the walk looks at. -/
theorem l2Entry_home (hs : Shape c) {pa : U32} {i : ℕ} {e : Line × Bool}
    (h : c.l2Entry i = some (blkOf pa, e)) : i / 2 = c.l2SetOf pa ∧ i < c.l2.size := by
  obtain ⟨hv, htag, _⟩ := (l2Entry_eq_some_iff hs i pa e).mp h
  refine ⟨?_, lt_size_of_v hv⟩
  rw [(hs.l2Home i hv).2, htag, lineNumber_eq, lineAddr_eq]
  have hk := (blkOf pa).isLt
  have hround : ((blkOf pa).setWidth 32).setWidth 27 = blkOf pa := by
    apply BitVec.eq_of_toNat_eq
    rw [BitVec.toNat_setWidth, BitVec.toNat_setWidth]
    omega
  rw [hround, l2SetOf_blkAddr]

theorem l2Way_none (hs : Shape c) {pa : U32} (h : c.l2Way pa = none) (i : ℕ) (e : Line × Bool) :
    c.l2Entry i ≠ some (blkOf pa, e) := by
  intro he
  obtain ⟨hv, htag, _⟩ := (l2Entry_eq_some_iff hs i pa e).mp he
  have hhome := (l2Entry_home hs he).1
  unfold l2Way at h
  simp only at h
  by_cases h0 : (c.l2At (c.l2SetOf pa * 2)).v ∧ (c.l2At (c.l2SetOf pa * 2)).tag = pa >>> 5
  · rw [if_pos h0] at h
    exact absurd h (by simp)
  · rw [if_neg h0] at h
    by_cases h1 : (c.l2At (c.l2SetOf pa * 2 + 1)).v
        ∧ (c.l2At (c.l2SetOf pa * 2 + 1)).tag = pa >>> 5
    · rw [if_pos h1] at h
      exact absurd h (by simp)
    · -- the line's index is twice its set, or one more
      rcases Nat.mod_two_eq_zero_or_one i with hm | hm
      · have hi : i = c.l2SetOf pa * 2 := by omega
        rw [hi] at hv htag
        exact h0 ⟨hv, htag⟩
      · have hi : i = c.l2SetOf pa * 2 + 1 := by omega
        rw [hi] at hv htag
        exact h1 ⟨hv, htag⟩

theorem setFar_self {h : Levels (BitVec 27) Line} {k : BitVec 27} {e : Option (Line × Bool)}
    (hf : h.far k = e) : h.setFar k e = h := by
  unfold Levels.setFar
  rw [← hf, Function.update_eq_self]

theorem setNear_self {h : Levels (BitVec 27) Line} {k : BitVec 27} {e : Option (Line × Bool)}
    (hn : h.near k = e) : h.setNear k e = h := by
  unfold Levels.setNear
  rw [← hn, Function.update_eq_self]

theorem l2Entry_l2Tick (c : Cpu PlainBus) : c.l2Tick.l2Entry = c.l2Entry := rfl

theorem turns_l2Tick (hs : Shape c) : Turns c c.l2Tick c.levels :=
  ⟨rfl, FetchLess.refl c,
    ⟨hs.tvShort, hs.l1Distinct, hs.l2Size, hs.l2Home, hs.l2Distinct, hs.l2Unused⟩, rfl⟩

/-- Rewriting the line that already holds a block. -/
theorem turns_l2Rewrite (hs : Shape c) {i : ℕ} {k : BitVec 27} {e₀ : Line × Bool} {e : L2Line}
    (h : c.l2Entry i = some (k, e₀)) (hev : e.v = true) (htag : e.tag = (c.l2At i).tag) :
    Turns c (c.l2Put i e) (c.levels.setFar k (some (e.b, e.d))) := by
  have hk : k = blkOf (blkAddr k) := (blkOf_blkAddr k).symm
  have h' := h
  rw [hk] at h'
  obtain ⟨hv, htagi, _⟩ := (l2Entry_eq_some_iff hs i _ _).mp h'
  obtain ⟨hhome, hi⟩ := l2Entry_home hs h'
  have hon : c.l2On = true := by
    by_contra hoff
    rw [Bool.not_eq_true] at hoff
    rw [hs.l2Unused (Or.inl hoff) i] at hv
    exact absurd hv (by simp)
  have hinert : c.l2Inert = false := by
    by_contra hoff
    rw [Bool.not_eq_false] at hoff
    rw [hs.l2Unused (Or.inr hoff) i] at hv
    exact absurd hv (by simp)
  refine turns_l2Place hs hon hinert hi hhome hev ?_ ?_ ?_
  · rw [htag, htagi, lineNumber_blkAddr]
  · intro j e' hj hje
    exact hj (hs.l2Distinct j i k e' e₀ hje h)
  · intro k' e' he
    rw [h, Option.some.injEq, Prod.mk.injEq] at he
    exact he.1.symm

theorem l2Find_of_unusable (pa : U32)
    (h : c.l2On = false ∨ c.l2Sets = 0#32 ∨ c.l2Inert = true) : c.l2Find pa = (none, c) := by
  unfold l2Find
  apply if_pos
  rcases h with h | h | h <;> simp [h]

theorem l2Find_of_usable (pa : U32) (hon : c.l2On = true) (hsets : c.l2Sets ≠ 0#32)
    (hinert : c.l2Inert = false) :
    c.l2Find pa
      = match c.l2Way pa with
        | some i => (some i, c.l2Tick.l2Put i { c.l2At i with age := c.l2Clock + 1#32 })
        | none => (none, c) := by
  unfold l2Find
  apply if_neg
  simp [hon, hsets, hinert]

theorem usable_or (c : Cpu PlainBus) :
    (c.l2On = false ∨ c.l2Sets = 0#32 ∨ c.l2Inert = true)
      ∨ (c.l2On = true ∧ c.l2Sets ≠ 0#32 ∧ c.l2Inert = false) := by
  cases hon : c.l2On
  · exact Or.inl (Or.inl rfl)
  · by_cases hsets : c.l2Sets = 0#32
    · exact Or.inl (Or.inr (Or.inl hsets))
    · cases hinert : c.l2Inert
      · exact Or.inr ⟨rfl, hsets, rfl⟩
      · exact Or.inl (Or.inr (Or.inr rfl))

/-- `l2Find` moves an age and nothing else; what it answers is the far level's. -/
theorem l2Find_spec (hs : Shape c) (pa : U32) :
    Turns c (c.l2Find pa).2 c.levels ∧ SameL1 c (c.l2Find pa).2
    ∧ (∀ i, (c.l2Find pa).1 = some i →
        (c.l2Find pa).2.l2Entry i
          = some (blkOf pa, (((c.l2Find pa).2.l2At i).b, ((c.l2Find pa).2.l2At i).d)))
    ∧ ((c.l2Find pa).1 = none → c.levels.far (blkOf pa) = none) := by
  rcases usable_or c with hu | ⟨hon, hsets, hinert⟩
  · rw [l2Find_of_unusable pa hu]
    refine ⟨Turns.refl hs, ⟨rfl, rfl⟩, ?_, fun _ => far_none_of_unusable hs hu _⟩
    intro i hi
    exact absurd hi (by simp)
  · rw [l2Find_of_usable pa hon hsets hinert]
    cases hway : c.l2Way pa with
    | none =>
        refine ⟨Turns.refl hs, ⟨rfl, rfl⟩, ?_, fun _ => ?_⟩
        · intro i hi
          exact absurd hi (by simp)
        · exact (lookup_eq_none_iff hs.l2Distinct _).mpr (l2Way_none hs hway)
    | some i =>
        have hentry := l2Way_some hs hway
        have htick := turns_l2Tick hs
        have hentry' : c.l2Tick.l2Entry i
            = some (blkOf pa, ((c.l2At i).b, (c.l2At i).d)) := hentry
        have hput := turns_l2Rewrite (e := { c.l2At i with age := c.l2Clock + 1#32 })
          htick.shape hentry' ((l2Entry_eq_some_iff hs i pa _).mp hentry).1 rfl
        have hlev : c.l2Tick.levels.setFar (blkOf pa) (some ((c.l2At i).b, (c.l2At i).d))
            = c.levels := by
          rw [htick.levels]
          exact setFar_self (far_of_entry hs hentry)
        have hat := l2At_l2Put c.l2Tick { c.l2At i with age := c.l2Clock + 1#32 }
          (l2Entry_home hs hentry).2 i
        rw [if_pos rfl] at hat
        refine ⟨(htick.trans hput).congr hlev, ⟨rfl, rfl⟩, ?_, ?_⟩
        · intro j hj
          have hji : i = j := by simpa using hj
          subst hji
          rw [l2Entry_eq_some_iff hput.shape, hat]
          obtain ⟨hv, htag, _⟩ := (l2Entry_eq_some_iff hs i pa _).mp hentry
          exact ⟨hv, htag, rfl⟩
        · intro hnone
          exact absurd hnone (by simp)

/-! ## L2 allocation -/

theorem SameL1.fetchDropAt {β : Type} (c : Cpu β) (pa : U32) : SameL1 c (c.fetchDropAt pa) := by
  obtain ⟨f, hf⟩ := fetchDropAt_eq c pa
  rw [hf]
  exact ⟨rfl, rfl⟩

theorem SameL1.busWriteLine (c : Cpu PlainBus) (base : U32) (l : Line) :
    SameL1 c (c.busWriteLine base l) :=
  (SameL1.fetchDropAt c base).trans ⟨rfl, rfl⟩

theorem fetchDropAt_l2 {β : Type} (c : Cpu β) (pa : U32) :
    (c.fetchDropAt pa).l2 = c.l2 ∧ (c.fetchDropAt pa).l2Sets = c.l2Sets := by
  obtain ⟨f, hf⟩ := fetchDropAt_eq c pa
  rw [hf]
  exact ⟨rfl, rfl⟩

theorem busWriteLine_l2 (c : Cpu PlainBus) (base : U32) (l : Line) :
    (c.busWriteLine base l).l2 = c.l2 ∧ (c.busWriteLine base l).l2Sets = c.l2Sets :=
  fetchDropAt_l2 c base

theorem l2SizeSets_ne_zero (l2cr : U32) : l2SizeSets l2cr ≠ 0#32 := by
  unfold l2SizeSets
  split <;> decide

/-- Sizing an L2 that has no lines yet. -/
theorem turns_l2Resize (hs : Shape c) (h0 : c.l2Sets = 0#32) :
    Turns c c.l2Resize c.levels ∧ SameL1 c c.l2Resize ∧ c.l2Resize.l2Sets ≠ 0#32 := by
  have hempty := hs.l2Size_of_zero h0
  have hne : l2SizeSets c.st.l2cr ≠ c.l2Sets := by
    rw [h0]
    exact l2SizeSets_ne_zero _
  have hflush : c.l2FlushAll true = c.fetchDrop := by
    unfold l2FlushAll
    rw [hempty]
    rfl
  have hsize : c.l2Resize
      = { c.fetchDrop with
          l2Sets := l2SizeSets c.st.l2cr
          l2 := Array.replicate ((l2SizeSets c.st.l2cr).toNat * 2) {} } := by
    unfold l2Resize
    rw [if_pos hne, hflush]
  -- every way of the new array is invalid, so both sides hold nothing
  have hat : ∀ i, (c.l2Resize.l2At i).v = false := by
    intro i
    rw [hsize]
    unfold l2At
    simp only [Array.getD_eq_getD_getElem?, Array.getElem?_replicate]
    split <;> rfl
  have hnone : ∀ i, c.l2Resize.l2Entry i = none := by
    intro i
    unfold l2Entry
    rw [hat i]
    rfl
  have hentry : c.l2Resize.l2Entry = c.l2Entry := by
    funext i
    rw [hnone i, l2Entry_none_of_unusable hs (Or.inr (Or.inl h0)) i]
  have hl1 : c.l2Resize.l1Entry = c.l1Entry := by
    rw [hsize]
    rfl
  have hcore : SameCore c c.l2Resize := by
    rw [hsize]
    rfl
  refine ⟨⟨hcore, ?_, ?_, ?_⟩, ?_, ?_⟩
  · intro s
    rw [hsize]
    exact Or.inr rfl
  · refine ⟨?_, ?_, ?_, ?_, ?_, fun _ => hat⟩
    · rw [hsize]; exact hs.tvShort
    · rw [hl1]; exact hs.l1Distinct
    · rw [hsize]; exact Array.size_replicate
    · intro i hv
      rw [hat i] at hv
      exact absurd hv (by simp)
    · rw [hentry]; exact hs.l2Distinct
  · exact levels_congr hl1 hentry (by rw [hsize]; rfl)
  · rw [hsize]; exact ⟨rfl, rfl⟩
  · rw [hsize]; exact l2SizeSets_ne_zero _

theorem l2Put_l2Put (c : Cpu PlainBus) (i : ℕ) (e e' : L2Line) :
    (c.l2Put i e).l2Put i e' = c.l2Put i e' := by
  unfold l2Put
  simp only [Array.setIfInBounds_setIfInBounds]

theorem l2Put_l2Tick (c : Cpu PlainBus) (i : ℕ) (e : L2Line) :
    (c.l2Put i e).l2Tick = c.l2Tick.l2Put i e := rfl

theorem SameL1.l2Put (c : Cpu PlainBus) (i : ℕ) (e : L2Line) : SameL1 c (c.l2Put i e) := ⟨rfl, rfl⟩

theorem SameL1.l2Tick (c : Cpu PlainBus) : SameL1 c c.l2Tick := ⟨rfl, rfl⟩

/-- The victim is a line of the block's own set. -/
theorem l2Victim_home (c : Cpu PlainBus) (pa : U32) : c.l2Victim pa / 2 = c.l2SetOf pa := by
  unfold l2Victim
  simp only
  split
  · omega
  · split
    · omega
    · split <;> omega

/-- The line an allocation leaves. -/
def l2Filled (age : U32) (pa : U32) (bytes : Line) (d : Bool) : L2Line :=
  { v := true, d := d, tag := pa >>> 5, age := age, b := bytes }

/-- `l2Install` once the array is there: the walk, the victim and its castout. -/
def l2InstallAt (c : Cpu PlainBus) (pa : U32) (bytes : Line) (dirty : Bool) : Cpu PlainBus :=
  let hit := c.l2Way pa
  let i := hit.getD (c.l2Victim pa)
  let old := c.l2At i
  let c := if hit.isNone && old.v && old.d then c.busWriteLine (old.tag <<< 5) old.b else c
  c.l2Tick.l2Put i (l2Filled (c.l2Clock + 1#32) pa bytes (dirty || (hit.isSome && old.d)))

theorem l2Install_usable (pa : U32) (bytes : Line) (dirty : Bool) (hon : c.l2On = true)
    (hinert : c.l2Inert = false) :
    c.l2Install pa bytes dirty
      = (let c := if dirty then c.fetchDropAt pa else c
         let c := if c.l2Sets = 0#32 then c.l2Resize else c
         c.l2InstallAt pa bytes dirty) := by
  have hin : (if dirty then c.fetchDropAt pa else c).l2Inert = false := by
    cases dirty with
    | false => exact hinert
    | true =>
        obtain ⟨f, hf⟩ := fetchDropAt_eq c pa
        rw [if_pos rfl, hf]
        exact hinert
  unfold l2Install
  rw [hon, if_neg (by simp)]
  simp only
  rw [hin, if_neg (by simp)]
  rfl

/-- The castout of the line an allocation evicts. -/
theorem turns_evict (hs : Shape c) {i : ℕ} {j : BitVec 27} {k : BitVec 27} (hjk : j ≠ k)
    {v : Line} {d : Bool} (h : c.l2Entry i = some (j, (v, d))) :
    ∃ h₁, Levels.FlowsOff k c.levels h₁
      ∧ Turns c ((if d then c.busWriteLine (blkAddr j) v else c).l2Put i { c.l2At i with v := false })
          h₁ := by
  refine ⟨_, Levels.flowsOff_evictFar c.levels hjk (far_of_entry hs h), ?_⟩
  cases d with
  | false => exact turns_l2Clear hs h rfl
  | true =>
      have hbus := turns_busWriteLine hs j v
      have hentry : (c.busWriteLine (blkAddr j) v).l2Entry i = some (j, (v, true)) := by
        unfold l2Entry l2At
        rw [(busWriteLine_l2 c (blkAddr j) v).1]
        exact h
      have hclear := turns_l2Clear (e := { c.l2At i with v := false }) hbus.shape hentry rfl
      refine (hbus.trans hclear).congr ?_
      rw [hbus.levels]
      rfl

/-- The state with the line of way `i` written out if it is modified. -/
def l2WriteOut (c : Cpu PlainBus) (i : ℕ) : Cpu PlainBus :=
  if (c.l2At i).v && (c.l2At i).d then c.busWriteLine ((c.l2At i).tag <<< 5) (c.l2At i).b else c

theorem l2WriteOut_same (c : Cpu PlainBus) (i : ℕ) :
    (c.l2WriteOut i).l2 = c.l2 ∧ (c.l2WriteOut i).l2Sets = c.l2Sets
      ∧ SameL1 c (c.l2WriteOut i) := by
  rw [l2WriteOut]
  split
  · exact ⟨(busWriteLine_l2 c _ _).1, (busWriteLine_l2 c _ _).2, SameL1.busWriteLine c _ _⟩
  · exact ⟨rfl, rfl, ⟨rfl, rfl⟩⟩

/-- A way that is emptied for a block it does not hold, whatever it does hold. -/
theorem turns_emptied (hs : Shape c) {i : ℕ} {k : BitVec 27}
    (hother : ∀ e, c.l2Entry i ≠ some (k, e)) :
    ∃ h₁, Levels.FlowsOff k c.levels h₁
      ∧ Turns c ((c.l2WriteOut i).l2Put i { c.l2At i with v := false }) h₁ := by
  rw [l2WriteOut]
  cases hv : (c.l2At i).v with
  | false =>
      have hnone : c.l2Entry i = none := by
        unfold l2Entry
        rw [hv]
        rfl
      exact ⟨c.levels, Levels.FlowsOff.refl k _, turns_l2Clear_none hs hnone rfl⟩
  | true =>
      have hentry : c.l2Entry i
          = some ((c.l2At i).tag.setWidth 27, ((c.l2At i).b, (c.l2At i).d)) := by
        unfold l2Entry
        rw [hv, if_pos rfl]
      have hne : (c.l2At i).tag.setWidth 27 ≠ k := by
        intro heq
        rw [heq] at hentry
        exact hother _ hentry
      obtain ⟨h₁, hoff, hturn⟩ := turns_evict hs hne hentry
      rw [lineAddr_eq, Bool.true_and]
      exact ⟨h₁, hoff, hturn⟩

/-- A hit: the line is rewritten in place. -/
theorem l2InstallAt_hit (hs : Shape c) {k : BitVec 27} {i : ℕ} (bytes : Line) (dirty : Bool)
    (hway : c.l2Way (blkAddr k) = some i) :
    Turns c (c.l2InstallAt (blkAddr k) bytes dirty)
        (c.levels.setFar k (some (bytes, dirty || (c.levels.far k).any (fun e => e.2))))
      ∧ SameL1 c (c.l2InstallAt (blkAddr k) bytes dirty) := by
  have hentry := l2Way_some hs hway
  rw [blkOf_blkAddr k] at hentry
  have hput := turns_l2Rewrite
    (e := l2Filled (c.l2Clock + 1#32) (blkAddr k) bytes (dirty || (c.l2At i).d))
    (turns_l2Tick hs).shape hentry rfl
    ((l2Entry_eq_some_iff hs i (blkAddr k) _).mp (l2Way_some hs hway)).2.1.symm
  have hinst : c.l2InstallAt (blkAddr k) bytes dirty
      = c.l2Tick.l2Put i
          (l2Filled (c.l2Clock + 1#32) (blkAddr k) bytes (dirty || (c.l2At i).d)) := by
    unfold l2InstallAt
    simp only [hway, Option.getD_some, Option.isNone_some, Bool.false_and, Bool.false_eq_true,
      if_false, Option.isSome_some, Bool.true_and]
  rw [hinst, far_of_entry hs hentry]
  refine ⟨((turns_l2Tick hs).trans hput).congr ?_, ⟨rfl, rfl⟩⟩
  rw [(turns_l2Tick hs).levels]
  rfl

/-- With the block nowhere in the L2, neither is it once a way is emptied. -/
theorem l2Entry_emptied {k : BitVec 27} (hnohit : ∀ j e, c.l2Entry j ≠ some (k, e)) {i : ℕ}
    (hi : i < c.l2.size) (j : ℕ) (e : Line × Bool) :
    ((c.l2WriteOut i).l2Put i { c.l2At i with v := false }).l2Entry j ≠ some (k, e) := by
  obtain ⟨hl2, -, -⟩ := l2WriteOut_same c i
  intro hje
  rw [l2Entry_l2Put _ (by rw [hl2]; exact hi)] at hje
  by_cases hji : j = i
  · rw [hji, Function.update_self] at hje
    exact absurd hje (by simp)
  · rw [Function.update_of_ne hji] at hje
    have hje' : c.l2Entry j = some (k, e) := by
      unfold l2Entry l2At at hje ⊢
      rw [hl2] at hje
      exact hje
    exact hnohit j e hje'

/-- A miss: the victim's way is emptied first, then it takes the block. -/
theorem l2InstallAt_miss (hs : Shape c) (hon : c.l2On = true) (hinert : c.l2Inert = false)
    (hsets : c.l2Sets ≠ 0#32) {k : BitVec 27} (bytes : Line) (dirty : Bool)
    (hway : c.l2Way (blkAddr k) = none) :
    ∃ h₁, Levels.FlowsOff k c.levels h₁
      ∧ Turns c (c.l2InstallAt (blkAddr k) bytes dirty) (h₁.setFar k (some (bytes, dirty)))
      ∧ SameL1 c (c.l2InstallAt (blkAddr k) bytes dirty) := by
  have hnohit := l2Way_none hs hway
  rw [blkOf_blkAddr k] at hnohit
  have hhome := l2Victim_home c (blkAddr k)
  have hi : c.l2Victim (blkAddr k) < c.l2.size := by
    have hlt := l2SetOf_lt c hsets (blkAddr k)
    rw [hs.l2Size]
    omega
  obtain ⟨i, hvictim⟩ : ∃ i, c.l2Victim (blkAddr k) = i := ⟨_, rfl⟩
  rw [hvictim] at hhome hi
  obtain ⟨h₁, hoff, hturn⟩ := turns_emptied (i := i) hs (hnohit i)
  have hentries := l2Entry_emptied hnohit hi
  obtain ⟨hl2, hl2Sets, hl1⟩ := l2WriteOut_same c i
  have hinst : c.l2InstallAt (blkAddr k) bytes dirty
      = ((c.l2WriteOut i).l2Put i { c.l2At i with v := false }).l2Tick.l2Put i
          (l2Filled ((c.l2WriteOut i).l2Clock + 1#32) (blkAddr k) bytes dirty) := by
    unfold l2InstallAt
    simp only [hway, Option.getD_none, hvictim, Option.isNone_none, Bool.true_and,
      Option.isSome_none, Bool.false_and, Bool.or_false]
    rw [← l2WriteOut, l2Put_l2Tick, l2Put_l2Put]
  obtain ⟨c₁, hc₁⟩ : ∃ c₁, c.l2WriteOut i = c₁ := ⟨_, rfl⟩
  rw [hc₁] at hturn hentries hl2 hl2Sets hl1 hinst
  have hi₁ : i < c₁.l2.size := by rw [hl2]; exact hi
  have hsets₁ : (c₁.l2Put i { c.l2At i with v := false }).l2Tick.l2Sets = c.l2Sets := hl2Sets
  have htick := turns_l2Tick hturn.shape
  -- placing needs the way empty and its set the block's own
  have hplace := turns_l2Place (c := (c₁.l2Put i { c.l2At i with v := false }).l2Tick)
    (i := i) (k := k) (e := l2Filled (c₁.l2Clock + 1#32) (blkAddr k) bytes dirty) htick.shape
    (by rw [htick.core.l2On, hturn.core.l2On]; exact hon)
    (by rw [htick.core.l2Inert, hturn.core.l2Inert]; exact hinert)
    (by rw [show ((c₁.l2Put i { c.l2At i with v := false }).l2Tick).l2.size
          = c₁.l2.size from l2Put_size c₁ i _]; exact hi₁)
    (by rw [hhome, l2SetOf_congr hsets₁])
    rfl (lineNumber_blkAddr k) (fun j e' _ => by rw [l2Entry_l2Tick]; exact hentries j e')
    (fun k' e' he => by
      have hnone : (c₁.l2Put i { c.l2At i with v := false }).l2Entry i = none := by
        rw [l2Entry_l2Put c₁ hi₁, Function.update_self]
        rfl
      rw [l2Entry_l2Tick, hnone] at he
      exact absurd he (by simp))
  refine ⟨h₁, hoff, ?_, ?_⟩
  · rw [hinst]
    refine ((hturn.trans htick).trans hplace).congr ?_
    rw [htick.levels, hturn.levels]
    rfl
  · rw [hinst]
    exact ((hl1.trans (SameL1.l2Put c₁ i _)).trans (SameL1.l2Tick _)).trans (SameL1.l2Put _ i _)

/-- **L2 allocation.** Whatever it evicts, the block is then held by the L2, dirty
when it was installed dirty or the line it hit was. -/
theorem l2InstallAt_spec (hs : Shape c) (hon : c.l2On = true) (hinert : c.l2Inert = false)
    (hsets : c.l2Sets ≠ 0#32) (k : BitVec 27) (bytes : Line) (dirty : Bool) :
    ∃ h₁, Levels.FlowsOff k c.levels h₁
      ∧ Turns c (c.l2InstallAt (blkAddr k) bytes dirty)
          (h₁.setFar k (some (bytes, dirty || (c.levels.far k).any (fun e => e.2))))
      ∧ SameL1 c (c.l2InstallAt (blkAddr k) bytes dirty) := by
  cases hway : c.l2Way (blkAddr k) with
  | some i => exact ⟨c.levels, Levels.FlowsOff.refl k _, l2InstallAt_hit hs bytes dirty hway⟩
  | none =>
      have hnohit := l2Way_none hs hway
      rw [blkOf_blkAddr k] at hnohit
      have hfar : c.levels.far k = none := (lookup_eq_none_iff hs.l2Distinct k).mpr hnohit
      rw [hfar, Option.any_none, Bool.or_false]
      exact l2InstallAt_miss hs hon hinert hsets bytes dirty hway

theorem l2Install_spec (hs : Shape c) (hon : c.l2On = true) (hinert : c.l2Inert = false)
    (k : BitVec 27) (bytes : Line) (dirty : Bool) :
    ∃ h₁, Levels.FlowsOff k c.levels h₁
      ∧ Turns c (c.l2Install (blkAddr k) bytes dirty)
          (h₁.setFar k (some (bytes, dirty || (c.levels.far k).any (fun e => e.2))))
      ∧ SameL1 c (c.l2Install (blkAddr k) bytes dirty) := by
  have hdrop : Turns c (if dirty then c.fetchDropAt (blkAddr k) else c) c.levels
      ∧ SameL1 c (if dirty then c.fetchDropAt (blkAddr k) else c) := by
    cases dirty with
    | false => exact ⟨Turns.refl hs, ⟨rfl, rfl⟩⟩
    | true => exact ⟨turns_fetchDropAt hs (blkAddr k), SameL1.fetchDropAt c (blkAddr k)⟩
  rw [l2Install_usable (blkAddr k) bytes dirty hon hinert]
  obtain ⟨c₀, hc₀⟩ : ∃ c₀, (if dirty then c.fetchDropAt (blkAddr k) else c) = c₀ := ⟨_, rfl⟩
  rw [hc₀] at hdrop
  obtain ⟨hturn₀, hsame₀⟩ := hdrop
  have hsize : ∃ c₁, (if c₀.l2Sets = 0#32 then c₀.l2Resize else c₀) = c₁
      ∧ Turns c₀ c₁ c₀.levels ∧ SameL1 c₀ c₁ ∧ c₁.l2Sets ≠ 0#32 := by
    by_cases h0 : c₀.l2Sets = 0#32
    · obtain ⟨hturn, hsame, hne⟩ := turns_l2Resize hturn₀.shape h0
      exact ⟨c₀.l2Resize, if_pos h0, hturn, hsame, hne⟩
    · exact ⟨c₀, if_neg h0, Turns.refl hturn₀.shape, ⟨rfl, rfl⟩, h0⟩
  obtain ⟨c₁, hc₁, hturn₁, hsame₁, hne⟩ := hsize
  have hturn := hturn₀.trans hturn₁
  obtain ⟨h₁, hoff, hinst, hsame₂⟩ := l2InstallAt_spec hturn.shape
    (by rw [hturn.core.l2On]; exact hon) (by rw [hturn.core.l2Inert]; exact hinert) hne k bytes
    dirty
  have hlev : c₁.levels = c.levels := by rw [hturn.levels, hturn₀.levels]
  simp only [hc₀, hc₁]
  rw [hlev] at hoff hinst
  exact ⟨h₁, hoff, hturn.trans hinst, (hsame₀.trans hsame₁).trans hsame₂⟩

/-- A clean install into an L2 that holds nothing, or is not there. -/
theorem l2Install_unusable (bytes : Line) (k : BitVec 27)
    (h : c.l2On = false ∨ c.l2Inert = true) : c.l2Install (blkAddr k) bytes false = c := by
  unfold l2Install
  cases hon : c.l2On with
  | false => exact if_pos (by simp)
  | true =>
      have hinert : c.l2Inert = true := by
        rcases h with h | h
        · rw [hon] at h; exact absurd h (by simp)
        · exact h
      rw [if_neg (by simp)]
      simp only [Bool.false_eq_true, if_false, hinert, if_true]

/-- A modified install into an inert L2 goes straight to memory. -/
theorem l2Install_inert (hs : Shape c) (hon : c.l2On = true) (hinert : c.l2Inert = true)
    (bytes : Line) (k : BitVec 27) :
    Turns c (c.l2Install (blkAddr k) bytes true) (c.levels.setMem k bytes)
      ∧ SameL1 c (c.l2Install (blkAddr k) bytes true) := by
  have hdrop := turns_fetchDropAt hs (blkAddr k)
  have hbus := turns_busWriteLine hdrop.shape k bytes
  have hin : (c.fetchDropAt (blkAddr k)).l2Inert = true := by
    rw [hdrop.core.l2Inert]
    exact hinert
  have heq : c.l2Install (blkAddr k) bytes true
      = (c.fetchDropAt (blkAddr k)).busWriteLine (blkAddr k) bytes := by
    unfold l2Install
    rw [hon, if_neg (by simp)]
    simp only [if_true, hin]
  rw [heq]
  refine ⟨(hdrop.trans hbus).congr ?_, ?_⟩
  · rw [hdrop.levels]
  · exact (SameL1.fetchDropAt c _).trans (SameL1.busWriteLine _ _ _)

/-- One way of the invalidation: the block's copy dies, any other line stays. -/
theorem l2Unset_spec (hs : Shape c) (k : BitVec 27) (i : ℕ) :
    (Turns c (c.l2Unset (blkAddr k >>> 5) i) (c.levels.setFar k none)
      ∨ (c.l2Unset (blkAddr k >>> 5) i = c ∧ ∀ e, c.l2Entry i ≠ some (k, e)))
    ∧ SameL1 c (c.l2Unset (blkAddr k >>> 5) i)
    ∧ (c.l2Unset (blkAddr k >>> 5) i).l2Sets = c.l2Sets := by
  have hiff := fun e => l2Entry_eq_some_iff hs i (blkAddr k) e
  rw [blkOf_blkAddr] at hiff
  by_cases h : (c.l2At i).v ∧ (c.l2At i).tag = blkAddr k >>> 5
  · have hentry := (hiff _).mpr ⟨h.1, h.2, rfl⟩
    have heq : c.l2Unset (blkAddr k >>> 5) i = c.l2Put i { c.l2At i with v := false } := if_pos h
    rw [heq]
    exact ⟨Or.inl (turns_l2Clear hs hentry rfl), ⟨rfl, rfl⟩, rfl⟩
  · have heq : c.l2Unset (blkAddr k >>> 5) i = c := if_neg h
    rw [heq]
    refine ⟨Or.inr ⟨rfl, ?_⟩, ⟨rfl, rfl⟩, rfl⟩
    intro e he
    exact h ⟨((hiff e).mp he).1, ((hiff e).mp he).2.1⟩

/-- **L2 invalidation** empties the block's far entry. -/
theorem l2Invalidate_spec (hs : Shape c) (k : BitVec 27) :
    Turns c (c.l2Invalidate (blkAddr k)) (c.levels.setFar k none)
      ∧ SameL1 c (c.l2Invalidate (blkAddr k)) := by
  have hdrop := turns_fetchDropAt hs (blkAddr k)
  have hsame := SameL1.fetchDropAt c (blkAddr k)
  unfold l2Invalidate
  obtain ⟨c₀, hc₀⟩ : ∃ c₀, c.fetchDropAt (blkAddr k) = c₀ := ⟨_, rfl⟩
  simp only [hc₀]
  rw [hc₀] at hdrop hsame
  by_cases h0 : c₀.l2Sets = 0#32
  · rw [if_pos h0]
    have hnone := far_none_of_unusable hdrop.shape (Or.inr (Or.inl h0)) k
    rw [hdrop.levels] at hnone
    exact ⟨hdrop.congr (setFar_self hnone).symm, hsame⟩
  · rw [if_neg h0]
    obtain ⟨i, hi⟩ : ∃ i, c₀.l2SetOf (blkAddr k) * 2 = i := ⟨_, rfl⟩
    simp only [hi]
    have hidem : (c.levels.setFar k none).setFar k none = c.levels.setFar k none := by
      simp only [Levels.setFar, Function.update_idem]
    obtain ⟨hfirst, hsame₁, hsets₁⟩ := l2Unset_spec hdrop.shape k i
    rw [hdrop.levels] at hfirst
    rcases hfirst with hturn | ⟨heq, hno₀⟩
    · obtain ⟨hsecond, hsame₂, _⟩ := l2Unset_spec hturn.shape k (i + 1)
      refine ⟨?_, (hsame.trans hsame₁).trans hsame₂⟩
      rw [hturn.levels, hidem] at hsecond
      rcases hsecond with hturn₂ | ⟨heq₂, _⟩
      · exact (hdrop.trans hturn).trans hturn₂
      · rw [heq₂]
        exact hdrop.trans hturn
    · rw [heq]
      obtain ⟨hsecond, hsame₂, _⟩ := l2Unset_spec hdrop.shape k (i + 1)
      refine ⟨?_, hsame.trans hsame₂⟩
      rw [hdrop.levels] at hsecond
      rcases hsecond with hturn₂ | ⟨heq₂, hno₁⟩
      · exact hdrop.trans hturn₂
      · -- neither line of the set holds the block, so nothing does
        rw [heq₂]
        have hnone : c₀.levels.far k = none := by
          refine (lookup_eq_none_iff hdrop.shape.l2Distinct k).mpr ?_
          intro j e he
          have he' := he
          rw [← blkOf_blkAddr k] at he'
          have hhome := (l2Entry_home hdrop.shape he').1
          rcases Nat.mod_two_eq_zero_or_one j with hm | hm
          · exact hno₀ e (by rw [show i = j by omega]; exact he)
          · exact hno₁ e (by rw [show i + 1 = j by omega]; exact he)
        rw [hdrop.levels] at hnone
        exact hdrop.congr (setFar_self hnone).symm

/-! ## Castout and push -/

/-- A modified near copy has been handed down: cleaning it is a movement. -/
def HandedDown (c c₁ : Cpu PlainBus) (k : BitVec 27) (b : Line) : Prop :=
  ∃ h, Turns c c₁ h ∧ SameL1 c c₁ ∧ h.near = c.levels.near
    ∧ Levels.Flows (fun _ => False) c.levels (h.setNear k (some (b, false)))

theorem handedDown_l2Install (hs : Shape c) (hon : c.l2On = true) {k : BitVec 27} {b : Line}
    {d : Bool} (hn : c.levels.near k = some (b, d)) :
    HandedDown c (c.l2Install (blkAddr k) b true) k b := by
  cases hinert : c.l2Inert with
  | false =>
      obtain ⟨h₁, hoff, hturn, hsame⟩ := l2Install_spec hs hon hinert k b true
      refine ⟨_, hturn, hsame, hoff.near, ?_⟩
      rw [Bool.true_or]
      have hn₁ : h₁.near k = some (b, d) := by rw [hoff.near]; exact hn
      exact hoff.flows.tail (Levels.Flow.castNear h₁ k b d hn₁)
  | true =>
      obtain ⟨hturn, hsame⟩ := l2Install_inert hs hon hinert b k
      refine ⟨_, hturn, hsame, rfl, ?_⟩
      have hfar : (c.levels.setMem k b).far k = none :=
        far_none_of_unusable hs (Or.inr (Or.inr hinert)) k
      have hpush : Levels.Flow (fun _ => False) c.levels _ := Levels.Flow.pushNear c.levels k b d hn
      rw [setFar_self hfar] at hpush
      exact Relation.ReflTransGen.single hpush

theorem handedDown_busWriteLine (hs : Shape c) (hon : c.l2On = false) {k : BitVec 27} {b : Line}
    {d : Bool} (hn : c.levels.near k = some (b, d)) :
    HandedDown c (c.busWriteLine (blkAddr k) b) k b := by
  refine ⟨_, turns_busWriteLine hs k b, SameL1.busWriteLine c _ _, rfl, ?_⟩
  have hfar : (c.levels.setMem k b).far k = none := far_none_of_unusable hs (Or.inl hon) k
  have hpush : Levels.Flow (fun _ => False) c.levels _ := Levels.Flow.pushNear c.levels k b d hn
  rw [setFar_self hfar] at hpush
  exact Relation.ReflTransGen.single hpush

theorem handedDown_push (hs : Shape c) {k : BitVec 27} {b : Line} {d : Bool}
    (hn : c.levels.near k = some (b, d)) :
    HandedDown c ((c.busWriteLine (blkAddr k) b).l2Invalidate (blkAddr k)) k b := by
  have hbus := turns_busWriteLine hs k b
  obtain ⟨hinv, hsame⟩ := l2Invalidate_spec hbus.shape k
  rw [hbus.levels] at hinv
  exact ⟨_, hbus.trans hinv, (SameL1.busWriteLine c _ _).trans hsame, rfl,
    Relation.ReflTransGen.single (Levels.Flow.pushNear c.levels k b d hn)⟩

/-- After the hand-down the way is marked clean. -/
theorem HandedDown.clean {c₁ : Cpu PlainBus} {k : BitVec 27} {e : Line × Bool} {s : BitVec 7}
    {w : Fin 8} (h : HandedDown c c₁ k e.1) (hentry : c.l1Entry (s, w) = some (k, e)) :
    ∃ h', Levels.Flows (fun _ => False) c.levels h'
      ∧ Turns c (c₁.setDLine s w { b := e.1, d := false }) h'
      ∧ h'.near = Function.update c.levels.near k (some (e.1, false))
      ∧ (c₁.setDLine s w { b := e.1, d := false }).l1Entry
          = Function.update c.l1Entry (s, w) (some (k, (e.1, false))) := by
  obtain ⟨h, hturn, hsame, hnear, hmoves⟩ := h
  have hentry₁ : c₁.l1Entry (s, w) = some (k, e) := by rw [hsame.l1Entry]; exact hentry
  have hset := turns_setDLine hturn.shape hentry₁ { b := e.1, d := false }
  rw [hturn.levels] at hset
  refine ⟨_, hmoves, hturn.trans hset, ?_, ?_⟩
  · rw [← hnear]
    rfl
  · rw [l1Entry_setDLine, wayEntry_of_entry hentry₁, hsame.l1Entry]

/-- **Castout** of a way, into the L2 or memory. -/
theorem lineCastout_spec (hs : Shape c) {s : BitVec 7} {w : Fin 8} {k : BitVec 27}
    {e : Line × Bool} (hentry : c.l1Entry (s, w) = some (k, e)) :
    ∃ h', Levels.Flows (fun _ => False) c.levels h'
      ∧ Turns c (c.lineCastout s w ((c.l1x s).tv w >>> 1)) h'
      ∧ h'.near = Function.update c.levels.near k (some (e.1, false))
      ∧ (c.lineCastout s w ((c.l1x s).tv w >>> 1)).l1Entry
          = Function.update c.l1Entry (s, w) (some (k, (e.1, false))) := by
  have hnear := near_of_entry hs hentry
  have hline := (line_of_entry hentry).1
  unfold lineCastout
  simp only [base_of_entry hs hentry, hline]
  cases hon : c.l2On with
  | false => exact (handedDown_busWriteLine hs hon hnear).clean hentry
  | true => exact (handedDown_l2Install hs hon hnear).clean hentry

/-- **Push** of a way: to memory, or parked in the L2. -/
theorem linePush_spec (hs : Shape c) {s : BitVec 7} {w : Fin 8} {k : BitVec 27}
    {e : Line × Bool} (hentry : c.l1Entry (s, w) = some (k, e)) :
    ∃ h', Levels.Flows (fun _ => False) c.levels h'
      ∧ Turns c (c.linePush s w ((c.l1x s).tv w >>> 1)) h'
      ∧ h'.near = Function.update c.levels.near k (some (e.1, false))
      ∧ (c.linePush s w ((c.l1x s).tv w >>> 1)).l1Entry
          = Function.update c.l1Entry (s, w) (some (k, (e.1, false))) := by
  have hnear := near_of_entry hs hentry
  have hline := (line_of_entry hentry).1
  unfold linePush
  simp only [base_of_entry hs hentry, hline]
  by_cases hts : (c.l2On && c.st.l2cr &&& 0x00040000#32 != 0#32) = true
  · rw [if_pos hts]
    exact (handedDown_l2Install hs (by simpa using (Bool.and_eq_true_iff.mp hts).1) hnear).clean
      hentry
  · rw [if_neg hts]
    exact (handedDown_push hs hnear).clean hentry

end Cpu

end OpenPowerMac
