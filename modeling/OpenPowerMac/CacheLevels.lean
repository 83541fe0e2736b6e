/-
The caches as two levels over memory.

`levels` reads the L1 and the L2 as directories (`l1Entry`, `l2Entry`) and the
plain bus as a memory of blocks. `Shape` is what makes those readings well
defined: no block sits in two ways, every L2 line sits in the set its own tag
selects, the L2 array has the size its set count says, and an L2 that is
switched off (or inert) holds nothing.

The lemmas below are one for each primitive update of the processor record: what
it does to the shape and to the levels. `Turns c c' h` bundles the outcome of an
operation: nothing outside the memory system moved, fetch blocks were at most
dropped, the shape is kept, and the levels are now `h`.
-/
import OpenPowerMac.Block
import OpenPowerMac.Hierarchy

set_option autoImplicit false

namespace OpenPowerMac

open Hierarchy

namespace Cpu

/-! ## Frames -/

section Frames

variable {β : Type}

/-- `c` with the memory system of `m`: the bus, both caches and the fetch blocks. -/
def withMem (c m : Cpu β) : Cpu β :=
  { c with
    bus := m.bus, l1x := m.l1x, l1d := m.l1d, l1dClock := m.l1dClock,
    fetchLine := m.fetchLine, l2 := m.l2, l2Sets := m.l2Sets, l2Clock := m.l2Clock }

/-- Nothing outside the memory system differs. -/
def SameCore (c c' : Cpu β) : Prop := c' = c.withMem c'

theorem SameCore.refl (c : Cpu β) : SameCore c c := rfl

theorem SameCore.trans {c₁ c₂ c₃ : Cpu β} (h₁₂ : SameCore c₁ c₂) (h₂₃ : SameCore c₂ c₃) :
    SameCore c₁ c₃ := by
  calc c₃ = c₂.withMem c₃ := h₂₃
    _ = (c₁.withMem c₂).withMem c₃ := congrArg (fun c => c.withMem c₃) h₁₂
    _ = c₁.withMem c₃ := rfl

theorem SameCore.st {c c' : Cpu β} (h : SameCore c c') : c'.st = c.st := by
  have heq : c' = c.withMem c' := h
  rw [heq]
  rfl

theorem SameCore.l2Inert {c c' : Cpu β} (h : SameCore c c') : c'.l2Inert = c.l2Inert := by
  have heq : c' = c.withMem c' := h
  rw [heq]
  rfl

theorem SameCore.dceOn {c c' : Cpu β} (h : SameCore c c') : c'.dceOn = c.dceOn := by
  rw [Cpu.dceOn, h.st, Cpu.dceOn]

theorem SameCore.l2On {c c' : Cpu β} (h : SameCore c c') : c'.l2On = c.l2On := by
  rw [Cpu.l2On, h.st, Cpu.l2On]

/-- Fetch blocks were dropped, none was filled. -/
def FetchLess (c c' : Cpu β) : Prop :=
  ∀ s, c'.fetchLine s = c.fetchLine s ∨ (c'.fetchLine s).base = 1#32

theorem FetchLess.refl (c : Cpu β) : FetchLess c c := fun _ => Or.inl rfl

theorem FetchLess.trans {c₁ c₂ c₃ : Cpu β} (h₁₂ : FetchLess c₁ c₂) (h₂₃ : FetchLess c₂ c₃) :
    FetchLess c₁ c₃ := by
  intro s
  rcases h₂₃ s with h | h
  · rw [h]; exact h₁₂ s
  · exact Or.inr h

theorem fetchDropAt_of_eq {c : Cpu β} {pa : U32}
    (h : (c.fetchLine (fetchSlot pa)).base = blockBase pa) :
    c.fetchDropAt pa
      = c.setFetchLine (fetchSlot pa) { c.fetchLine (fetchSlot pa) with base := 1#32 } :=
  if_pos h

theorem fetchDropAt_of_ne {c : Cpu β} {pa : U32}
    (h : (c.fetchLine (fetchSlot pa)).base ≠ blockBase pa) : c.fetchDropAt pa = c :=
  if_neg h

theorem setFetchLine_fetchLine (c : Cpu β) (s : BitVec 12) (fl : FetchLine) :
    (c.setFetchLine s fl).fetchLine = Function.update c.fetchLine s fl := rfl

theorem FetchLess.fetchDropAt (c : Cpu β) (pa : U32) : FetchLess c (c.fetchDropAt pa) := by
  by_cases hb : (c.fetchLine (fetchSlot pa)).base = blockBase pa
  · rw [fetchDropAt_of_eq hb]
    intro s
    by_cases hs : s = fetchSlot pa
    · right
      rw [hs, setFetchLine_fetchLine, Function.update_self]
    · left
      rw [setFetchLine_fetchLine, Function.update_of_ne hs]
  · rw [fetchDropAt_of_ne hb]
    exact FetchLess.refl c

/-- `fetchDropAt` touches the fetch blocks only. -/
theorem fetchDropAt_eq (c : Cpu β) (pa : U32) :
    ∃ f, c.fetchDropAt pa = { c with fetchLine := f } := by
  by_cases hb : (c.fetchLine (fetchSlot pa)).base = blockBase pa
  · exact ⟨_, fetchDropAt_of_eq hb⟩
  · exact ⟨c.fetchLine, fetchDropAt_of_ne hb⟩

/-- The slot of a block does not hold it. -/
def Dropped (c : Cpu β) (k : BitVec 27) : Prop :=
  (c.fetchLine (fetchSlot (blkAddr k))).base ≠ blkAddr k

theorem fetchSlot_blkAddr (pa : U32) : fetchSlot (blkAddr (blkOf pa)) = fetchSlot pa := by
  apply BitVec.eq_of_toNat_eq
  rw [fetchSlot, fetchSlot, BitVec.extractLsb'_toNat, BitVec.extractLsb'_toNat,
    Nat.shiftRight_eq_div_pow, Nat.shiftRight_eq_div_pow, blkAddr_toNat, blkOf_toNat]
  omega

theorem dropped_iff (c : Cpu β) (pa : U32) :
    c.Dropped (blkOf pa) ↔ (c.fetchLine (fetchSlot pa)).base ≠ blockBase pa := by
  rw [Dropped, fetchSlot_blkAddr, blockBase_eq]

/-- No block's base is the mark of an empty slot. -/
theorem blkAddr_ne_one (k : BitVec 27) : (1#32 : U32) ≠ blkAddr k := by
  intro h
  have hnat := congrArg BitVec.toNat h
  rw [blkAddr_toNat, show (1#32).toNat = 1 from rfl] at hnat
  omega

theorem Dropped.less {c c' : Cpu β} {k : BitVec 27} (hd : c.Dropped k) (h : FetchLess c c') :
    c'.Dropped k := by
  rcases h (fetchSlot (blkAddr k)) with hs | hs
  · rw [Dropped, hs]
    exact hd
  · rw [Dropped, hs]
    exact blkAddr_ne_one k

theorem dropped_fetchDropAt (c : Cpu β) (pa : U32) : (c.fetchDropAt pa).Dropped (blkOf pa) := by
  by_cases hb : (c.fetchLine (fetchSlot pa)).base = blockBase pa
  · rw [Dropped, fetchSlot_blkAddr, fetchDropAt_of_eq hb, setFetchLine_fetchLine,
      Function.update_self]
    exact blkAddr_ne_one (blkOf pa)
  · rw [fetchDropAt_of_ne hb, dropped_iff]
    exact hb

/-- Dropping a dropped block does nothing. -/
theorem Dropped.fetchDropAt {c : Cpu β} {pa : U32} (h : c.Dropped (blkOf pa)) :
    c.fetchDropAt pa = c := fetchDropAt_of_ne ((dropped_iff c pa).mp h)

end Frames

/-! ## The two directories -/

section Directories

variable {β : Type}

/-- What a way with lookup word `tv` and line `e` holds. -/
def wayEntry (s : BitVec 7) (tv : U32) (e : DLine) : Option (BitVec 27 × (Line × Bool)) :=
  if tv &&& 1#32 ≠ 0#32 then some (l1Block s tv, (e.b, e.d)) else none

/-- The L1 as a directory of ways. -/
def l1Entry (c : Cpu β) (p : BitVec 7 × Fin 8) : Option (BitVec 27 × (Line × Bool)) :=
  wayEntry p.1 ((c.l1x p.1).tv p.2) (c.l1d p.1 p.2)

/-- The L2 as a directory of lines. -/
def l2Entry (c : Cpu β) (i : ℕ) : Option (BitVec 27 × (Line × Bool)) :=
  if (c.l2At i).v then some ((c.l2At i).tag.setWidth 27, ((c.l2At i).b, (c.l2At i).d)) else none

/-- The shape of the caches between operations. -/
structure Shape (c : Cpu β) : Prop where
  tvShort : ∀ s w, ((c.l1x s).tv w).toNat < 2 ^ 21
  l1Distinct : Distinct c.l1Entry
  l2Size : c.l2.size = c.l2Sets.toNat * 2
  l2Home : ∀ i, (c.l2At i).v = true →
    (c.l2At i).tag.toNat < 2 ^ 27 ∧ i / 2 = c.l2SetOf ((c.l2At i).tag <<< 5)
  l2Distinct : Distinct c.l2Entry
  l2Unused : c.l2On = false ∨ c.l2Inert = true → ∀ i, (c.l2At i).v = false

/-- A plain bus as a memory of blocks. -/
def memLine (b : PlainBus) (k : BitVec 27) : Line := fun o => b.mem (byteAddr k o)

/-- The caches and the memory as two write-back levels. -/
noncomputable def levels (c : Cpu PlainBus) : Levels (BitVec 27) Line where
  near := lookup c.l1Entry
  far := lookup c.l2Entry
  mem := memLine c.bus

theorem levels_congr {c c' : Cpu PlainBus} (h1 : c'.l1Entry = c.l1Entry)
    (h2 : c'.l2Entry = c.l2Entry) (hm : memLine c'.bus = memLine c.bus) :
    c'.levels = c.levels := by
  unfold levels
  rw [h1, h2, hm]

/-- The outcome of an operation of the memory system. -/
structure Turns (c c' : Cpu PlainBus) (h : Levels (BitVec 27) Line) : Prop where
  core : SameCore c c'
  fetch : FetchLess c c'
  shape : Shape c'
  levels : c'.levels = h

theorem Turns.refl {c : Cpu PlainBus} (hs : Shape c) : Turns c c c.levels :=
  ⟨SameCore.refl c, FetchLess.refl c, hs, rfl⟩

theorem Turns.trans {c₁ c₂ c₃ : Cpu PlainBus} {h₂ h₃ : Levels (BitVec 27) Line}
    (h₁₂ : Turns c₁ c₂ h₂) (h₂₃ : Turns c₂ c₃ h₃) : Turns c₁ c₃ h₃ :=
  ⟨h₁₂.core.trans h₂₃.core, h₁₂.fetch.trans h₂₃.fetch, h₂₃.shape, h₂₃.levels⟩

theorem Turns.congr {c c' : Cpu PlainBus} {h h' : Levels (BitVec 27) Line} (ht : Turns c c' h)
    (heq : h = h') : Turns c c' h' := heq ▸ ht

theorem Shape.l2Size_of_zero {c : Cpu β} (hs : Shape c) (h0 : c.l2Sets = 0#32) :
    c.l2 = #[] := by
  have hsize := hs.l2Size
  rw [h0] at hsize
  exact Array.eq_empty_of_size_eq_zero hsize

theorem l2At_of_size_le {c : Cpu β} {i : ℕ} (h : c.l2.size ≤ i) : c.l2At i = {} := by
  rw [l2At, Array.getD_eq_getD_getElem?, Array.getElem?_eq_none h]
  rfl

theorem lt_size_of_v {c : Cpu β} {i : ℕ} (h : (c.l2At i).v = true) : i < c.l2.size := by
  by_contra hge
  rw [l2At_of_size_le (Nat.le_of_not_lt hge)] at h
  exact absurd h (by decide)

theorem l2At_l2Put (c : Cpu β) {i : ℕ} (e : L2Line) (hi : i < c.l2.size) (j : ℕ) :
    (c.l2Put i e).l2At j = if j = i then e else c.l2At j := by
  unfold l2At l2Put
  simp only [Array.getD_eq_getD_getElem?, Array.getElem?_setIfInBounds]
  by_cases hj : j = i
  · rw [if_pos hj.symm, if_pos hi, if_pos hj]
    rfl
  · rw [if_neg (fun h => hj h.symm), if_neg hj]

theorem l2Put_size (c : Cpu β) (i : ℕ) (e : L2Line) : (c.l2Put i e).l2.size = c.l2.size :=
  Array.size_setIfInBounds

/-- The set an address selects depends on the set count only. -/
theorem l2SetOf_congr {c c' : Cpu β} (h : c'.l2Sets = c.l2Sets) (pa : U32) :
    c'.l2SetOf pa = c.l2SetOf pa := by
  unfold l2SetOf
  rw [h]

theorem l2SetOf_lt (c : Cpu β) (h : c.l2Sets ≠ 0#32) (pa : U32) :
    c.l2SetOf pa < c.l2Sets.toNat := by
  have hpos : 0 < c.l2Sets.toNat := by
    rcases Nat.eq_zero_or_pos c.l2Sets.toNat with h0 | h0
    · exact absurd (BitVec.eq_of_toNat_eq h0) h
    · exact h0
  unfold l2SetOf
  by_cases hp : c.l2Sets ≠ 0#32 ∧ c.l2Sets &&& (c.l2Sets - 1#32) = 0#32
  · simp only [if_pos hp]
    by_cases hm : c.l2Sets - 1#32 ≠ 0#32
    · have hmask : (c.l2Sets - 1#32).toNat = c.l2Sets.toNat - 1 :=
        BitVec.toNat_sub_of_le (by rw [BitVec.le_def]; exact hpos)
      have hle : (pa >>> 5 &&& (c.l2Sets - 1#32)).toNat ≤ (c.l2Sets - 1#32).toNat := by
        rw [BitVec.toNat_and]
        exact Nat.and_le_right
      rw [if_pos hm]
      omega
    · rw [if_neg hm]
      exact Nat.mod_lt _ hpos
  · simp only [if_neg hp]
    rw [if_neg (by simp)]
    exact Nat.mod_lt _ hpos

/-- The set an address selects is its block's. -/
theorem l2SetOf_blkAddr (c : Cpu β) (pa : U32) :
    c.l2SetOf (blkAddr (blkOf pa)) = c.l2SetOf pa := by
  unfold l2SetOf
  rw [lineNumber_blkAddr, lineNumber_eq pa]

theorem l2Entry_eq_some_iff {c : Cpu β} (hs : Shape c) (i : ℕ) (pa : U32) (e : Line × Bool) :
    c.l2Entry i = some (blkOf pa, e)
      ↔ (c.l2At i).v = true ∧ (c.l2At i).tag = pa >>> 5 ∧ ((c.l2At i).b, (c.l2At i).d) = e := by
  unfold l2Entry
  by_cases hv : (c.l2At i).v = true
  · have htag : (c.l2At i).tag.setWidth 27 = blkOf pa ↔ (c.l2At i).tag = pa >>> 5 := by
      have hlt := (hs.l2Home i hv).1
      have hpa := pa.isLt
      rw [lineNumber_eq]
      constructor
      · intro h
        apply BitVec.eq_of_toNat_eq
        have hnat := congrArg BitVec.toNat h
        rw [BitVec.toNat_setWidth] at hnat ⊢
        have := (blkOf pa).isLt
        omega
      · intro h
        rw [h]
        apply BitVec.eq_of_toNat_eq
        have := (blkOf pa).isLt
        rw [BitVec.toNat_setWidth, BitVec.toNat_setWidth]
        omega
    rw [if_pos hv, Option.some.injEq, Prod.mk.injEq, htag]
    simp only [hv, true_and]
  · rw [if_neg hv]
    simp only [hv, Bool.false_eq_true, false_and, reduceCtorEq]

theorem l1Entry_eq_some_iff {c : Cpu β} (hs : Shape c) (p : BitVec 7 × Fin 8) (pa : U32)
    (e : Line × Bool) :
    c.l1Entry p = some (blkOf pa, e)
      ↔ p.1 = setOf pa ∧ (c.l1x p.1).tv p.2 = tvOf pa
        ∧ ((c.l1d p.1 p.2).b, (c.l1d p.1 p.2).d) = e := by
  unfold l1Entry wayEntry
  by_cases hv : (c.l1x p.1).tv p.2 &&& 1#32 ≠ 0#32
  · rw [if_pos hv, Option.some.injEq, Prod.mk.injEq,
      l1Block_eq_iff hv (hs.tvShort p.1 p.2) pa, and_assoc]
  · rw [if_neg hv]
    constructor
    · intro h
      exact absurd h (by simp)
    · rintro ⟨_, htv, _⟩
      rw [htv] at hv
      exact absurd (tvOf_valid pa) hv

/-- The shape, when only the L1 moved. -/
theorem Shape.ofL1 {c c' : Cpu β} (hs : Shape c) (hcore : SameCore c c') (hl2 : c'.l2 = c.l2)
    (hsets : c'.l2Sets = c.l2Sets) (htv : ∀ s w, ((c'.l1x s).tv w).toNat < 2 ^ 21)
    (hd : Distinct c'.l1Entry) : Shape c' := by
  have hat : ∀ i, c'.l2At i = c.l2At i := by
    intro i
    rw [l2At, hl2, l2At]
  have hentry : c'.l2Entry = c.l2Entry := by
    funext i
    rw [l2Entry, hat, l2Entry]
  refine ⟨htv, hd, ?_, ?_, ?_, ?_⟩
  · rw [hl2, hsets]; exact hs.l2Size
  · intro i hv
    rw [hat] at hv ⊢
    rw [l2SetOf_congr hsets]
    exact hs.l2Home i hv
  · rw [hentry]; exact hs.l2Distinct
  · rw [hcore.l2On, hcore.l2Inert]
    intro hoff i
    rw [hat]
    exact hs.l2Unused hoff i

/-- The shape, when only the L2's lines moved. -/
theorem Shape.ofL2 {c c' : Cpu β} (hs : Shape c) (hcore : SameCore c c') (h1x : c'.l1x = c.l1x)
    (h1d : c'.l1d = c.l1d) (hsize : c'.l2.size = c.l2.size) (hsets : c'.l2Sets = c.l2Sets)
    (hhome : ∀ i, (c'.l2At i).v = true →
      (c'.l2At i).tag.toNat < 2 ^ 27 ∧ i / 2 = c.l2SetOf ((c'.l2At i).tag <<< 5))
    (hd : Distinct c'.l2Entry)
    (hoff : c.l2On = false ∨ c.l2Inert = true → ∀ i, (c'.l2At i).v = false) : Shape c' := by
  have hentry : c'.l1Entry = c.l1Entry := by
    funext p
    rw [l1Entry, h1x, h1d, l1Entry]
  refine ⟨?_, ?_, ?_, ?_, hd, ?_⟩
  · intro s w
    rw [h1x]
    exact hs.tvShort s w
  · rw [hentry]; exact hs.l1Distinct
  · rw [hsize, hsets]; exact hs.l2Size
  · intro i hv
    rw [l2SetOf_congr hsets]
    exact hhome i hv
  · rw [hcore.l2On, hcore.l2Inert]
    exact hoff

/-! ## Primitive updates of the L1 -/

theorem l1Entry_touchWay (c : Cpu β) (s : BitVec 7) (w : Fin 8) :
    (c.touchWay s w).l1Entry = c.l1Entry := by
  funext p
  unfold l1Entry touchWay
  by_cases hp : p.1 = s
  · simp only [hp, Function.update_self]
  · simp only [Function.update_of_ne hp]

theorem l1Entry_setTv (c : Cpu β) (s : BitVec 7) (w : Fin 8) (tv : U32) :
    (c.setTv s w tv).l1Entry
      = Function.update c.l1Entry (s, w) (wayEntry s tv (c.l1d s w)) := by
  funext p
  obtain ⟨s', w'⟩ := p
  unfold l1Entry setTv
  by_cases hs : s' = s
  · subst hs
    by_cases hw : w' = w
    · subst hw
      simp only [Function.update_self]
    · have hp : (s', w') ≠ (s', w) := fun h => hw (Prod.mk.inj h).2
      simp only [Function.update_self, Function.update_of_ne hw, Function.update_of_ne hp]
  · have hp : (s', w') ≠ (s, w) := fun h => hs (Prod.mk.inj h).1
    simp only [Function.update_of_ne hs, Function.update_of_ne hp]

theorem l1Entry_setDLine (c : Cpu β) (s : BitVec 7) (w : Fin 8) (e : DLine) :
    (c.setDLine s w e).l1Entry
      = Function.update c.l1Entry (s, w) (wayEntry s ((c.l1x s).tv w) e) := by
  funext p
  obtain ⟨s', w'⟩ := p
  unfold l1Entry setDLine
  by_cases hs : s' = s
  · subst hs
    by_cases hw : w' = w
    · subst hw
      simp only [Function.update_self]
    · have hp : (s', w') ≠ (s', w) := fun h => hw (Prod.mk.inj h).2
      simp only [Function.update_self, Function.update_of_ne hw, Function.update_of_ne hp]
  · have hp : (s', w') ≠ (s, w) := fun h => hs (Prod.mk.inj h).1
    simp only [Function.update_of_ne hs, Function.update_of_ne hp]

theorem wayEntry_zero (s : BitVec 7) (e : DLine) : wayEntry s 0#32 e = none := by
  unfold wayEntry
  rw [if_neg (by decide)]

theorem wayEntry_tvOf (pa : U32) (e : DLine) :
    wayEntry (setOf pa) (tvOf pa) e = some (blkOf pa, (e.b, e.d)) := by
  unfold wayEntry
  rw [if_pos (tvOf_valid pa), l1Block_tvOf]

/-- The lookup word of a live entry, and the line it describes. -/
theorem wayEntry_of_entry {c : Cpu β} {s : BitVec 7} {w : Fin 8} {k : BitVec 27}
    {e₀ : Line × Bool} (h : c.l1Entry (s, w) = some (k, e₀)) (e : DLine) :
    wayEntry s ((c.l1x s).tv w) e = some (k, (e.b, e.d)) := by
  unfold l1Entry wayEntry at h
  unfold wayEntry
  by_cases hv : (c.l1x s).tv w &&& 1#32 ≠ 0#32
  · rw [if_pos hv, Option.some.injEq, Prod.mk.injEq] at h
    rw [if_pos hv, h.1]
  · rw [if_neg hv] at h
    exact absurd h (by simp)

theorem wayEntry_of_none {c : Cpu β} {s : BitVec 7} {w : Fin 8}
    (h : c.l1Entry (s, w) = none) (e : DLine) : wayEntry s ((c.l1x s).tv w) e = none := by
  unfold l1Entry wayEntry at h
  unfold wayEntry
  by_cases hv : (c.l1x s).tv w &&& 1#32 ≠ 0#32
  · rw [if_pos hv] at h
    exact absurd h (by simp)
  · rw [if_neg hv]

theorem setTv_tv (c : Cpu β) (s : BitVec 7) (w : Fin 8) (tv : U32) (s' : BitVec 7) (w' : Fin 8) :
    (((c.setTv s w tv).l1x s').tv w')
      = if s' = s ∧ w' = w then tv else (c.l1x s').tv w' := by
  unfold setTv
  by_cases hs : s' = s
  · subst hs
    by_cases hw : w' = w
    · subst hw
      simp only [Function.update_self, and_self, if_true]
    · simp only [Function.update_self, Function.update_of_ne hw, hw, and_false, if_false]
  · simp only [Function.update_of_ne hs, hs, false_and, if_false]

theorem touchWay_tv (c : Cpu β) (s : BitVec 7) (w : Fin 8) (s' : BitVec 7) :
    ((c.touchWay s w).l1x s').tv = (c.l1x s').tv := by
  unfold touchWay
  by_cases hs : s' = s
  · subst hs
    simp only [Function.update_self]
  · simp only [Function.update_of_ne hs]

end Directories

section Turns

variable {c : Cpu PlainBus}

/-- An update that moves nothing the levels see. -/
theorem turns_touchWay (hs : Shape c) (s : BitVec 7) (w : Fin 8) :
    Turns c (c.touchWay s w) c.levels where
  core := rfl
  fetch := FetchLess.refl c
  shape := by
    refine hs.ofL1 rfl rfl rfl ?_ ?_
    · intro s' w'
      rw [touchWay_tv]
      exact hs.tvShort s' w'
    · rw [l1Entry_touchWay]
      exact hs.l1Distinct
  levels := levels_congr (l1Entry_touchWay c s w) rfl rfl

theorem Shape.setTv_tvShort (hs : Shape c) (s : BitVec 7) (w : Fin 8) {tv : U32}
    (htv : tv.toNat < 2 ^ 21) (s' : BitVec 7) (w' : Fin 8) :
    (((c.setTv s w tv).l1x s').tv w').toNat < 2 ^ 21 := by
  rw [setTv_tv]
  by_cases h : s' = s ∧ w' = w
  · rw [if_pos h]; exact htv
  · rw [if_neg h]; exact hs.tvShort s' w'

/-- Emptying a live way. -/
theorem turns_clearWay (hs : Shape c) {s : BitVec 7} {w : Fin 8} {k : BitVec 27}
    {e : Line × Bool} (h : c.l1Entry (s, w) = some (k, e)) :
    Turns c (c.setTv s w 0#32) (c.levels.setNear k none) where
  core := rfl
  fetch := FetchLess.refl c
  shape := by
    refine hs.ofL1 rfl rfl rfl (hs.setTv_tvShort s w (by decide)) ?_
    rw [l1Entry_setTv, wayEntry_zero]
    exact hs.l1Distinct.clear (s, w)
  levels := by
    have hnear : lookup (c.setTv s w 0#32).l1Entry = Function.update (lookup c.l1Entry) k none := by
      rw [l1Entry_setTv, wayEntry_zero, lookup_clear hs.l1Distinct h]
    unfold Cpu.levels Levels.setNear
    rw [hnear]
    rfl

/-- Emptying an empty way. -/
theorem turns_clearWay_none (hs : Shape c) {s : BitVec 7} {w : Fin 8}
    (h : c.l1Entry (s, w) = none) : Turns c (c.setTv s w 0#32) c.levels where
  core := rfl
  fetch := FetchLess.refl c
  shape := by
    refine hs.ofL1 rfl rfl rfl (hs.setTv_tvShort s w (by decide)) ?_
    rw [l1Entry_setTv, wayEntry_zero]
    exact hs.l1Distinct.clear (s, w)
  levels := by
    refine levels_congr ?_ rfl rfl
    rw [l1Entry_setTv, wayEntry_zero, update_none_of_none h]

/-- Naming a block in an empty way: the bytes the way held become its bytes. -/
theorem turns_nameWay (hs : Shape c) {pa : U32} {w : Fin 8}
    (h : c.l1Entry (setOf pa, w) = none) (hnone : c.levels.near (blkOf pa) = none) :
    Turns c (c.setTv (setOf pa) w (tvOf pa))
      (c.levels.setNear (blkOf pa) (some ((c.l1d (setOf pa) w).b, (c.l1d (setOf pa) w).d))) := by
  have hfree : ∀ j e, j ≠ (setOf pa, w) → c.l1Entry j ≠ some (blkOf pa, e) :=
    fun j e _ => (lookup_eq_none_iff hs.l1Distinct (blkOf pa)).mp hnone j e
  have hold : ∀ k' e, c.l1Entry (setOf pa, w) = some (k', e) → k' = blkOf pa := by
    intro k' e he
    rw [h] at he
    exact absurd he (by simp)
  have hentry : (c.setTv (setOf pa) w (tvOf pa)).l1Entry
      = Function.update c.l1Entry (setOf pa, w)
          (some (blkOf pa, ((c.l1d (setOf pa) w).b, (c.l1d (setOf pa) w).d))) := by
    rw [l1Entry_setTv, wayEntry_tvOf]
  refine ⟨rfl, FetchLess.refl c, ?_, ?_⟩
  · refine hs.ofL1 rfl rfl rfl (hs.setTv_tvShort _ _ (tvOf_lt pa)) ?_
    rw [hentry]
    exact hs.l1Distinct.place _ _ _ hfree
  · have hnear := lookup_place hs.l1Distinct (setOf pa, w) (blkOf pa)
      ((c.l1d (setOf pa) w).b, (c.l1d (setOf pa) w).d) hfree hold
    rw [← hentry] at hnear
    unfold Cpu.levels Levels.setNear
    rw [hnear]
    rfl

/-- Rewriting the line of a live way. -/
theorem turns_setDLine (hs : Shape c) {s : BitVec 7} {w : Fin 8} {k : BitVec 27}
    {e₀ : Line × Bool} (h : c.l1Entry (s, w) = some (k, e₀)) (e : DLine) :
    Turns c (c.setDLine s w e) (c.levels.setNear k (some (e.b, e.d))) := by
  have hfree : ∀ j e', j ≠ (s, w) → c.l1Entry j ≠ some (k, e') :=
    fun j e' hj hje => hj (hs.l1Distinct j (s, w) k e' e₀ hje h)
  have hold : ∀ k' e', c.l1Entry (s, w) = some (k', e') → k' = k := by
    intro k' e' he
    rw [h, Option.some.injEq, Prod.mk.injEq] at he
    exact he.1.symm
  have hentry : (c.setDLine s w e).l1Entry
      = Function.update c.l1Entry (s, w) (some (k, (e.b, e.d))) := by
    rw [l1Entry_setDLine, wayEntry_of_entry h]
  refine ⟨rfl, FetchLess.refl c, ?_, ?_⟩
  · refine hs.ofL1 rfl rfl rfl hs.tvShort ?_
    rw [hentry]
    exact hs.l1Distinct.place _ _ _ hfree
  · have hnear := lookup_place hs.l1Distinct (s, w) k (e.b, e.d) hfree hold
    rw [← hentry] at hnear
    unfold Cpu.levels Levels.setNear
    rw [hnear]
    rfl

/-- Rewriting the line of an empty way: nothing names it. -/
theorem turns_setDLine_none (hs : Shape c) {s : BitVec 7} {w : Fin 8}
    (h : c.l1Entry (s, w) = none) (e : DLine) : Turns c (c.setDLine s w e) c.levels := by
  have hentry : (c.setDLine s w e).l1Entry = c.l1Entry := by
    rw [l1Entry_setDLine, wayEntry_of_none h, update_none_of_none h]
  refine ⟨rfl, FetchLess.refl c, ?_, levels_congr hentry rfl rfl⟩
  refine hs.ofL1 rfl rfl rfl hs.tvShort ?_
  rw [hentry]
  exact hs.l1Distinct

/-! ## The bus and the fetch blocks -/

theorem turns_fetch {f : BitVec 12 → FetchLine} (hs : Shape c)
    (hf : FetchLess c { c with fetchLine := f }) : Turns c { c with fetchLine := f } c.levels :=
  ⟨rfl, hf, ⟨hs.tvShort, hs.l1Distinct, hs.l2Size, hs.l2Home, hs.l2Distinct, hs.l2Unused⟩, rfl⟩

theorem turns_fetchDropAt (hs : Shape c) (pa : U32) : Turns c (c.fetchDropAt pa) c.levels := by
  obtain ⟨f, hf⟩ := fetchDropAt_eq c pa
  have hless := FetchLess.fetchDropAt c pa
  rw [hf] at hless ⊢
  exact turns_fetch hs hless

theorem turns_fetchDrop (hs : Shape c) : Turns c c.fetchDrop c.levels :=
  turns_fetch hs fun _ => Or.inr rfl

theorem memLine_storeLine (b : PlainBus) (k : BitVec 27) (l : Line) :
    memLine (b.storeLine (blkAddr k) l) = Function.update (memLine b) k l := by
  funext j o
  have hj := j.isLt
  have hk := k.isLt
  have ho := o.isLt
  unfold memLine PlainBus.storeLine
  have hsub : (byteAddr j o - blkAddr k).toNat
      = (2 ^ 32 - k.toNat * 32 + (j.toNat * 32 + o.toNat)) % 2 ^ 32 := by
    rw [BitVec.toNat_sub, byteAddr_toNat, blkAddr_toNat]
  by_cases h : j = k
  · subst h
    have hlt : byteAddr j o - blkAddr j < 32#32 := by
      rw [BitVec.lt_def, hsub, show (32#32).toNat = 32 from rfl]
      omega
    have hoff : (byteAddr j o - blkAddr j).setWidth 5 = o := by
      apply BitVec.eq_of_toNat_eq
      rw [BitVec.toNat_setWidth, hsub]
      omega
    simp only [if_pos hlt, hoff, Function.update_self]
  · have hne : j.toNat ≠ k.toNat := fun hn => h (BitVec.eq_of_toNat_eq hn)
    have hge : ¬ byteAddr j o - blkAddr k < 32#32 := by
      rw [BitVec.lt_def, hsub, show (32#32).toNat = 32 from rfl]
      omega
    simp only [if_neg hge, Function.update_of_ne h]

theorem loadLine_eq (b : PlainBus) (k : BitVec 27) : b.loadLine (blkAddr k) = memLine b k := by
  funext o
  have hk := k.isLt
  have ho := o.isLt
  unfold PlainBus.loadLine memLine
  congr 1
  apply BitVec.eq_of_toNat_eq
  rw [BitVec.toNat_add, blkAddr_toNat, byteAddr_toNat, BitVec.toNat_setWidth]
  omega

/-- A change of the bus alone. -/
theorem turns_setBus (hs : Shape c) (b : PlainBus) :
    Turns c (c.setBus b) { c.levels with mem := memLine b } :=
  ⟨rfl, FetchLess.refl c,
    ⟨hs.tvShort, hs.l1Distinct, hs.l2Size, hs.l2Home, hs.l2Distinct, hs.l2Unused⟩, rfl⟩

/-- The bus write of a block. -/
theorem turns_busWriteLine (hs : Shape c) (k : BitVec 27) (l : Line) :
    Turns c (c.busWriteLine (blkAddr k) l) (c.levels.setMem k l) := by
  have hdrop := turns_fetchDropAt hs (blkAddr k)
  have hbus := turns_setBus hdrop.shape ((c.fetchDropAt (blkAddr k)).bus.storeLine (blkAddr k) l)
  have hsame : (c.fetchDropAt (blkAddr k)).bus = c.bus := by
    obtain ⟨f, hf⟩ := fetchDropAt_eq c (blkAddr k)
    rw [hf]
  refine (hdrop.trans hbus).congr ?_
  rw [hdrop.levels, hsame, memLine_storeLine]
  rfl

/-! ## Primitive updates of the L2 -/

theorem l2Entry_l2Put (c : Cpu PlainBus) {i : ℕ} (hi : i < c.l2.size) (e : L2Line) :
    (c.l2Put i e).l2Entry
      = Function.update c.l2Entry i
          (if e.v then some (e.tag.setWidth 27, (e.b, e.d)) else none) := by
  funext j
  unfold l2Entry
  rw [l2At_l2Put c e hi]
  by_cases hj : j = i
  · rw [if_pos hj, hj, Function.update_self]
  · rw [if_neg hj, Function.update_of_ne hj]

/-- Emptying a live L2 line. -/
theorem turns_l2Clear (hs : Shape c) {i : ℕ} {k : BitVec 27} {e₀ : Line × Bool} {e : L2Line}
    (h : c.l2Entry i = some (k, e₀)) (he : e.v = false) :
    Turns c (c.l2Put i e) (c.levels.setFar k none) := by
  have hv : (c.l2At i).v = true := by
    unfold l2Entry at h
    by_contra hv
    rw [if_neg hv] at h
    exact absurd h (by simp)
  have hi := lt_size_of_v hv
  have hentry : (c.l2Put i e).l2Entry = Function.update c.l2Entry i none := by
    rw [l2Entry_l2Put c hi, he]
    rfl
  have hv' : ∀ j, ((c.l2Put i e).l2At j).v = true →
      (c.l2Put i e).l2At j = c.l2At j ∧ (c.l2At j).v = true := by
    intro j hj
    rw [l2At_l2Put c e hi] at hj ⊢
    by_cases hji : j = i
    · rw [if_pos hji, he] at hj
      exact absurd hj (by simp)
    · rw [if_neg hji] at hj ⊢
      exact ⟨rfl, hj⟩
  refine ⟨rfl, FetchLess.refl c, ?_, ?_⟩
  · refine hs.ofL2 rfl rfl rfl (l2Put_size c i e) rfl ?_ ?_ ?_
    · intro j hj
      obtain ⟨heq, hjv⟩ := hv' j hj
      rw [heq]
      exact hs.l2Home j hjv
    · rw [hentry]
      exact hs.l2Distinct.clear i
    · intro hoff j
      by_contra hj
      rw [Bool.not_eq_false] at hj
      have := hs.l2Unused hoff j
      rw [(hv' j hj).2] at this
      exact absurd this (by simp)
  · have hfar : lookup (c.l2Put i e).l2Entry = Function.update (lookup c.l2Entry) k none := by
      rw [hentry, lookup_clear hs.l2Distinct h]
    unfold Cpu.levels Levels.setFar
    rw [hfar]
    rfl

/-- Emptying an empty L2 line. -/
theorem turns_l2Clear_none (hs : Shape c) {i : ℕ} {e : L2Line} (h : c.l2Entry i = none)
    (he : e.v = false) : Turns c (c.l2Put i e) c.levels := by
  have hv : (c.l2At i).v = false := by
    unfold l2Entry at h
    by_contra hv
    rw [Bool.not_eq_false] at hv
    rw [if_pos hv] at h
    exact absurd h (by simp)
  by_cases hi : i < c.l2.size
  · have hentry : (c.l2Put i e).l2Entry = c.l2Entry := by
      rw [l2Entry_l2Put c hi, he]
      exact update_none_of_none h
    have hv' : ∀ j, ((c.l2Put i e).l2At j).v = true →
        (c.l2Put i e).l2At j = c.l2At j ∧ (c.l2At j).v = true := by
      intro j hj
      rw [l2At_l2Put c e hi] at hj ⊢
      by_cases hji : j = i
      · rw [if_pos hji, he] at hj
        exact absurd hj (by simp)
      · rw [if_neg hji] at hj ⊢
        exact ⟨rfl, hj⟩
    refine ⟨rfl, FetchLess.refl c, ?_, levels_congr rfl hentry rfl⟩
    refine hs.ofL2 rfl rfl rfl (l2Put_size c i e) rfl ?_ ?_ ?_
    · intro j hj
      obtain ⟨heq, hjv⟩ := hv' j hj
      rw [heq]
      exact hs.l2Home j hjv
    · rw [hentry]
      exact hs.l2Distinct
    · intro hoff j
      by_contra hj
      rw [Bool.not_eq_false] at hj
      have := hs.l2Unused hoff j
      rw [(hv' j hj).2] at this
      exact absurd this (by simp)
  · have hsame : c.l2Put i e = c := by
      unfold l2Put
      rw [Array.setIfInBounds_eq_of_size_le (Nat.le_of_not_lt hi)]
    rw [hsame]
    exact Turns.refl hs

/-- Placing a block in a line of its set that was empty or already its own. -/
theorem turns_l2Place (hs : Shape c) (hon : c.l2On = true) (hinert : c.l2Inert = false)
    {i : ℕ} {k : BitVec 27} {e : L2Line} (hi : i < c.l2.size)
    (hhome : i / 2 = c.l2SetOf (blkAddr k)) (hev : e.v = true) (htag : e.tag = k.setWidth 32)
    (hfree : ∀ j e', j ≠ i → c.l2Entry j ≠ some (k, e'))
    (hold : ∀ k' e', c.l2Entry i = some (k', e') → k' = k) :
    Turns c (c.l2Put i e) (c.levels.setFar k (some (e.b, e.d))) := by
  have hk := k.isLt
  have hkey : e.tag.setWidth 27 = k := by
    rw [htag]
    apply BitVec.eq_of_toNat_eq
    rw [BitVec.toNat_setWidth, BitVec.toNat_setWidth]
    omega
  have hentry : (c.l2Put i e).l2Entry = Function.update c.l2Entry i (some (k, (e.b, e.d))) := by
    rw [l2Entry_l2Put c hi, hev, if_pos rfl, hkey]
  refine ⟨rfl, FetchLess.refl c, ?_, ?_⟩
  · refine hs.ofL2 rfl rfl rfl (l2Put_size c i e) rfl ?_ ?_ ?_
    · intro j hj
      rw [l2At_l2Put c e hi] at hj ⊢
      by_cases hji : j = i
      · rw [if_pos hji, hji]
        refine ⟨?_, ?_⟩
        · rw [htag, BitVec.toNat_setWidth]
          omega
        · rw [lineAddr_eq, hkey]
          exact hhome
      · rw [if_neg hji] at hj ⊢
        exact hs.l2Home j hj
    · rw [hentry]
      exact hs.l2Distinct.place i k _ hfree
    · intro hoff
      rcases hoff with h | h
      · rw [hon] at h; exact absurd h (by simp)
      · rw [hinert] at h; exact absurd h (by simp)
  · have hfar := lookup_place hs.l2Distinct i k (e.b, e.d) hfree hold
    rw [← hentry] at hfar
    unfold Cpu.levels Levels.setFar
    rw [hfar]
    rfl

end Turns

end Cpu

end OpenPowerMac
