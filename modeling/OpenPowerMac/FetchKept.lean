/-
What the fetch path may rely on.

A fetch block is a copy of what a fetch of its block would find, so it is right
as long as whatever changes that view drops the block first. `Kept` says that of
one operation: the configuration stands, fetch blocks were at most dropped, and a
block whose view has changed is in no slot. It composes, so it follows for the
memory accesses, for the table search (which reads PTEs and writes R and C back
through the data cache) and so for a translation.

With HID0[DCE] clear the processor does not look into the L1, and an access goes
to the bus past both levels. From reset nothing is then ever in them (`MemOk`).
-/
import OpenPowerMac.CacheRun
import OpenPowerMac.Mmu

set_option autoImplicit false

namespace OpenPowerMac

open Hierarchy

namespace Cpu

variable {c : Cpu PlainBus}

/-! ## The relation -/

/-- Neither level holds any block. -/
def NoLines (c : Cpu PlainBus) : Prop := ∀ k, c.levels.near k = none ∧ c.levels.far k = none

/-- The memory system between operations: the caches' invariant, and with the
data cache off nothing in them. -/
structure MemOk (c : Cpu PlainBus) : Prop where
  ok : CacheOk c
  off : c.dceOn = false → NoLines c

/-- An operation the fetch blocks survive. -/
structure Kept (c c' : Cpu PlainBus) : Prop where
  dce : c'.dceOn = c.dceOn
  fetch : FetchLess c c'
  ok : MemOk c'
  seen : ∀ k, c'.levels.view k = c.levels.view k ∨ c'.Dropped k

theorem Kept.refl (h : MemOk c) : Kept c c := ⟨rfl, FetchLess.refl c, h, fun _ => Or.inl rfl⟩

theorem Kept.trans {c₁ c₂ c₃ : Cpu PlainBus} (h₁₂ : Kept c₁ c₂) (h₂₃ : Kept c₂ c₃) :
    Kept c₁ c₃ := by
  refine ⟨h₂₃.dce.trans h₁₂.dce, h₁₂.fetch.trans h₂₃.fetch, h₂₃.ok, fun k => ?_⟩
  rcases h₂₃.seen k with h | h
  · rcases h₁₂.seen k with h' | h'
    · exact Or.inl (h.trans h')
    · exact Or.inr (h'.less h₂₃.fetch)
  · exact Or.inr h

/-- Where the flat memory changed, the blocks were dropped. -/
theorem seen_of_flat {c c' : Cpu PlainBus}
    (h : ∀ a, c'.flat a = c.flat a ∨ c'.Dropped (blkOf a)) (k : BitVec 27) :
    c'.levels.view k = c.levels.view k ∨ c'.Dropped k := by
  by_cases hk : c'.Dropped k
  · exact Or.inr hk
  · left
    funext o
    have hflat := h (byteAddr k o)
    rw [blkOf_byteAddr, Cpu.flat, Cpu.flat, flatOf_byteAddr, flatOf_byteAddr] at hflat
    exact hflat.resolve_right hk

/-- The data cache on: the caches' own specifications are enough. -/
theorem Kept.of_on (hdce : c.dceOn = true) {c' : Cpu PlainBus} (hcore : SameCore c c')
    (hfetch : FetchLess c c') (hok : CacheOk c')
    (hseen : ∀ k, c'.levels.view k = c.levels.view k ∨ c'.Dropped k) : Kept c c' := by
  have hdce' : c'.dceOn = true := by rw [hcore.dceOn, hdce]
  exact ⟨hcore.dceOn, hfetch, ⟨hok, fun h => absurd h (by rw [hdce']; simp)⟩, hseen⟩

theorem Quiet.kept_on (hdce : c.dceOn = true) {c' : Cpu PlainBus} (h : Quiet c c') : Kept c c' :=
  Kept.of_on hdce h.core h.fetch h.ok fun k => Or.inl (by rw [h.view])

/-- Whatever leaves the levels alone. -/
theorem Turns.kept (h : MemOk c) {c' : Cpu PlainBus} (ht : Turns c c' c.levels) : Kept c c' := by
  have hquiet := ht.quiet_same h.ok
  refine ⟨ht.core.dceOn, ht.fetch, ⟨hquiet.ok, fun hdce k => ?_⟩,
    fun k => Or.inl (by rw [ht.levels])⟩
  rw [ht.core.dceOn] at hdce
  rw [ht.levels]
  exact h.off hdce k

/-- The memory system is the same, whatever else has moved. -/
structure SameMem (c c' : Cpu PlainBus) : Prop where
  bus : c'.bus = c.bus
  l1x : c'.l1x = c.l1x
  l1d : c'.l1d = c.l1d
  l2 : c'.l2 = c.l2
  l2Sets : c'.l2Sets = c.l2Sets
  l2Inert : c'.l2Inert = c.l2Inert
  fetchLine : c'.fetchLine = c.fetchLine
  hid0 : c'.st.hid0 = c.st.hid0
  l2cr : c'.st.l2cr = c.st.l2cr

theorem SameMem.trans {c₁ c₂ c₃ : Cpu PlainBus} (h₁₂ : SameMem c₁ c₂) (h₂₃ : SameMem c₂ c₃) :
    SameMem c₁ c₃ :=
  ⟨h₂₃.bus.trans h₁₂.bus, h₂₃.l1x.trans h₁₂.l1x, h₂₃.l1d.trans h₁₂.l1d, h₂₃.l2.trans h₁₂.l2,
    h₂₃.l2Sets.trans h₁₂.l2Sets, h₂₃.l2Inert.trans h₁₂.l2Inert,
    h₂₃.fetchLine.trans h₁₂.fetchLine, h₂₃.hid0.trans h₁₂.hid0, h₂₃.l2cr.trans h₁₂.l2cr⟩

theorem SameMem.l1Entry {c' : Cpu PlainBus} (h : SameMem c c') : c'.l1Entry = c.l1Entry := by
  funext p
  rw [Cpu.l1Entry, h.l1x, h.l1d, Cpu.l1Entry]

theorem SameMem.l2At {c' : Cpu PlainBus} (h : SameMem c c') (i : ℕ) : c'.l2At i = c.l2At i := by
  rw [Cpu.l2At, h.l2, Cpu.l2At]

theorem SameMem.l2Entry {c' : Cpu PlainBus} (h : SameMem c c') : c'.l2Entry = c.l2Entry := by
  funext i
  rw [Cpu.l2Entry, h.l2At, Cpu.l2Entry]

theorem SameMem.levels {c' : Cpu PlainBus} (h : SameMem c c') : c'.levels = c.levels :=
  levels_congr h.l1Entry h.l2Entry (by rw [h.bus])

theorem SameMem.shape {c' : Cpu PlainBus} (h : SameMem c c') (hs : Shape c) : Shape c' := by
  refine ⟨?_, ?_, ?_, ?_, ?_, ?_⟩
  · rw [h.l1x]; exact hs.tvShort
  · rw [h.l1Entry]; exact hs.l1Distinct
  · rw [h.l2, h.l2Sets]; exact hs.l2Size
  · intro i hv
    rw [h.l2At] at hv ⊢
    rw [l2SetOf_congr h.l2Sets]
    exact hs.l2Home i hv
  · rw [h.l2Entry]; exact hs.l2Distinct
  · rw [Cpu.l2On, h.l2cr, h.l2Inert]
    intro hoff i
    rw [h.l2At]
    exact hs.l2Unused hoff i

theorem SameMem.kept {c' : Cpu PlainBus} (h : SameMem c c') (hok : MemOk c) : Kept c c' := by
  have hdce : c'.dceOn = c.dceOn := by rw [Cpu.dceOn, h.hid0, Cpu.dceOn]
  refine ⟨hdce, fun s => Or.inl (by rw [h.fetchLine]), ⟨⟨h.shape hok.ok.shape, ?_⟩, ?_⟩,
    fun k => Or.inl (by rw [h.levels])⟩
  · rw [h.levels]; exact hok.ok.coherent
  · intro hoff k
    rw [h.levels]
    exact hok.off (by rw [← hdce]; exact hoff) k

/-! ## Drops -/

theorem and_eq_of_xor_and {a b m : U32} (h : (a ^^^ b) &&& m = 0#32) : a &&& m = b &&& m := by
  apply BitVec.eq_of_getElem_eq
  intro i hi
  have hbit := congrArg (fun v => v.getLsbD i) h
  simp only [BitVec.getLsbD_and, BitVec.getLsbD_xor, BitVec.getLsbD_zero] at hbit
  simp only [BitVec.getElem_and]
  grind

/-- A store of up to a block's length touches the two blocks a range drop drops. -/
theorem dropped_fetchDropRange (c : Cpu PlainBus) (pa : U32) {len i : ℕ} (hi : i < len)
    (hlen : len ≤ 32) : (c.fetchDropRange pa len).Dropped (blkOf (pa + BitVec.ofNat 32 i)) := by
  have hp := pa.isLt
  have hfirst := dropped_fetchDropAt c pa
  have hlastNat : (pa + BitVec.ofNat 32 len - 1#32).toNat = (pa.toNat + (len - 1)) % 2 ^ 32 := by
    rw [BitVec.toNat_sub, BitVec.toNat_add, BitVec.toNat_ofNat, BitVec.toNat_ofNat]
    omega
  have hblk : (blkOf (pa + BitVec.ofNat 32 i)).toNat = (pa.toNat + i) % 2 ^ 32 / 32 := by
    rw [blkOf_toNat, BitVec.toNat_add, BitVec.toNat_ofNat]
    omega
  -- a byte of the range lies in the block of the first or of the last
  have hcases : blkOf (pa + BitVec.ofNat 32 i) = blkOf pa
      ∨ blkOf (pa + BitVec.ofNat 32 i) = blkOf (pa + BitVec.ofNat 32 len - 1#32) := by
    have h : (blkOf (pa + BitVec.ofNat 32 i)).toNat = (blkOf pa).toNat
        ∨ (blkOf (pa + BitVec.ofNat 32 i)).toNat
          = (blkOf (pa + BitVec.ofNat 32 len - 1#32)).toNat := by
      rw [hblk, blkOf_toNat, blkOf_toNat, hlastNat]
      omega
    exact h.imp BitVec.eq_of_toNat_eq BitVec.eq_of_toNat_eq
  unfold fetchDropRange
  simp only
  by_cases hx : (pa ^^^ (pa + BitVec.ofNat 32 len - 1#32)) &&& ~~~31#32 ≠ 0#32
  · rw [if_pos hx]
    rcases hcases with h | h
    · rw [h]
      exact hfirst.less (FetchLess.fetchDropAt _ _)
    · rw [h]
      exact dropped_fetchDropAt _ _
  · rw [if_neg hx]
    -- the first and the last byte share a block
    have hsame : blkOf (pa + BitVec.ofNat 32 len - 1#32) = blkOf pa := by
      have hand : blockBase pa = blockBase (pa + BitVec.ofNat 32 len - 1#32) :=
        and_eq_of_xor_and (not_not.mp hx)
      rw [blockBase_eq, blockBase_eq] at hand
      have := congrArg blkOf hand
      rw [blkOf_blkAddr, blkOf_blkAddr] at this
      exact this.symm
    rcases hcases with h | h
    · rw [h]; exact hfirst
    · rw [h, hsame]; exact hfirst

theorem FetchLess.fetchDropRange (c : Cpu PlainBus) (pa : U32) (len : ℕ) :
    FetchLess c (c.fetchDropRange pa len) := by
  unfold Cpu.fetchDropRange
  simp only
  split
  · exact (FetchLess.fetchDropAt _ _).trans (FetchLess.fetchDropAt _ _)
  · exact FetchLess.fetchDropAt _ _

/-- Dropping a range again does nothing. -/
theorem fetchDropRange_idem (c : Cpu PlainBus) (pa : U32) (len : ℕ) :
    (c.fetchDropRange pa len).fetchDropRange pa len = c.fetchDropRange pa len := by
  obtain ⟨d, hd⟩ : ∃ d, c.fetchDropRange pa len = d := ⟨_, rfl⟩
  rw [hd]
  have hfirst : d.Dropped (blkOf pa) := by
    rw [← hd]
    unfold Cpu.fetchDropRange
    simp only
    split
    · exact (dropped_fetchDropAt c pa).less (FetchLess.fetchDropAt _ _)
    · exact dropped_fetchDropAt c pa
  have hlast : (pa ^^^ (pa + BitVec.ofNat 32 len - 1#32)) &&& ~~~31#32 ≠ 0#32 →
      d.Dropped (blkOf (pa + BitVec.ofNat 32 len - 1#32)) := by
    intro hx
    rw [← hd]
    unfold Cpu.fetchDropRange
    simp only [if_pos hx]
    exact dropped_fetchDropAt _ _
  unfold Cpu.fetchDropRange
  simp only [hfirst.fetchDropAt]
  by_cases hx : (pa ^^^ (pa + BitVec.ofNat 32 len - 1#32)) &&& ~~~31#32 ≠ 0#32
  · rw [if_pos hx, (hlast hx).fetchDropAt]
  · rw [if_neg hx]

/-- A write begins with its drop. -/
theorem memWrite_dropped (c : Cpu PlainBus) (pa : U32) (len : ℕ) (v : U64) (wimg : U32) :
    (c.fetchDropRange pa len).memWrite pa len v wimg = c.memWrite pa len v wimg := by
  unfold memWrite
  rw [fetchDropRange_idem]

/-! ## Memory accesses -/

/-- A store does not reach the addresses outside its range. -/
theorem storeBytes_off (m : U32 → U8) (pa : U32) (len : ℕ) (v : U64) {a : U32}
    (ha : ∀ i < len, a ≠ pa + BitVec.ofNat 32 i) : storeBytes m pa len v a = m a := by
  have hfold : ∀ (l : List ℕ) (m : U32 → U8), (∀ i ∈ l, a ≠ pa + BitVec.ofNat 32 i) →
      l.foldl (fun m i => Function.update m (pa + BitVec.ofNat 32 i) (byteBE len i v)) m a
        = m a := by
    intro l
    induction l with
    | nil => exact fun _ _ => rfl
    | cons i l ih =>
        intro m hl
        rw [List.foldl_cons, ih _ fun j hj => hl j (List.mem_cons_of_mem i hj),
          Function.update_of_ne (hl i List.mem_cons_self)]
  exact hfold (List.range len) m fun i hi => ha i (List.mem_range.mp hi)

/-- The access lengths of the processor. -/
def AccessLen (len : ℕ) : Prop := len = 1 ∨ len = 2 ∨ len = 4 ∨ len = 8

theorem AccessLen.le {len : ℕ} (h : AccessLen len) : len ≤ 32 := by
  unfold AccessLen at h
  omega

/-- With neither level holding anything, the view is memory. -/
theorem NoLines.flat (h : NoLines c) : c.flat = c.bus.mem := by
  funext a
  have hview : c.levels.view (blkOf a) = memLine c.bus (blkOf a) := by
    rw [Levels.view_of_none (h (blkOf a)).1, Levels.below_of_none (h (blkOf a)).2]
    rfl
  unfold Cpu.flat flatOf
  rw [hview, memLine, byteAddr_blkOf]

theorem setWidth_setWidth_byteBE (len : ℕ) (hlen : len ≤ 8) (i : ℕ) (hi : i < len) (v : U64)
    (w : ℕ) (hw : w = 8 * len) : byteBE len i ((v.setWidth w).setWidth 64) = byteBE len i v := by
  unfold byteBE
  apply BitVec.eq_of_getElem_eq
  intro j hj
  simp only [BitVec.getElem_setWidth, BitVec.getLsbD_ushiftRight, BitVec.getLsbD_setWidth]
  have h1 : 8 * (len - 1 - i) + j < 64 := by omega
  have h2 : 8 * (len - 1 - i) + j < w := by omega
  simp [h1, h2]

theorem storeBytes_setWidth (m : U32 → U8) (pa : U32) {len : ℕ} (hlen : len ≤ 8) (v : U64)
    {w : ℕ} (hw : w = 8 * len) :
    storeBytes m pa len ((v.setWidth w).setWidth 64) = storeBytes m pa len v := by
  unfold storeBytes
  have hfold : ∀ (l : List ℕ) (m : U32 → U8), (∀ i ∈ l, i < len) →
      l.foldl (fun m i => Function.update m (pa + BitVec.ofNat 32 i)
        (byteBE len i ((v.setWidth w).setWidth 64))) m
      = l.foldl (fun m i => Function.update m (pa + BitVec.ofNat 32 i) (byteBE len i v)) m := by
    intro l
    induction l with
    | nil => exact fun _ _ => rfl
    | cons i l ih =>
        intro m hl
        rw [List.foldl_cons, List.foldl_cons,
          setWidth_setWidth_byteBE len hlen i (hl i List.mem_cons_self) v w hw,
          ih _ fun j hj => hl j (List.mem_cons_of_mem i hj)]
  exact hfold (List.range len) m fun i hi => List.mem_range.mp hi

/-- A bus write of an access length is a store of memory. -/
theorem busWrite_eq (c : Cpu PlainBus) (pa : U32) {len : ℕ} (hlen : AccessLen len) (v : U64) :
    c.busWrite pa len v = c.setBus { c.bus with mem := storeBytes c.bus.mem pa len v } := by
  rcases hlen with rfl | rfl | rfl | rfl
  · show c.setBus { c.bus with mem := storeBytes c.bus.mem pa 1 ((v.setWidth 8).setWidth 64) } = _
    rw [storeBytes_setWidth _ _ (by decide) _ rfl]
  · show c.setBus { c.bus with mem := storeBytes c.bus.mem pa 2 ((v.setWidth 16).setWidth 64) } = _
    rw [storeBytes_setWidth _ _ (by decide) _ rfl]
  · show c.setBus { c.bus with mem := storeBytes c.bus.mem pa 4 ((v.setWidth 32).setWidth 64) } = _
    rw [storeBytes_setWidth _ _ (by decide) _ rfl]
  · rfl

theorem bypasses_eq (c : Cpu PlainBus) {wimg : U32} (hi : wimg &&& kWimgI = 0#32) :
    c.bypasses wimg = !c.dceOn := by
  unfold bypasses
  rw [hi]
  simp

theorem busRead_snd (c : Cpu PlainBus) (pa : U32) (len : ℕ) : (c.busRead pa len).2 = c := by
  unfold busRead
  split <;> rfl

/-- Writing memory with neither level holding anything. -/
theorem noLines_setBus (h : MemOk c) (hoff : c.dceOn = false) (b : PlainBus) :
    MemOk (c.setBus b) ∧ (c.setBus b).flat = b.mem := by
  have hlines : NoLines (c.setBus b) := h.off hoff
  have hturn := turns_setBus h.ok.shape b
  refine ⟨⟨⟨hturn.shape, ?_⟩, fun _ => hlines⟩, hlines.flat⟩
  exact Levels.coherent_of_empty (fun k => (hlines k).1) (fun k => (hlines k).2)

/-- **A write** of an access length drops what it changes. -/
theorem memWrite_kept (h : MemOk c) (pa : U32) {len : ℕ} (hlen : AccessLen len) (v : U64)
    {wimg : U32} (hw : wimg &&& kWimgW = 0#32) (hi : wimg &&& kWimgI = 0#32) :
    Kept c (c.memWrite pa len v wimg) := by
  obtain ⟨d, hd⟩ : ∃ d, c.fetchDropRange pa len = d := ⟨_, rfl⟩
  have hless : FetchLess c d := by rw [← hd]; exact FetchLess.fetchDropRange c pa len
  have hdropped : ∀ i < len, d.Dropped (blkOf (pa + BitVec.ofNat 32 i)) := by
    intro i hi'
    rw [← hd]
    exact dropped_fetchDropRange c pa hi' hlen.le
  have hkept : Kept c d := by
    rw [← hd]
    exact (turns_fetchDropRange h.ok.shape pa len).kept h
  -- after the drop the write is a store of the flat memory, cached or not
  have hwrite : FetchLess d (d.memWrite pa len v wimg)
      ∧ MemOk (d.memWrite pa len v wimg) ∧ (d.memWrite pa len v wimg).dceOn = d.dceOn
      ∧ (d.memWrite pa len v wimg).flat = storeBytes d.flat pa len v := by
    cases hdce : d.dceOn with
    | true =>
        have hspec := memWrite_spec hkept.ok.ok pa len v ⟨hdce, hw, hi⟩
        have hon := hspec.core.dceOn
        rw [hdce] at hon
        exact ⟨hspec.fetch, ⟨hspec.ok, fun hoff => absurd hoff (by rw [hon]; simp)⟩, hon,
          hspec.flat⟩
    | false =>
        have hidem : d.fetchDropRange pa len = d := by
          rw [← hd]
          exact fetchDropRange_idem c pa len
        have heq : d.memWrite pa len v wimg
            = d.setBus { d.bus with mem := storeBytes d.bus.mem pa len v } := by
          unfold memWrite
          simp only [hidem, bypasses_eq d hi, hdce, Bool.not_false, if_true, busWrite_eq d pa hlen]
        obtain ⟨hok, hflat⟩ := noLines_setBus hkept.ok hdce
          { d.bus with mem := storeBytes d.bus.mem pa len v }
        rw [heq, hflat, (hkept.ok.off hdce).flat]
        exact ⟨FetchLess.refl d, hok, hdce, rfl⟩
  obtain ⟨hfetch, hok, hdce, hflat⟩ := hwrite
  rw [hd.symm, memWrite_dropped] at hfetch hok hdce hflat
  rw [hd] at hfetch hdce hflat
  refine ⟨hdce.trans hkept.dce, hless.trans hfetch, hok, seen_of_flat fun a => ?_⟩
  by_cases ha : ∃ i < len, a = pa + BitVec.ofNat 32 i
  · obtain ⟨i, hi', rfl⟩ := ha
    exact Or.inr ((hdropped i hi').less hfetch)
  · left
    have hsame : d.flat = c.flat := by
      rw [← hd]
      exact ((turns_fetchDropRange h.ok.shape pa len).quiet_same h.ok).flat
    rw [hflat, storeBytes_off _ _ _ _ fun i hi' heq => ha ⟨i, hi', heq⟩, hsame]

/-- **A read** changes nothing a fetch sees. -/
theorem memRead_kept (h : MemOk c) (pa : U32) (len : ℕ) {wimg : U32}
    (hw : wimg &&& kWimgW = 0#32) (hi : wimg &&& kWimgI = 0#32) :
    Kept c (c.memRead pa len wimg).2 := by
  cases hdce : c.dceOn with
  | true => exact (memRead_spec h.ok pa len ⟨hdce, hw, hi⟩).1.kept_on hdce
  | false =>
      have heq : (c.memRead pa len wimg).2 = c := by
        unfold memRead
        rw [bypasses_eq c hi, hdce, Bool.not_false, if_pos rfl, busRead_snd]
      rw [heq]
      exact Kept.refl h

/-! ## Block operations and masters -/

/-- `dcbz` drops the block it zeroes; the data cache is on. -/
theorem dcbzLine_kept (h : MemOk c) (hdce : c.dceOn = true) (pa : U32) :
    Kept c (c.dcbzLine pa) := by
  have hdrop := (turns_fetchDropAt h.ok.shape pa).kept h
  have hdropped := dropped_fetchDropAt c pa
  have hidem : (c.fetchDropAt pa).dcbzLine pa = c.dcbzLine pa := by
    unfold dcbzLine
    rw [hdropped.fetchDropAt]
  have hstore := dcbzLine_spec hdrop.ok.ok pa
  rw [hidem] at hstore
  refine hdrop.trans (Kept.of_on (by rw [hdrop.dce]; exact hdce) hstore.core hstore.fetch hstore.ok
    fun k => ?_)
  by_cases hk : k = blkOf pa
  · rw [hk]
    exact Or.inr (hdropped.less hstore.fetch)
  · rw [hstore.view, Function.update_of_ne hk]
    exact Or.inl rfl

/-- With the L1 empty no way answers. -/
theorem lineWay_noLines (hs : Shape c) (h : NoLines c) (pa : U32) : c.lineWay pa = (none, c) := by
  apply lineWay_of_none
  by_contra hne
  obtain ⟨w, hw⟩ := Option.ne_none_iff_exists'.mp hne
  have hnear := near_of_entry hs (lineWayQuiet_some hs hw)
  rw [(h _).1] at hnear
  exact absurd hnear (by simp)

theorem dcbClean_kept (h : MemOk c) (pa : U32) (invalidate : Bool) :
    Kept c (c.dcbClean pa invalidate) := by
  cases hdce : c.dceOn with
  | true => exact (dcbClean_spec h.ok pa invalidate).kept_on hdce
  | false =>
      have hturn := turns_fetchDropAt h.ok.shape pa
      have hdrop := hturn.kept h
      have hlines : NoLines (c.fetchDropAt pa) := hdrop.ok.off (by rw [hdrop.dce]; exact hdce)
      have heq : c.dcbClean pa invalidate = c.fetchDropAt pa := by
        unfold dcbClean
        simp only [lineWay_noLines hdrop.ok.ok.shape hlines pa]
      rw [heq]
      exact hdrop

/-- `dcbi` drops the block it discards. -/
theorem dcbKill_kept (h : MemOk c) (pa : U32) : Kept c (c.dcbKill pa) := by
  have hdrop := (turns_fetchDropAt h.ok.shape pa).kept h
  have hdropped := dropped_fetchDropAt c pa
  have hidem : (c.fetchDropAt pa).dcbKill pa = c.dcbKill pa := by
    unfold dcbKill
    rw [hdropped.fetchDropAt]
  rw [← hidem]
  obtain ⟨d, hd⟩ : ∃ d, c.fetchDropAt pa = d := ⟨_, rfl⟩
  rw [hd] at hdrop hdropped ⊢
  refine hdrop.trans ?_
  cases hdce : d.dceOn with
  | true =>
      have hstore := dcbKill_spec hdrop.ok.ok pa
      refine Kept.of_on hdce hstore.core hstore.fetch hstore.ok fun k => ?_
      by_cases hk : k = blkOf pa
      · rw [hk]
        exact Or.inr (hdropped.less hstore.fetch)
      · rw [hstore.view, Function.update_of_ne hk]
        exact Or.inl rfl
  | false =>
      have hlines := hdrop.ok.off hdce
      have heq : d.dcbKill pa = d.l2Invalidate (blkAddr (blkOf pa)) := by
        unfold dcbKill
        simp only [hdropped.fetchDropAt, lineWay_noLines hdrop.ok.ok.shape hlines pa, blockBase_eq]
      have hinv := (l2Invalidate_spec hdrop.ok.ok.shape (blkOf pa)).1
      rw [setFar_self (hlines (blkOf pa)).2] at hinv
      rw [heq]
      exact hinv.kept hdrop.ok

/-- A snooped block with the data cache off and nothing in either level. -/
theorem snoopBlock_noLines (hs : Shape c) (hdce : c.dceOn = false) (h : NoLines c) (a : U32)
    (invalidate : Bool) : Turns c (c.snoopBlock a invalidate) c.levels := by
  obtain ⟨d, hd⟩ : ∃ d, (if invalidate then c.fetchDropAt a else c) = d := ⟨_, rfl⟩
  have hdrop : Turns c d c.levels := by
    rw [← hd]
    split
    · exact turns_fetchDropAt hs a
    · exact Turns.refl hs
  have hl1 : d.snoopL1 a invalidate = d := by
    unfold snoopL1
    rw [hdrop.core.dceOn, hdce, if_neg (by simp)]
  obtain ⟨hturn, -, hsome, -⟩ := l2Find_spec hdrop.shape a
  have hnone : (d.l2Find a).1 = none := by
    by_contra hne
    obtain ⟨i, hi⟩ := Option.ne_none_iff_exists'.mp hne
    have hfar := far_of_entry hturn.shape (hsome i hi)
    rw [hturn.levels, hdrop.levels, (h _).2] at hfar
    exact absurd hfar (by simp)
  have hl2 : d.snoopL2 a invalidate = (d.l2Find a).2 := by
    rcases hr : d.l2Find a with ⟨hit, c₁⟩
    rw [hr] at hnone
    unfold snoopL2
    simp only [hr, hnone]
  unfold snoopBlock
  simp only [hd, hl1, hl2]
  rw [hdrop.levels] at hturn
  exact hdrop.trans hturn

theorem snoopLoop_noLines (invalidate : Bool) (last : U32) (fuel : ℕ) :
    ∀ (a : U32) (c : Cpu PlainBus), Shape c → c.dceOn = false → NoLines c →
      Turns c (snoopLoop invalidate last fuel a c) c.levels := by
  induction fuel with
  | zero => exact fun _ _ hs _ _ => Turns.refl hs
  | succ fuel ih =>
      intro a c hs hdce h
      have hblock := snoopBlock_noLines hs hdce h a invalidate
      unfold snoopLoop
      simp only
      split
      · exact hblock
      · have hlines : NoLines (c.snoopBlock a invalidate) := by
          intro k
          rw [hblock.levels]
          exact h k
        have hrest := ih (a + 32#32) _ hblock.shape (by rw [hblock.core.dceOn]; exact hdce) hlines
        rw [hblock.levels] at hrest
        exact hblock.trans hrest

/-- **A snoop** moves nothing a fetch sees. -/
theorem snoopPush_kept (h : MemOk c) {pa len : U32} (hrange : pa.toNat + len.toNat ≤ 2 ^ 32)
    (invalidate : Bool) : Kept c (c.snoopPush pa len invalidate) := by
  cases hdce : c.dceOn with
  | true => exact (snoopPush_spec h.ok (Or.inl hdce) hrange invalidate).1.kept_on hdce
  | false =>
      unfold snoopPush
      split
      · exact Kept.refl h
      · exact (snoopLoop_noLines _ _ _ _ c h.ok.shape hdce (h.off hdce)).kept h

/-- A master's write does not reach outside its range. -/
theorem masterStore_off (m : U32 → U8) (pa len : U32) (data : ℕ → U8) {a : U32}
    (ha : ∀ i < len.toNat, a ≠ pa + BitVec.ofNat 32 i) : masterStore m pa len data a = m a := by
  have hfold : ∀ (l : List ℕ) (m : U32 → U8), (∀ i ∈ l, a ≠ pa + BitVec.ofNat 32 i) →
      l.foldl (fun m i => Function.update m (pa + BitVec.ofNat 32 i) (data i)) m a = m a := by
    intro l
    induction l with
    | nil => exact fun _ _ => rfl
    | cons i l ih =>
        intro m hl
        rw [List.foldl_cons, ih _ fun j hj => hl j (List.mem_cons_of_mem i hj),
          Function.update_of_ne (hl i List.mem_cons_self)]
  exact hfold (List.range len.toNat) m fun i hi => ha i (List.mem_range.mp hi)

/-- **A master's write** behind an invalidating snoop. -/
theorem masterWrite_kept (h : MemOk c) {pa len : U32} (hrange : pa.toNat + len.toNat ≤ 2 ^ 32)
    (data : ℕ → U8) : Kept c (MemOp.exec c (.masterWrite pa len data)).2 := by
  have hseen : L1Seen c := by
    cases hdce : c.dceOn with
    | true => exact Or.inl hdce
    | false => exact Or.inr fun k => (h.off hdce k).1
  obtain ⟨-, hrangeOk⟩ := snoopPush_spec h.ok hseen hrange true
  have hsnoop := snoopPush_kept h hrange true
  obtain ⟨d, hd⟩ : ∃ d, c.snoopPush pa len true = d := ⟨_, rfl⟩
  rw [hd] at hrangeOk hsnoop
  have hflat : (d.setBus { d.bus with mem := masterStore d.bus.mem pa len data }).flat
        = masterStore d.flat pa len data
      ∧ MemOk (d.setBus { d.bus with mem := masterStore d.bus.mem pa len data }) := by
    have hstore := writes_masterStore pa data (List.range len.toNat) d hsnoop.ok.ok
      fun i hi => (hrangeOk i (List.mem_range.mp hi)).1
    refine ⟨hstore.flat, ⟨hstore.ok, fun hdce => ?_⟩⟩
    exact (noLines_setBus hsnoop.ok hdce _).1.off hdce
  have hexec : (MemOp.exec c (.masterWrite pa len data)).2
      = d.setBus { d.bus with mem := masterStore d.bus.mem pa len data } := by
    rw [MemOp.exec]
    simp only [hd]
  rw [hexec]
  refine hsnoop.trans ⟨rfl, FetchLess.refl d, hflat.2, seen_of_flat fun a => ?_⟩
  by_cases ha : ∃ i < len.toNat, a = pa + BitVec.ofNat 32 i
  · obtain ⟨i, hi, rfl⟩ := ha
    exact Or.inr ((hrangeOk i hi).2 rfl)
  · left
    rw [hflat.1, masterStore_off _ _ _ _ fun i hi heq => ha ⟨i, hi, heq⟩]

/-! ## Translation -/

theorem raiseExc_same (c : Cpu PlainBus) (v : Exc) (srr0 extra : U32) :
    SameMem c (c.raiseExc v srr0 extra) := ⟨rfl, rfl, rfl, rfl, rfl, rfl, rfl, rfl, rfl⟩

theorem dsi_same (c : Cpu PlainBus) (ea cia bits : U32) (write : Bool) :
    SameMem c (c.dsi ea cia bits write) := by
  unfold dsi
  exact ⟨rfl, rfl, rfl, rfl, rfl, rfl, rfl, rfl, rfl⟩

theorem xlFault_same (c : Cpu PlainBus) (ea cia : U32) (write fetch : Bool) (i d : U32) :
    SameMem c (c.xlFault ea cia write fetch i d) := by
  unfold xlFault
  split
  · exact raiseExc_same c _ _ _
  · exact dsi_same c _ _ _ _

theorem setTlb_same (c : Cpu PlainBus) (fetch : Bool) (s : BitVec 6) (w : Fin 2) (e : TlbEntry) :
    SameMem c (c.setTlb fetch s w e) := by
  unfold setTlb
  split <;> exact ⟨rfl, rfl, rfl, rfl, rfl, rfl, rfl, rfl, rfl⟩

theorem setTlbLru_same (c : Cpu PlainBus) (fetch : Bool) (s : BitVec 6) (w : Fin 2) :
    SameMem c (c.setTlbLru fetch s w) := by
  unfold setTlbLru
  split <;> exact ⟨rfl, rfl, rfl, rfl, rfl, rfl, rfl, rfl, rfl⟩

theorem pteRead_kept (h : MemOk c) (a : U32) : Kept c (c.pteRead a).2 := by
  unfold pteRead
  split
  · exact Kept.refl h
  · exact memRead_kept h a 4 (by decide) (by decide)

theorem pteUpdate_kept (h : MemOk c) (a w1 nw1 : U32) : Kept c (c.pteUpdate a w1 nw1) := by
  unfold pteUpdate
  split
  · exact memWrite_kept h a (by unfold AccessLen; omega) _ (by decide) (by decide)
  · exact Kept.refl h

theorem pteUse_kept (h : MemOk c) (q : PageReq) (pteAddr : U32) :
    Kept c (c.pteUse q pteAddr).2 := by
  have hread := pteRead_kept h (pteAddr + 4#32)
  obtain ⟨r, hr⟩ : ∃ r, c.pteRead (pteAddr + 4#32) = r := ⟨_, rfl⟩
  obtain ⟨w1, c₁⟩ := r
  rw [hr] at hread
  unfold pteUse
  simp only [hr]
  split
  · exact hread.trans ((raiseExc_same c₁ _ _ _).kept hread.ok)
  · split
    · have hput := hread.trans (pteUpdate_kept hread.ok (pteAddr + 4#32) w1 (w1 ||| 0x00000100#32))
      exact hput.trans ((xlFault_same _ _ _ _ _ _ _).kept hput.ok)
    · obtain ⟨nw1, hn⟩ : ∃ n, (if q.write then w1 ||| 0x00000100#32 ||| 0x00000080#32
          else w1 ||| 0x00000100#32) = n := ⟨_, rfl⟩
      have hput := hread.trans (pteUpdate_kept hread.ok (pteAddr + 4#32) w1 nw1)
      rw [hn]
      refine hput.trans ?_
      simp only
      split
      · exact Kept.refl hput.ok
      · exact ((setTlb_same _ _ _ _ _).trans (setTlbLru_same _ _ _ _)).kept hput.ok

theorem pteSearch_kept (q : PageReq) (l : List (Bool × ℕ)) : ∀ c : Cpu PlainBus, MemOk c →
    Kept c (pteSearch q l c).2 := by
  induction l with
  | nil => exact fun c h => (xlFault_same c _ _ _ _ _ _).kept h
  | cons p rest ih =>
      intro c h
      obtain ⟨secondary, slot⟩ := p
      obtain ⟨a, ha⟩ : ∃ a, c.ptegAddr q secondary + BitVec.ofNat 32 slot * 8#32 = a := ⟨_, rfl⟩
      have hread := pteRead_kept h a
      obtain ⟨r, hr⟩ : ∃ r, c.pteRead a = r := ⟨_, rfl⟩
      obtain ⟨w0, c₁⟩ := r
      rw [hr] at hread
      unfold pteSearch
      simp only [ha, hr]
      split
      · exact hread.trans (pteUse_kept hread.ok q a)
      · exact hread.trans (ih c₁ hread.ok)

theorem pageXlate_kept (h : MemOk c) (q : PageReq) : Kept c (c.pageXlate q).2 := by
  unfold pageXlate
  split
  · exact pteSearch_kept q pteSlots c h
  · simp only
    split
    · exact (raiseExc_same c _ _ _).kept h
    · split
      · exact (xlFault_same c _ _ _ _ _ _).kept h
      · split
        · have hset := (setTlb_same c q.fetch q.set ‹Fin 2›
            { c.tlbOf q.fetch q.set ‹Fin 2› with
              v := false, c := (c.tlbOf q.fetch q.set ‹Fin 2›).c }).kept h
          exact hset.trans (pteSearch_kept q pteSlots _ hset.ok)
        · exact (setTlbLru_same c _ _ _).kept h

theorem batXlate_kept (h : MemOk c) (b : BatHit) (ea cia : U32) (write fetch : Bool) :
    Kept c (c.batXlate b ea cia write fetch).2 := by
  unfold batXlate
  split
  · exact (raiseExc_same c _ _ _).kept h
  · split
    · exact (xlFault_same c _ _ _ _ _ _).kept h
    · exact Kept.refl h

theorem segXlate_kept (h : MemOk c) (ea cia : U32) (write fetch : Bool) :
    Kept c (c.segXlate ea cia write fetch).2 := by
  unfold segXlate
  simp only
  split
  · exact (xlFault_same c _ _ _ _ _ _).kept h
  · split
    · exact (raiseExc_same c _ _ _).kept h
    · exact pageXlate_kept h _

/-- **A translation**, table search and all, keeps the fetch blocks. -/
theorem translate_kept (h : MemOk c) (ea : U32) (write fetch : Bool) :
    Kept c (c.translate ea write fetch).2 := by
  obtain ⟨mode, hmode⟩ : ∃ m, (if fetch then msr.IR else msr.DR) = m := ⟨_, rfl⟩
  unfold translate
  simp only [hmode]
  by_cases hreal : c.st.msr &&& mode = 0#32
  · rw [if_pos hreal]
    exact Kept.refl h
  · rw [if_neg hreal]
    split
    · exact batXlate_kept h _ _ _ _ _
    · exact segXlate_kept h _ _ _ _

theorem xlateFetch_kept (h : MemOk c) (ea : U32) : Kept c (c.xlateFetch ea).2 := by
  have hx := translate_kept h ea false true
  unfold xlateFetch
  simp only
  split
  · exact Kept.refl h
  · obtain ⟨r, hr⟩ : ∃ r, c.translate ea false true = r := ⟨_, rfl⟩
    obtain ⟨res, c₁⟩ := r
    rw [hr] at hx
    rw [hr]
    cases res with
    | none => exact hx
    | some p =>
        have hsame : SameMem c₁ { c₁ with
            xlGen := c₁.mmuGen, xlPage := ea >>> 12,
            xlMsr := c.st.msr &&& (msr.IR ||| msr.PR ||| msr.LE),
            xlSr := c.st.sr (ea.extractLsb' 28 4), xlPa := p.1 &&& ~~~0xFFF#32 } :=
          ⟨rfl, rfl, rfl, rfl, rfl, rfl, rfl, rfl, rfl⟩
        exact hx.trans (hsame.kept hx.ok)

end Cpu

end OpenPowerMac
