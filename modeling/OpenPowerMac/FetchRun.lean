/-
The fetch blocks over a whole run.

`FetchOp` is what can happen between two fetches: another fetch, a data access or
a block operation of the processor, `icbi`, a bus master's access inside its
snoop bracket. Through any run of them from reset every resident block stays a
copy of what a fetch of it would find (`FetchOk`), so a fetch served from a block
buffer answers what the path with the fetch caches switched off answers
(`fetch_transparent`): the L1's copy, else the L2's, else the bus.

Three things are asked of a run. A master's range does not wrap, as in the cache
run. `dcbz` comes with the data cache on, which the instruction checks before it
gets that far: a line zeroed into a cache that nothing looks at can be pushed down
into the L2 and dropped there again, with a block fetched in between. And a
compared fetch is of a word: at any other address the block buffer answers the
word around it and the bus answers the four bytes from it on.
-/
import OpenPowerMac.FetchKept

set_option autoImplicit false

namespace OpenPowerMac

open Hierarchy

namespace Cpu

/-! ## Words of a block -/

/-- A word's address. -/
def Aligned (pa : U32) : Prop := pa &&& 3#32 = 0#32

instance (pa : U32) : Decidable (Aligned pa) := inferInstanceAs (Decidable (pa &&& 3#32 = 0#32))

theorem wordOf_eq (pa : U32) : wordOf pa = (blockOff pa).extractLsb' 2 3 := by
  apply BitVec.eq_of_toNat_eq
  rw [wordOf, BitVec.extractLsb'_toNat, BitVec.extractLsb'_toNat, Nat.shiftRight_eq_div_pow,
    Nat.shiftRight_eq_div_pow, blockOff_toNat]
  omega

theorem wordOf_append (pa : U32) : (wordOf pa ++ 0#2 : BitVec 5) = blockOff pa &&& ~~~3#5 := by
  have hoff : ∀ o : BitVec 5, (o.extractLsb' 2 3 ++ 0#2 : BitVec 5) = o &&& ~~~3#5 := by decide
  rw [wordOf_eq, hoff]

theorem lineWord_eq (l : Line) (pa : U32) : lineWord l pa = blockWord l (wordOf pa) := by
  unfold lineWord blockWord
  rw [wordOf_append]

theorem Aligned.mod {pa : U32} (h : Aligned pa) : pa.toNat % 4 = 0 := by
  have hnat := congrArg BitVec.toNat h
  rw [BitVec.toNat_and, show (3#32).toNat = 2 ^ 2 - 1 from rfl, Nat.and_two_pow_sub_one_eq_mod]
    at hnat
  exact hnat

theorem Aligned.wordOf_append {pa : U32} (h : Aligned pa) :
    (wordOf pa ++ 0#2 : BitVec 5) = blockOff pa := by
  have hmod := h.mod
  apply BitVec.eq_of_toNat_eq
  rw [BitVec.toNat_append, ← Nat.shiftLeft_add_eq_or_of_lt (by decide), Nat.shiftLeft_eq, wordOf,
    BitVec.extractLsb'_toNat, Nat.shiftRight_eq_div_pow, blockOff_toNat,
    show (0#2).toNat = 0 from rfl]
  omega

/-- The bus's word at a word's address is a word of the block in memory. -/
theorem read32_eq (b : PlainBus) {pa : U32} (h : Aligned pa) :
    Bus.read32 b pa = (blockWord (memLine b (blkOf pa)) (wordOf pa), b) := by
  have hmod := h.mod
  have hin : (blockOff pa).toNat + 4 ≤ 32 := by
    rw [blockOff_toNat]
    omega
  have hflat : flatOf (memLine b) = b.mem := by
    funext a
    rw [flatOf, memLine, byteAddr_blkOf]
  have hload : blockWord (memLine b (blkOf pa)) (wordOf pa) = (b.load pa 4).setWidth 32 := by
    unfold blockWord PlainBus.load
    rw [h.wordOf_append, lineLoadBE_eq (memLine b) hin, hflat]
  rw [hload]
  rfl

variable {c : Cpu PlainBus}

/-! ## The invariant -/

/-- The word a fetch of `pa` finds. -/
noncomputable def fetchWord (c : Cpu PlainBus) (pa : U32) : U32 :=
  blockWord (c.levels.view (blkOf pa)) (wordOf pa)

/-- Every resident block is a copy of the view, decoded. -/
def FetchOk (c : Cpu PlainBus) : Prop :=
  ∀ s, (c.fetchLine s).base = 1#32
    ∨ ∃ k, s = fetchSlot (blkAddr k) ∧ c.fetchLine s = fetchFill (blkAddr k) (c.levels.view k)

/-- The invariant of the fetch path. -/
structure FetchInv (c : Cpu PlainBus) : Prop where
  mem : MemOk c
  lines : FetchOk c

theorem FetchOk.kept {c' : Cpu PlainBus} (h : FetchOk c) (hk : Kept c c') : FetchOk c' := by
  intro s
  rcases hk.fetch s with heq | hempty
  · rcases h s with hone | ⟨k, hslot, hline⟩
    · exact Or.inl (by rw [heq, hone])
    · rcases hk.seen k with hview | hdropped
      · exact Or.inr ⟨k, hslot, by rw [heq, hline, hview]⟩
      · -- a dropped block is not the one the slot holds
        rw [Dropped, ← hslot, heq, hline] at hdropped
        exact absurd rfl hdropped
  · exact Or.inl hempty

theorem FetchInv.kept {c' : Cpu PlainBus} (h : FetchInv c) (hk : Kept c c') : FetchInv c' :=
  ⟨hk.ok, h.lines.kept hk⟩

/-- From reset no block is resident. -/
theorem fetchInv_reset (hempty : EmptyCaches c) (hlines : ∀ s, (c.fetchLine s).base = 1#32) :
    FetchInv c := by
  refine ⟨⟨hempty.cacheOk.1, fun _ k => ⟨?_, ?_⟩⟩, fun s => Or.inl (hlines s)⟩
  · exact congrFun (lookup_empty hempty.l1Entry) k
  · exact congrFun (lookup_empty hempty.l2Entry) k

/-! ## One fetch -/

theorem l1dReadLine_some (hs : Shape c) {k : BitVec 27} {l : Line}
    (h : c.l1dReadLine (blkAddr k) = some l) : c.levels.view k = l := by
  unfold l1dReadLine at h
  split at h
  · rcases hw : c.lineWayQuiet (blkAddr k) with _ | w
    · rw [hw] at h
      exact absurd h (by simp)
    · rw [hw, Option.map_some, Option.some.injEq] at h
      have hentry := lineWayQuiet_some hs hw
      rw [blkOf_blkAddr] at hentry
      rw [view_of_entry hs hentry, h]
  · exact absurd h (by simp)

theorem l1_near_none (h : MemOk c) (pa : U32) (hw : c.dceOn = true → c.lineWayQuiet pa = none) :
    c.levels.near (blkOf pa) = none := by
  cases hdce : c.dceOn with
  | true => exact lineWayQuiet_none h.ok.shape (hw hdce)
  | false => exact (h.off hdce _).1

theorem l1dReadLine_none (h : MemOk c) {k : BitVec 27} (hr : c.l1dReadLine (blkAddr k) = none) :
    c.levels.near k = none := by
  have hnear := l1_near_none h (blkAddr k) fun hdce => by
    unfold l1dReadLine at hr
    rw [hdce, if_pos rfl, Option.map_eq_none_iff] at hr
    exact hr
  rw [blkOf_blkAddr] at hnear
  exact hnear

/-- The bytes of a block, or nothing where the bus says it is not memory and
neither cache holds it. -/
theorem fetchRaw_spec (h : MemOk c) (k : BitVec 27) :
    ∃ c₁, Kept c c₁ ∧ c₁.levels = c.levels
      ∧ (c.fetchRaw (blkAddr k) = (some (c.levels.view k), c₁)
        ∨ c.fetchRaw (blkAddr k) = (none, c₁) ∧ c.levels.view k = memLine c₁.bus k) := by
  unfold fetchRaw
  cases hl1 : c.l1dReadLine (blkAddr k) with
  | some l => exact ⟨c, Kept.refl h, rfl, Or.inl (by rw [l1dReadLine_some h.ok.shape hl1])⟩
  | none =>
      have hnear := l1dReadLine_none h hl1
      have hview : c.levels.view k = c.levels.below k := Levels.view_of_none hnear
      obtain ⟨hturn, -, hsome, hnone⟩ := l2Find_spec h.ok.shape (blkAddr k)
      rw [blkOf_blkAddr] at hsome hnone
      rcases hr : c.l2Find (blkAddr k) with ⟨hit, c₁⟩
      rw [hr] at hturn hsome hnone
      refine ⟨c₁, hturn.kept h, hturn.levels, ?_⟩
      unfold l2ReadLine
      simp only [hr]
      cases hit with
      | some i =>
          have hfar := far_of_entry hturn.shape (hsome i rfl)
          rw [hturn.levels] at hfar
          left
          rw [hview, Levels.below_of_far hfar]
          rfl
      | none =>
          have hmem : c.levels.view k = memLine c₁.bus k := by
            rw [hview, Levels.below_of_none (hnone rfl), ← hturn.levels]
            rfl
          simp only [Option.map_none]
          split
          · left
            have hread : Bus.readLine32 c₁.bus (blkAddr k) = (c.levels.view k, c₁.bus) := by
              rw [hmem, ← loadLine_eq]
              rfl
            rw [hread]
            rfl
          · exact Or.inr ⟨rfl, hmem⟩

/-- Filing a copy of the view, or emptying a slot. -/
theorem FetchInv.setFetchLine (h : FetchInv c) {s : BitVec 12} {fl : FetchLine}
    (hfl : fl.base = 1#32
      ∨ ∃ k, s = fetchSlot (blkAddr k) ∧ fl = fetchFill (blkAddr k) (c.levels.view k)) :
    FetchInv (c.setFetchLine s fl) := by
  have hok : MemOk (c.setFetchLine s fl) :=
    ⟨⟨⟨h.mem.ok.shape.tvShort, h.mem.ok.shape.l1Distinct, h.mem.ok.shape.l2Size,
      h.mem.ok.shape.l2Home, h.mem.ok.shape.l2Distinct, h.mem.ok.shape.l2Unused⟩,
      h.mem.ok.coherent⟩, h.mem.off⟩
  refine ⟨hok, fun t => ?_⟩
  rw [setFetchLine_fetchLine]
  by_cases ht : t = s
  · rw [ht, Function.update_self]
    exact hfl
  · rw [Function.update_of_ne ht]
    exact h.lines t

/-- **A fetch through the block buffer** finds the view's word, and leaves the
invariant. -/
theorem fetchAt_spec (h : FetchInv c) (pa : U32) :
    FetchInv (c.fetchAt pa).2 ∧ (c.fetchAt pa).2.dceOn = c.dceOn
      ∧ (Aligned pa → (c.fetchAt pa).1 = (c.fetchWord pa, rowOf (c.fetchWord pa))) := by
  have hslot := fetchSlot_blkAddr pa
  unfold fetchAt
  simp only [blockBase_eq]
  by_cases hhit : (c.fetchLine (fetchSlot pa)).base = blkAddr (blkOf pa)
  · rw [if_pos hhit]
    refine ⟨h, rfl, fun _ => ?_⟩
    -- the slot holds this block, and so its copy of the view
    have hline : c.fetchLine (fetchSlot pa)
        = fetchFill (blkAddr (blkOf pa)) (c.levels.view (blkOf pa)) := by
      rcases h.lines (fetchSlot pa) with hone | ⟨k, -, hfill⟩
      · rw [hone] at hhit
        exact absurd hhit (blkAddr_ne_one _)
      · rw [hfill] at hhit
        have hk : k = blkOf pa := by
          have := congrArg blkOf hhit
          rw [show (fetchFill (blkAddr k) (c.levels.view k)).base = blkAddr k from rfl,
            blkOf_blkAddr, blkOf_blkAddr] at this
          exact this
        rw [hfill, hk]
    rw [hline]
    rfl
  · rw [if_neg hhit]
    obtain ⟨c₁, hkept, hlev, hfound | ⟨hmiss, hmem⟩⟩ := fetchRaw_spec h.mem (blkOf pa)
    · rw [hfound]
      refine ⟨(h.kept hkept).setFetchLine (Or.inr ⟨blkOf pa, hslot.symm, ?_⟩), hkept.dce,
        fun _ => rfl⟩
      rw [hlev]
    · rw [hmiss]
      refine ⟨(h.kept hkept).setFetchLine (Or.inl rfl), hkept.dce, fun hal => ?_⟩
      have hread := read32_eq c₁.bus hal
      simp only [setFetchLine, hread]
      rw [fetchWord, hmem]

/-- **The path with the fetch caches off** finds the same word. -/
theorem fetchAtOff_spec (h : MemOk c) (pa : U32) :
    Kept c (c.fetchAtOff pa).2
      ∧ (Aligned pa → (c.fetchAtOff pa).1 = (c.fetchWord pa, rowOf (c.fetchWord pa))) := by
  unfold fetchAtOff
  cases hl1 : c.l1dPeek32 pa with
  | some x =>
      refine ⟨Kept.refl h, fun _ => ?_⟩
      unfold l1dPeek32 at hl1
      split at hl1
      · rcases hw : c.lineWayQuiet pa with _ | w
        · rw [hw] at hl1
          exact absurd hl1 (by simp)
        · rw [hw, Option.map_some, Option.some.injEq, lineWord_eq] at hl1
          have hview := view_of_entry h.ok.shape (lineWayQuiet_some h.ok.shape hw)
          rw [fetchWord, hview, ← hl1]
      · exact absurd hl1 (by simp)
  | none =>
      -- the data cache has no copy, so what is seen lies in the L2 or in memory
      have hnear := l1_near_none h pa fun hdce => by
        unfold l1dPeek32 at hl1
        rw [hdce, if_pos rfl, Option.map_eq_none_iff] at hl1
        exact hl1
      have hview : c.levels.view (blkOf pa) = c.levels.below (blkOf pa) :=
        Levels.view_of_none hnear
      obtain ⟨hturn, -, hsome, hnone⟩ := l2Find_spec h.ok.shape pa
      rcases hr : c.l2Find pa with ⟨hit, c₁⟩
      rw [hr] at hturn hsome hnone
      unfold l2Peek32
      simp only [hr]
      cases hit with
      | some i =>
          refine ⟨hturn.kept h, fun _ => ?_⟩
          have hfar := far_of_entry hturn.shape (hsome i rfl)
          rw [hturn.levels] at hfar
          rw [fetchWord, hview, Levels.below_of_far hfar]
          simp only [Option.map_some, lineWord_eq]
      | none =>
          refine ⟨hturn.kept h, fun hal => ?_⟩
          have hmem : c.levels.view (blkOf pa) = memLine c₁.bus (blkOf pa) := by
            rw [hview, Levels.below_of_none (hnone rfl), ← hturn.levels]
            rfl
          have hread := read32_eq c₁.bus hal
          simp only [Option.map_none, hread]
          rw [fetchWord, hmem]

/-! ## `fetchDecoded` -/

/-- The one-page translation cache answers for `ea`. -/
def XlHit (c : Cpu PlainBus) (ea : U32) : Prop :=
  c.xlGen = c.mmuGen ∧ c.xlPage = ea >>> 12
    ∧ c.xlMsr = c.st.msr &&& (msr.IR ||| msr.PR ||| msr.LE)
    ∧ c.xlSr = c.st.sr (ea.extractLsb' 28 4)

theorem xlateFetch_hit {ea : U32} (h : c.XlHit ea) :
    c.xlateFetch ea = (some (c.xlPa ||| (ea &&& 0xFFF#32)), c) := if_pos h

/-- On a miss the fetch is translated, and the cache refilled. -/
theorem xlateFetch_miss {ea : U32} (h : ¬ c.XlHit ea) :
    (c.xlateFetch ea).1 = (c.translate ea false true).1.map Prod.fst
      ∧ SameMem (c.translate ea false true).2 (c.xlateFetch ea).2 := by
  unfold XlHit at h
  unfold xlateFetch
  simp only
  rw [if_neg h]
  rcases c.translate ea false true with ⟨_ | ⟨pa, wimg⟩, c₁⟩
  · exact ⟨rfl, rfl, rfl, rfl, rfl, rfl, rfl, rfl, rfl, rfl⟩
  · exact ⟨rfl, rfl, rfl, rfl, rfl, rfl, rfl, rfl, rfl, rfl⟩

/-- The translation of a fetch is fixed: where the one-page cache answers, the
translation itself would give the same address and has nothing left to record in
memory. -/
def XlateFixed (c : Cpu PlainBus) (ea : U32) : Prop :=
  c.XlHit ea →
    (c.translate ea false true).1.map Prod.fst = some (c.xlPa ||| (ea &&& 0xFFF#32))
      ∧ (c.translate ea false true).2.flat = c.flat

theorem fetchWord_congr {c' : Cpu PlainBus} (h : c'.flat = c.flat) (pa : U32) :
    c'.fetchWord pa = c.fetchWord pa := by
  have hview : c'.levels.view (blkOf pa) = c.levels.view (blkOf pa) := by
    funext o
    have hbyte := congrFun h (byteAddr (blkOf pa) o)
    rw [Cpu.flat, Cpu.flat, flatOf_byteAddr, flatOf_byteAddr] at hbyte
    exact hbyte
  rw [fetchWord, hview, fetchWord]

theorem FetchInv.fetchDecodedOff (h : FetchInv c) (ea : U32) :
    FetchInv (c.fetchDecodedOff ea).2 ∧ (c.fetchDecodedOff ea).2.dceOn = c.dceOn := by
  have hx := translate_kept h.mem (c.fetchEa ea) false true
  unfold Cpu.fetchDecodedOff
  rcases hr : c.translate (c.fetchEa ea) false true with ⟨_ | ⟨pa, wimg⟩, c₁⟩ <;> rw [hr] at hx
  · exact ⟨h.kept hx, hx.dce⟩
  · have hoff := (fetchAtOff_spec hx.ok pa).1
    exact ⟨(h.kept hx).kept hoff, hoff.dce.trans hx.dce⟩

theorem FetchInv.fetchDecoded (h : FetchInv c) (ea : U32) :
    FetchInv (c.fetchDecoded ea).2 ∧ (c.fetchDecoded ea).2.dceOn = c.dceOn := by
  unfold Cpu.fetchDecoded
  split
  · exact h.fetchDecodedOff ea
  · have hx := xlateFetch_kept h.mem (c.fetchEa ea)
    rcases hr : c.xlateFetch (c.fetchEa ea) with ⟨_ | pa, c₁⟩ <;> rw [hr] at hx
    · exact ⟨h.kept hx, hx.dce⟩
    · obtain ⟨hinv, hdce, -⟩ := fetchAt_spec (h.kept hx) pa
      exact ⟨hinv, hdce.trans hx.dce⟩

/-- **One fetch** answers what it answers with the fetch caches off. -/
theorem fetchDecoded_eq_off (h : FetchInv c) (ea : U32) (hfix : c.XlateFixed (c.fetchEa ea))
    (hal : ∀ pa, (c.xlateFetch (c.fetchEa ea)).1 = some pa → Aligned pa) :
    (c.fetchDecoded ea).1 = (c.fetchDecodedOff ea).1 := by
  cases hoff : c.fetchCacheOff with
  | true =>
      unfold Cpu.fetchDecoded
      rw [hoff, if_pos rfl]
  | false =>
      have hx := translate_kept h.mem (c.fetchEa ea) false true
      unfold Cpu.fetchDecoded Cpu.fetchDecodedOff
      rw [hoff, if_neg (by simp)]
      by_cases hhit : c.XlHit (c.fetchEa ea)
      · obtain ⟨hpa, hflat⟩ := hfix hhit
        rw [xlateFetch_hit hhit] at hal ⊢
        have hal' := hal _ rfl
        rcases hr : c.translate (c.fetchEa ea) false true with ⟨_ | ⟨pa, wimg⟩, c₁⟩
        · rw [hr] at hpa
          exact absurd hpa (by simp)
        · rw [hr] at hpa hflat hx
          rw [Option.map_some, Option.some.injEq] at hpa
          simp only at hpa
          rw [← hpa] at hal' ⊢
          simp only
          rw [(fetchAt_spec h pa).2.2 hal', (fetchAtOff_spec hx.ok pa).2 hal',
            fetchWord_congr hflat pa]
      · obtain ⟨hpa, hsame⟩ := xlateFetch_miss hhit
        rcases hr : c.translate (c.fetchEa ea) false true with ⟨_ | ⟨pa, wimg⟩, c₁⟩ <;>
          rcases hr' : c.xlateFetch (c.fetchEa ea) with ⟨res, c₂⟩ <;>
          rw [hr, hr'] at hpa hsame <;> rw [hr] at hx <;> rw [hr'] at hal <;>
          simp only [Option.map_none, Option.map_some] at hpa <;> subst hpa
        · rfl
        · have hal' := hal pa rfl
          have hkept := hsame.kept hx.ok
          have hinv := (h.kept hx).kept hkept
          have hlev : c₂.fetchWord pa = c₁.fetchWord pa := by
            rw [fetchWord, hsame.levels, fetchWord]
          simp only
          rw [(fetchAt_spec hinv pa).2.2 hal', (fetchAtOff_spec hx.ok pa).2 hal', hlev]

end Cpu

/-! ## The run -/

/-- What happens between two fetches. -/
inductive FetchOp where
  | fetch (ea : U32)
  | mem (op : MemOp)
  | dcbKill (pa : U32)
  | icbi

namespace FetchOp

/-- The operation on the processor. -/
def exec (c : Cpu PlainBus) : FetchOp → Cpu PlainBus
  | fetch ea => (c.fetchDecoded ea).2
  | mem op => (op.exec c).2
  | dcbKill pa => c.dcbKill pa
  | icbi => c.fetchDrop

/-- What is asked of an operation, the data cache being as `dce` says. -/
def Ok (dce : Bool) : FetchOp → Prop
  | mem (.write _ len _ _) => Cpu.AccessLen len
  | mem (.dcbz _) => dce = true
  | mem (.masterRead pa len) => pa.toNat + len.toNat ≤ 2 ^ 32
  | mem (.masterWrite pa len _) => pa.toNat + len.toNat ≤ 2 ^ 32
  | mem .l1dFlush => dce = true
  | mem .l2Flush => dce = true
  | _ => True

end FetchOp

/-- The processor after a run. -/
def runFetch (c : Cpu PlainBus) (ops : List FetchOp) : Cpu PlainBus := ops.foldl FetchOp.exec c

namespace Cpu

variable {c : Cpu PlainBus}

theorem memOp_kept (h : MemOk c) (op : MemOp) (hok : (FetchOp.mem op).Ok c.dceOn) :
    Kept c (op.exec c).2 := by
  have hbits : ∀ mg : BitVec 2, (mg.setWidth 32 : U32) &&& kWimgW = 0#32
      ∧ (mg.setWidth 32 : U32) &&& kWimgI = 0#32 := by decide
  cases op with
  | read pa len mg => exact memRead_kept h pa len (hbits mg).1 (hbits mg).2
  | write pa len v mg => exact memWrite_kept h pa hok v (hbits mg).1 (hbits mg).2
  | dcbz pa => exact dcbzLine_kept h hok pa
  | dcbClean pa invalidate => exact dcbClean_kept h pa invalidate
  | masterRead pa len => exact snoopPush_kept h hok false
  | masterWrite pa len data => exact masterWrite_kept h hok data
  | l1dFlush =>
      have hflush := (l1dFlushAll_spec h.ok).kept_on hok
      rw [MemOp.exec]
      dsimp only
      exact hflush
  | l2Flush => exact (l2FlushAll_spec h.ok).kept_on hok

/-- **One operation** keeps the invariant. -/
theorem FetchInv.exec (h : FetchInv c) (op : FetchOp) (hok : op.Ok c.dceOn) :
    FetchInv (op.exec c) ∧ (op.exec c).dceOn = c.dceOn := by
  have hkept : ∀ c', Kept c c' → FetchInv c' ∧ c'.dceOn = c.dceOn :=
    fun c' hk => ⟨h.kept hk, hk.dce⟩
  cases op with
  | fetch ea => exact h.fetchDecoded ea
  | mem op => exact hkept _ (memOp_kept h.mem op hok)
  | dcbKill pa => exact hkept _ (dcbKill_kept h.mem pa)
  | icbi => exact hkept _ ((turns_fetchDrop h.mem.ok.shape).kept h.mem)

theorem FetchInv.run (ops : List FetchOp) : ∀ c : Cpu PlainBus, FetchInv c →
    (∀ op ∈ ops, op.Ok c.dceOn) → FetchInv (runFetch c ops) := by
  induction ops with
  | nil => exact fun _ h _ => h
  | cons op ops ih =>
      intro c h hok
      obtain ⟨hinv, hdce⟩ := h.exec op (hok op List.mem_cons_self)
      refine ih _ hinv fun op' hop' => ?_
      rw [hdce]
      exact hok op' (List.mem_cons_of_mem op hop')

/-- A processor as it comes out of reset, as far as its memory system goes. -/
structure ResetMem (c : Cpu PlainBus) : Prop where
  empty : EmptyCaches c
  lines : ∀ s, (c.fetchLine s).base = 1#32

/-- A fetch whose translation is fixed, of a word. -/
structure WordFetch (c : Cpu PlainBus) (ea : U32) : Prop where
  fixed : c.XlateFixed (c.fetchEa ea)
  aligned : ∀ pa, (c.xlateFetch (c.fetchEa ea)).1 = some pa → Aligned pa

/-- **The fetch blocks are transparent.** After any run from reset, a fetch answers
the word and the row it would answer with the fetch caches off. -/
theorem fetch_transparent (c : Cpu PlainBus) (hreset : ResetMem c) (ops : List FetchOp)
    (hok : ∀ op ∈ ops, op.Ok c.dceOn) (ea : U32) (hword : (runFetch c ops).WordFetch ea) :
    ((runFetch c ops).fetchDecoded ea).1 = ((runFetch c ops).fetchDecodedOff ea).1 :=
  fetchDecoded_eq_off (FetchInv.run ops c (fetchInv_reset hreset.empty hreset.lines) hok) ea
    hword.fixed hword.aligned

/-- In real mode the translation is the address itself. -/
theorem xlateFixed_real {ea : U32} (hmsr : c.st.msr &&& msr.IR = 0#32)
    (hpa : c.xlPa ||| (ea &&& 0xFFF#32) = ea) : c.XlateFixed ea := by
  have htr : (c.translate ea false true).1.map Prod.fst = some ea
      ∧ (c.translate ea false true).2 = c := by
    unfold translate
    simp only [if_true]
    rw [if_pos hmsr]
    exact ⟨rfl, rfl⟩
  intro _
  rw [htr.1, htr.2, hpa]
  exact ⟨rfl, rfl⟩

theorem zeroed_reset : ResetMem zeroed := ⟨zeroed_empty, fun _ => rfl⟩

/-- A word fetched, overwritten, and fetched again. -/
def rewrittenWord : List FetchOp := [.fetch 0#32, .mem (.write 0#32 4 0x38600001#64 0#2)]

theorem fetch_transparent_rewritten :
    ((runFetch zeroed rewrittenWord).fetchDecoded 0#32).1
      = ((runFetch zeroed rewrittenWord).fetchDecodedOff 0#32).1 := by
  refine fetch_transparent zeroed zeroed_reset rewrittenWord ?_ 0#32 ⟨?_, ?_⟩
  · intro op hop
    rcases List.mem_cons.mp hop with rfl | hop
    · exact trivial
    · rw [List.mem_singleton.mp hop]
      exact Or.inr (Or.inr (Or.inl rfl))
  · exact xlateFixed_real (by decide) (by decide +kernel)
  · have haligned : (runFetch zeroed rewrittenWord).xlateFetch
        ((runFetch zeroed rewrittenWord).fetchEa 0#32) |>.1 |>.all fun pa => pa &&& 3#32 == 0#32 := by
      decide
    intro pa hpa
    rw [hpa, Option.all_some, beq_iff_eq] at haligned
    exact haligned

/-- A run from reset after which the two paths differ at `ea`, whose translation
is fixed. -/
structure FetchDiffers (c : Cpu PlainBus) (ops : List FetchOp) (ea : U32) : Prop where
  reset : ResetMem c
  fixed : (runFetch c ops).XlateFixed ((runFetch c ops).fetchEa ea)
  differs : ((runFetch c ops).fetchDecoded ea).1 ≠ ((runFetch c ops).fetchDecodedOff ea).1

/-- Memory whose bytes count up, nothing switched on. -/
def counting : Cpu PlainBus := { bus := { mem := fun a => a.setWidth 8 } }

/-- A block fetched, and its first byte overwritten by a master whose range began
at the last byte of the address space. -/
def wrappedMaster : List FetchOp :=
  [.fetch 0#32, .mem (.masterWrite 0xFFFFFFFF#32 2#32 fun _ => 1#8)]

/-- The data cache off and the L2 on, pushes parked in it. -/
def l2Only : Cpu PlainBus := { bus := { mem := fun _ => 0#8 }, st := { l2cr := 0x90040000#32 } }

/-- A block zeroed, parked in the L2 and cleaned there; memory written behind it;
the block fetched; and its L2 line lost to two other blocks of its set. -/
def parkedZeros : List FetchOp :=
  [.mem (.dcbz 0#32), .mem (.dcbClean 0#32 false), .mem (.masterRead 0#32 1#32),
    .mem (.write 0#32 1 1#64 0#2), .fetch 0#32,
    .mem (.dcbz 0x20000#32), .mem (.dcbClean 0x20000#32 false),
    .mem (.dcbz 0x40000#32), .mem (.dcbClean 0x40000#32 false)]

set_option maxRecDepth 100000 in
/-- Off a word's address, over a wrapped range, and after a `dcbz` with the data
cache off, the block buffer answers something else. -/
theorem fetch_not_transparent :
    FetchDiffers counting [] 2#32 ∧ FetchDiffers zeroed wrappedMaster 0#32
      ∧ FetchDiffers l2Only parkedZeros 0#32 := by
  refine ⟨⟨⟨⟨fun _ _ => rfl, fun _ => rfl, rfl⟩, fun _ => rfl⟩, ?_, ?_⟩,
    ⟨zeroed_reset, ?_, ?_⟩, ⟨⟨⟨fun _ _ => rfl, fun _ => rfl, rfl⟩, fun _ => rfl⟩, ?_, ?_⟩⟩
  · intro hhit
    exact absurd hhit.1 (by decide)
  · decide
  · exact xlateFixed_real (by decide) (by decide +kernel)
  · decide
  · exact xlateFixed_real (by decide) (by decide +kernel)
  · decide

end Cpu

end OpenPowerMac
