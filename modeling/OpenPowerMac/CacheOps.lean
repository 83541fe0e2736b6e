/-
The cache operations against the view.

`CacheOk` is the invariant of the memory system: the shape of the two arrays,
and coherence of the levels they stand for. An operation is `Quiet` when it
keeps the invariant and the view, and `Stores` a line at a block when the view
changes there and nowhere else. Every operation of the processor and every
snoop is one or the other, block by block; at the level of bytes a read is then
a load, and a write a store, of one flat memory.
-/
import OpenPowerMac.CacheMoves

set_option autoImplicit false

namespace OpenPowerMac

open Hierarchy

namespace Cpu

/-- The invariant of the caches. -/
structure CacheOk (c : Cpu PlainBus) : Prop where
  shape : Shape c
  coherent : c.levels.Coherent

/-- Invisible to every read. -/
structure Quiet (c c' : Cpu PlainBus) : Prop where
  core : SameCore c c'
  fetch : FetchLess c c'
  ok : CacheOk c'
  view : c'.levels.view = c.levels.view

/-- Visible at one block, as that line. -/
structure Stores (c c' : Cpu PlainBus) (k : BitVec 27) (l : Line) : Prop where
  core : SameCore c c'
  fetch : FetchLess c c'
  ok : CacheOk c'
  view : c'.levels.view = Function.update c.levels.view k l

variable {c : Cpu PlainBus}

theorem Quiet.refl (h : CacheOk c) : Quiet c c := ⟨SameCore.refl c, FetchLess.refl c, h, rfl⟩

theorem Quiet.trans {c₁ c₂ c₃ : Cpu PlainBus} (h₁₂ : Quiet c₁ c₂) (h₂₃ : Quiet c₂ c₃) :
    Quiet c₁ c₃ :=
  ⟨h₁₂.core.trans h₂₃.core, h₁₂.fetch.trans h₂₃.fetch, h₂₃.ok, h₂₃.view.trans h₁₂.view⟩

theorem Quiet.stores {c₁ c₂ c₃ : Cpu PlainBus} {k : BitVec 27} {l : Line} (h₁₂ : Quiet c₁ c₂)
    (h₂₃ : Stores c₂ c₃ k l) : Stores c₁ c₃ k l :=
  ⟨h₁₂.core.trans h₂₃.core, h₁₂.fetch.trans h₂₃.fetch, h₂₃.ok, by rw [h₂₃.view, h₁₂.view]⟩

/-- A movement of the levels is invisible. -/
theorem Turns.quiet {c' : Cpu PlainBus} {h : Levels (BitVec 27) Line} (hok : CacheOk c)
    (ht : Turns c c' h) (hm : Levels.Moves c.levels h) : Quiet c c' := by
  obtain ⟨hcoh, hview⟩ := hm hok.coherent
  rw [← ht.levels] at hcoh hview
  exact ⟨ht.core, ht.fetch, ⟨ht.shape, hcoh⟩, hview⟩

theorem Turns.quiet_same {c' : Cpu PlainBus} (hok : CacheOk c) (ht : Turns c c' c.levels) :
    Quiet c c' := ht.quiet hok (Levels.Moves.refl _)

/-- Data moved between the levels, in a state of which only the shape is known; `may` names the
blocks that may be brought in. -/
structure Shifts (may : BitVec 27 → Prop) (c c' : Cpu PlainBus) : Prop where
  core : SameCore c c'
  fetch : FetchLess c c'
  shape : Shape c'
  flows : Levels.Flows may c.levels c'.levels

variable {may : BitVec 27 → Prop}

theorem Shifts.refl (h : Shape c) : Shifts may c c :=
  ⟨SameCore.refl c, FetchLess.refl c, h, Relation.ReflTransGen.refl⟩

theorem Shifts.trans {c₁ c₂ c₃ : Cpu PlainBus} (h₁₂ : Shifts may c₁ c₂)
    (h₂₃ : Shifts may c₂ c₃) : Shifts may c₁ c₃ :=
  ⟨h₁₂.core.trans h₂₃.core, h₁₂.fetch.trans h₂₃.fetch, h₂₃.shape, h₁₂.flows.trans h₂₃.flows⟩

theorem Shifts.mono {may' : BitVec 27 → Prop} (hsub : ∀ k, may k → may' k) {c' : Cpu PlainBus}
    (h : Shifts may c c') : Shifts may' c c' :=
  ⟨h.core, h.fetch, h.shape, h.flows.mono hsub⟩

/-- What evicts only may happen under any leave to fill. -/
theorem Shifts.evicting {c' : Cpu PlainBus} (h : Shifts (fun _ => False) c c') :
    Shifts may c c' := h.mono fun _ hk => hk.elim

/-- Between coherent levels no read can tell. -/
theorem Shifts.quiet {c' : Cpu PlainBus} (hok : CacheOk c) (h : Shifts may c c') : Quiet c c' := by
  obtain ⟨hcoh, hview⟩ := h.flows.moves hok.coherent
  exact ⟨h.core, h.fetch, ⟨h.shape, hcoh⟩, hview⟩

theorem Turns.shifts {c' : Cpu PlainBus} {h : Levels (BitVec 27) Line} (ht : Turns c c' h)
    (hf : Levels.Flows may c.levels h) : Shifts may c c' :=
  ⟨ht.core, ht.fetch, ht.shape, by rw [ht.levels]; exact hf⟩

theorem Turns.shifts_same {c' : Cpu PlainBus} (ht : Turns c c' c.levels) : Shifts may c c' :=
  ht.shifts Relation.ReflTransGen.refl

theorem Turns.stores {c' : Cpu PlainBus} {k : BitVec 27} {l : Line} (hok : CacheOk c)
    (ht : Turns c c' (c.levels.setNear k (some (l, true)))) : Stores c c' k l := by
  obtain ⟨hcoh, hview⟩ := Levels.store_coherent hok.coherent k l
  rw [← ht.levels] at hcoh hview
  exact ⟨ht.core, ht.fetch, ⟨ht.shape, hcoh⟩, hview⟩

/-- What a live way holds is what a read of its block finds. -/
theorem view_of_entry (hs : Shape c) {p : BitVec 7 × Fin 8} {k : BitVec 27} {e : Line × Bool}
    (h : c.l1Entry p = some (k, e)) : c.levels.view k = e.1 :=
  Levels.view_of_near (near_of_entry hs h)

/-! ## The way an access works on -/

theorem invalidWay_some {s : BitVec 7} {w : Fin 8} (h : invalidWay (c.l1x s) = some w) :
    c.l1Entry (s, w) = none := by
  have hv : (c.l1x s).tv w &&& 1#32 = 0#32 := by simpa using List.find?_some h
  unfold l1Entry wayEntry
  exact if_neg (fun hne => hne hv)

theorem invalidWay_none {s : BitVec 7} (h : invalidWay (c.l1x s) = none) (w : Fin 8) :
    ∃ k e, c.l1Entry (s, w) = some (k, e) := by
  have hv := List.find?_eq_none.mp h w (List.mem_finRange w)
  unfold l1Entry wayEntry
  exact ⟨_, _, if_pos (by simpa using hv)⟩

theorem lineVictim_of_invalid {pa : U32} {w : Fin 8} (h : invalidWay (c.l1x (setOf pa)) = some w) :
    c.lineVictim pa = (w, c) := by
  unfold lineVictim
  simp only [h]

theorem lineVictim_of_full {pa : U32} {w : Fin 8} (h : invalidWay (c.l1x (setOf pa)) = none)
    (hw : oldestWay (c.l1x (setOf pa)) = w) :
    c.lineVictim pa
      = (w, (if (c.l1d (setOf pa) w).d
          then c.lineCastout (setOf pa) w ((c.l1x (setOf pa)).tv w >>> 1) else c).setTv
            (setOf pa) w 0#32) := by
  unfold lineVictim
  simp only [h, hw]

/-- **The victim** is an empty way of the set, and emptying it only moves data down. -/
theorem lineVictim_spec (hs : Shape c) (pa : U32) :
    Shifts (fun _ => False) c (c.lineVictim pa).2
      ∧ (c.lineVictim pa).2.l1Entry (setOf pa, (c.lineVictim pa).1) = none
      ∧ (c.levels.near (blkOf pa) = none → (c.lineVictim pa).2.levels.near (blkOf pa) = none) := by
  cases hway : invalidWay (c.l1x (setOf pa)) with
  | some w =>
      rw [lineVictim_of_invalid hway]
      exact ⟨Shifts.refl hs, invalidWay_some hway, fun h => h⟩
  | none =>
      obtain ⟨w, hw⟩ : ∃ w, oldestWay (c.l1x (setOf pa)) = w := ⟨_, rfl⟩
      rw [lineVictim_of_full hway hw]
      obtain ⟨k, e, hentry⟩ := invalidWay_none hway w
      have hline := (line_of_entry hentry).2
      have hempty : ∀ c' : Cpu PlainBus,
          (c'.setTv (setOf pa) w 0#32).l1Entry (setOf pa, w) = none := by
        intro c'
        rw [l1Entry_setTv, wayEntry_zero, Function.update_self]
      -- castout first when the block is modified, then the way is emptied
      have hclean : ∃ c₁ h', (if (c.l1d (setOf pa) w).d
            then c.lineCastout (setOf pa) w ((c.l1x (setOf pa)).tv w >>> 1) else c) = c₁
          ∧ Turns c c₁ h' ∧ Levels.Flows (fun _ => False) c.levels h'
          ∧ h'.near = Function.update c.levels.near k (some (e.1, false))
          ∧ c₁.l1Entry (setOf pa, w) = some (k, (e.1, false)) := by
        cases hd : (c.l1d (setOf pa) w).d with
        | true =>
            obtain ⟨h', hflows, hturn, hnear, hent⟩ := lineCastout_spec hs hentry
            refine ⟨_, h', if_pos rfl, hturn, hflows, hnear, ?_⟩
            rw [hent, Function.update_self]
        | false =>
            have he : e = (e.1, false) := by rw [← hd, hline]
            rw [he] at hentry
            refine ⟨c, c.levels, if_neg (by simp), Turns.refl hs, Relation.ReflTransGen.refl, ?_,
              hentry⟩
            rw [← near_of_entry hs hentry, Function.update_eq_self]
      obtain ⟨c₁, h', hc₁, hturn, hflows, hnear, hent⟩ := hclean
      rw [hc₁]
      have hclear := turns_clearWay hturn.shape hent
      rw [hturn.levels] at hclear
      have hnot : ∀ v, h'.near k ≠ some (v, true) := by
        intro v
        rw [hnear, Function.update_self]
        simp
      refine ⟨(hturn.trans hclear).shifts (hflows.tail (Levels.Flow.dropNear h' k hnot)),
        hempty c₁, ?_⟩
      intro hnone
      rw [hclear.levels]
      show Function.update h'.near k none (blkOf pa) = none
      by_cases hk : blkOf pa = k
      · rw [hk, Function.update_self]
      · rw [Function.update_of_ne hk, hnear, Function.update_of_ne hk]
        exact hnone

/-- A fill's bytes come from the far copy, else from memory with a clean copy left behind. -/
theorem lineFill_bytes (hs : Shape c) (pa : U32) (w : Fin 8) :
    ∃ c₁ h, c.lineFill (setOf pa) w pa
        = (c₁.setTv (setOf pa) w (tvOf pa)).setDLine (setOf pa) w
            { b := c.levels.below (blkOf pa), d := false }
      ∧ Turns c c₁ h ∧ SameL1 c c₁ ∧ Levels.Flows (fun k => k = blkOf pa) c.levels h
      ∧ h.near = c.levels.near ∧ h.below (blkOf pa) = c.levels.below (blkOf pa) := by
  unfold lineFill l2ReadLine
  rw [blockBase_eq]
  obtain ⟨hturn, hsame, hsome, hnone⟩ := l2Find_spec hs (blkAddr (blkOf pa))
  rw [blkOf_blkAddr] at hsome hnone
  obtain ⟨r, hr⟩ : ∃ r, c.l2Find (blkAddr (blkOf pa)) = r := ⟨_, rfl⟩
  obtain ⟨hit, c₁⟩ := r
  rw [hr] at hturn hsame hsome hnone
  simp only [hr]
  cases hit with
  | some i =>
      have hentry := hsome i rfl
      have hfar := far_of_entry hturn.shape hentry
      rw [hturn.levels] at hfar
      refine ⟨c₁, c.levels, ?_, hturn, hsame, Relation.ReflTransGen.refl, rfl, rfl⟩
      rw [Levels.below_of_far hfar]
      rfl
  | none =>
      have hfar := hnone rfl
      have hmem : c.levels.below (blkOf pa) = memLine c₁.bus (blkOf pa) := by
        rw [Levels.below_of_none hfar, ← hturn.levels]
        rfl
      have hread : Bus.readLine32 c₁.bus (blkAddr (blkOf pa))
          = (c.levels.below (blkOf pa), c₁.bus) := by
        rw [hmem, ← loadLine_eq]
        rfl
      have hbus : c₁.setBus c₁.bus = c₁ := rfl
      simp only [Option.map_none, hread, hbus]
      have hmem₁ : c₁.levels.mem (blkOf pa) = c.levels.below (blkOf pa) := hmem.symm
      -- from memory: a clean copy stays behind only in an L2 that is on and takes lines
      cases hon : c₁.l2On with
      | false =>
          exact ⟨c₁, c.levels, rfl, hturn, hsame, Relation.ReflTransGen.refl, rfl, rfl⟩
      | true =>
          cases hinert : c₁.l2Inert with
          | true =>
              rw [l2Install_unusable _ _ (Or.inr hinert)]
              exact ⟨c₁, c.levels, rfl, hturn, hsame, Relation.ReflTransGen.refl, rfl, rfl⟩
          | false =>
              obtain ⟨h₁, hoff, hinst, hsame₂⟩ := l2Install_spec hturn.shape hon hinert
                (blkOf pa) (c.levels.below (blkOf pa)) false
              rw [hturn.levels] at hoff hinst
              rw [hfar, Option.any_none, Bool.or_false] at hinst
              have hfill : Levels.Flow (fun k => k = blkOf pa) h₁ _ :=
                Levels.Flow.fillFar h₁ (blkOf pa) rfl (by rw [hoff.far]; exact hfar)
              have hmem₂ : h₁.mem (blkOf pa) = c.levels.below (blkOf pa) := by
                rw [hoff.mem, ← hmem₁, hturn.levels]
              rw [hmem₂] at hfill
              refine ⟨_, _, rfl, hturn.trans hinst, hsame.trans hsame₂,
                (hoff.flows.mono fun _ hk => hk.elim).tail hfill, hoff.near, ?_⟩
              have hset : (h₁.setFar (blkOf pa) (some (c.levels.below (blkOf pa), false))).far
                  (blkOf pa) = some (c.levels.below (blkOf pa), false) :=
                Function.update_self _ _ _
              rw [Levels.below_of_far hset]

/-- **A fill** brings the block in as it lies below. -/
theorem lineFill_spec (hs : Shape c) {pa : U32} {w : Fin 8}
    (hempty : c.l1Entry (setOf pa, w) = none) (hnear : c.levels.near (blkOf pa) = none) :
    Shifts (fun k => k = blkOf pa) c (c.lineFill (setOf pa) w pa)
      ∧ (c.lineFill (setOf pa) w pa).l1Entry (setOf pa, w)
          = some (blkOf pa, (c.levels.below (blkOf pa), false)) := by
  obtain ⟨c₁, h, heq, hturn, hsame, hflows, hnear₁, hbelow⟩ := lineFill_bytes hs pa w
  have hempty₁ : c₁.l1Entry (setOf pa, w) = none := by rw [hsame.l1Entry]; exact hempty
  have hnone₁ : c₁.levels.near (blkOf pa) = none := by rw [hturn.levels, hnear₁]; exact hnear
  have hname := turns_nameWay hturn.shape hempty₁ hnone₁
  have hentry₁ : (c₁.setTv (setOf pa) w (tvOf pa)).l1Entry (setOf pa, w)
      = some (blkOf pa, ((c₁.l1d (setOf pa) w).b, (c₁.l1d (setOf pa) w).d)) := by
    rw [l1Entry_setTv, wayEntry_tvOf, Function.update_self]
  have hset := turns_setDLine hname.shape hentry₁
    { b := c.levels.below (blkOf pa), d := false }
  rw [heq]
  refine ⟨((hturn.trans hname).trans hset).shifts ?_, ?_⟩
  · have hlev : (c₁.setTv (setOf pa) w (tvOf pa)).levels.setNear (blkOf pa)
        (some (c.levels.below (blkOf pa), false))
        = h.setNear (blkOf pa) (some (h.below (blkOf pa), false)) := by
      rw [hname.levels, hturn.levels, hbelow]
      simp only [Levels.setNear, Function.update_idem]
    rw [hlev]
    exact hflows.tail (Levels.Flow.fillNear h (blkOf pa) rfl (by rw [hnear₁]; exact hnear))
  · rw [l1Entry_setDLine, wayEntry_of_entry hentry₁, Function.update_self]

theorem lineWay_of_some {pa : U32} {w : Fin 8} (h : c.lineWayQuiet pa = some w) :
    c.lineWay pa = (some w, c.touchWay (setOf pa) w) := by
  unfold lineWay
  simp only [h]

theorem lineWay_of_none {pa : U32} (h : c.lineWayQuiet pa = none) : c.lineWay pa = (none, c) := by
  unfold lineWay
  simp only [h]

theorem lineWay_spec (hs : Shape c) (pa : U32) :
    Turns c (c.lineWay pa).2 c.levels
      ∧ (∀ w, (c.lineWay pa).1 = some w →
          ∃ d, (c.lineWay pa).2.l1Entry (setOf pa, w)
            = some (blkOf pa, (c.levels.view (blkOf pa), d)))
      ∧ ((c.lineWay pa).1 = none → (c.lineWay pa).2.levels.near (blkOf pa) = none) := by
  cases hway : c.lineWayQuiet pa with
  | none =>
      rw [lineWay_of_none hway]
      refine ⟨Turns.refl hs, ?_, fun _ => lineWayQuiet_none hs hway⟩
      intro w hw
      exact absurd hw (by simp)
  | some w =>
      rw [lineWay_of_some hway]
      have hturn := turns_touchWay hs (setOf pa) w
      have hentry := lineWayQuiet_some hs hway
      refine ⟨hturn, ?_, ?_⟩
      · intro w' hw'
        have hww : w = w' := by simpa using hw'
        subst hww
        refine ⟨(c.l1d (setOf pa) w).d, ?_⟩
        rw [l1Entry_touchWay, hentry, view_of_entry hs hentry]
      · intro hnone
        exact absurd hnone (by simp)

/-- **The way an access works on** holds the block. -/
theorem lineAlloc_shifts (hs : Shape c) (pa : U32) :
    ∃ w c' e, (c.lineWay pa).2.lineAlloc pa (c.lineWay pa).1 = (w, c')
      ∧ Shifts (fun k => k = blkOf pa) c c' ∧ c'.l1Entry (setOf pa, w) = some (blkOf pa, e) := by
  obtain ⟨hturn, hsome, hnone⟩ := lineWay_spec hs pa
  have htouch : Shifts (fun k => k = blkOf pa) c (c.lineWay pa).2 := hturn.shifts_same
  obtain ⟨r, hr⟩ : ∃ r, c.lineWay pa = r := ⟨_, rfl⟩
  obtain ⟨way, c₁⟩ := r
  rw [hr] at htouch hsome hnone ⊢
  cases way with
  | some w =>
      obtain ⟨d, hentry⟩ := hsome w rfl
      exact ⟨w, c₁, _, rfl, htouch, hentry⟩
  | none =>
      obtain ⟨hvict, hempty, hkeep⟩ := lineVictim_spec htouch.shape pa
      obtain ⟨v, hv⟩ : ∃ v, c₁.lineVictim pa = v := ⟨_, rfl⟩
      obtain ⟨w, c₂⟩ := v
      rw [hv] at hvict hempty hkeep
      obtain ⟨hfill, hentry⟩ := lineFill_spec hvict.shape hempty (hkeep (hnone rfl))
      have hage := turns_touchWay hfill.shape (setOf pa) w
      refine ⟨w, (c₂.lineFill (setOf pa) w pa).touchWay (setOf pa) w,
        (c₂.levels.below (blkOf pa), false), ?_,
        ((htouch.trans hvict.evicting).trans hfill).trans hage.shifts_same, ?_⟩
      · unfold lineAlloc
        simp only [hv]
      · rw [l1Entry_touchWay, hentry]

/-! ## Reads and writes -/

/-- The flat memory the caches stand for: the view, byte by byte. -/
noncomputable def flat (c : Cpu PlainBus) : U32 → U8 := flatOf c.levels.view

theorem Quiet.flat {c' : Cpu PlainBus} (h : Quiet c c') : c'.flat = c.flat := by
  unfold Cpu.flat
  rw [h.view]

/-- A read inside one block answers what every read finds once the block is there. -/
theorem memReadBlock_shifts (hs : Shape c) {pa : U32} {len : ℕ}
    (hin : (blockOff pa).toNat + len ≤ 32) :
    Shifts (fun k => k = blkOf pa) c (c.memReadBlock pa len).2
      ∧ (c.memReadBlock pa len).1 = loadBytes (c.memReadBlock pa len).2.flat pa len := by
  obtain ⟨w, c', e, heq, hshifts, hentry⟩ := lineAlloc_shifts hs pa
  have hread : c.memReadBlock pa len
      = (lineLoadBE (c'.l1d (setOf pa) w).b (blockOff pa) len, c') := by
    unfold memReadBlock
    simp only [heq]
  rw [hread]
  refine ⟨hshifts, ?_⟩
  rw [(line_of_entry hentry).1, ← view_of_entry hshifts.shape hentry]
  exact lineLoadBE_eq c'.levels.view hin

theorem memReadBlock_spec (hok : CacheOk c) {pa : U32} {len : ℕ}
    (hin : (blockOff pa).toNat + len ≤ 32) :
    Quiet c (c.memReadBlock pa len).2 ∧ (c.memReadBlock pa len).1 = loadBytes c.flat pa len := by
  obtain ⟨hshifts, hval⟩ := memReadBlock_shifts hok.shape hin
  have hquiet := hshifts.quiet hok
  exact ⟨hquiet, by rw [hval, hquiet.flat]⟩

/-- Write-back: the merged line is in the L1, modified. -/
theorem memWriteBlock_shifts (hs : Shape c) (pa : U32) (len : ℕ) (v : U64) {wimg : U32}
    (hwimg : wimg &&& kWimgW = 0#32) :
    ∃ c₁, Shifts (fun k => k = blkOf pa) c c₁
      ∧ Turns c₁ (c.memWriteBlock pa len v wimg) (c₁.levels.setNear (blkOf pa)
          (some (lineStoreBE (c₁.levels.view (blkOf pa)) (blockOff pa) len v, true))) := by
  obtain ⟨w, c', e, heq, hshifts, hentry⟩ := lineAlloc_shifts hs pa
  have hwrite : c.memWriteBlock pa len v wimg
      = c'.setDLine (setOf pa) w
          { b := lineStoreBE (c'.l1d (setOf pa) w).b (blockOff pa) len v, d := true } := by
    unfold memWriteBlock
    simp only [hwimg, ne_eq, not_true_eq_false, if_false, heq]
  rw [hwrite, (line_of_entry hentry).1, ← view_of_entry hshifts.shape hentry]
  exact ⟨c', hshifts, turns_setDLine hshifts.shape hentry _⟩

theorem memWriteBlock_spec (hok : CacheOk c) (pa : U32) (len : ℕ) (v : U64) {wimg : U32}
    (hwimg : wimg &&& kWimgW = 0#32) :
    Stores c (c.memWriteBlock pa len v wimg) (blkOf pa)
      (lineStoreBE (c.levels.view (blkOf pa)) (blockOff pa) len v) := by
  obtain ⟨c₁, hshifts, hturn⟩ := memWriteBlock_shifts hok.shape pa len v hwimg
  have hquiet := hshifts.quiet hok
  rw [hquiet.view] at hturn
  exact hquiet.stores (hturn.stores hquiet.ok)

theorem Stores.flat {c' : Cpu PlainBus} {pa : U32} {len : ℕ} {v : U64}
    (h : Stores c c' (blkOf pa) (lineStoreBE (c.levels.view (blkOf pa)) (blockOff pa) len v))
    (hin : (blockOff pa).toNat + len ≤ 32) : c'.flat = storeBytes c.flat pa len v := by
  unfold Cpu.flat
  rw [h.view]
  exact lineStoreBE_eq c.levels.view v hin

/-- A cached access: HID0[DCE] set, and neither write-through nor inhibited. -/
structure Cached (c : Cpu PlainBus) (wimg : U32) : Prop where
  dce : c.dceOn = true
  w : wimg &&& kWimgW = 0#32
  i : wimg &&& kWimgI = 0#32

theorem Cached.not_bypasses {wimg : U32} (h : Cached c wimg) : c.bypasses wimg = false := by
  unfold bypasses
  rw [h.dce, h.i]
  rfl

theorem blockOff_lt (pa : U32) : (blockOff pa).toNat + 1 ≤ 32 := (blockOff pa).isLt

/-- Assembling a value byte by byte is one load. -/
theorem loadBytes_one (m : U32 → U8) (pa : U32) : loadBytes m pa 1 = (m pa).setWidth 64 := by
  simp [loadBytes, ofBytesBE]

/-- One byte more of a value assembled from the flat memory. -/
def loadByteStep (m : U32 → U8) (pa : U32) (v : U64) (i : ℕ) : U64 :=
  (v <<< 8) ||| loadBytes m (pa + BitVec.ofNat 32 i) 1

theorem loadBytes_foldl (m : U32 → U8) (pa : U32) (n : ℕ) :
    (List.range n).foldl (loadByteStep m pa) 0#64 = loadBytes m pa n := by
  have hstep : loadByteStep m pa
      = fun (v : U64) i => (v <<< 8) ||| (m (pa + BitVec.ofNat 32 i)).setWidth 64 := by
    funext v i
    rw [loadByteStep, loadBytes_one]
  rw [hstep, loadBytes, ofBytesBE, List.foldl_map]

/-- The split read: each byte is a read, and none of them moves the view. -/
theorem memRead_split (pa : U32) (l : List ℕ) : ∀ (c : Cpu PlainBus) (v : U64), CacheOk c →
    Quiet c (l.foldl (memReadByte pa) (v, c)).2
    ∧ (l.foldl (memReadByte pa) (v, c)).1 = l.foldl (loadByteStep c.flat pa) v := by
  induction l with
  | nil => exact fun c v hok => ⟨Quiet.refl hok, rfl⟩
  | cons i l ih =>
      intro c v hok
      obtain ⟨hquiet, hval⟩ := memReadBlock_spec hok (blockOff_lt (pa + BitVec.ofNat 32 i))
      obtain ⟨hrest, hfold⟩ := ih (c.memReadBlock (pa + BitVec.ofNat 32 i) 1).2
        ((v <<< 8) ||| (c.memReadBlock (pa + BitVec.ofNat 32 i) 1).1) hquiet.ok
      refine ⟨hquiet.trans hrest, ?_⟩
      rw [hquiet.flat] at hfold
      rw [List.foldl_cons, List.foldl_cons, memReadByte, hfold, loadByteStep, hval]

/-- **A cached read is a load of the flat memory**, and moves nothing in it. -/
theorem memRead_spec (hok : CacheOk c) (pa : U32) (len : ℕ) {wimg : U32} (h : Cached c wimg) :
    Quiet c (c.memRead pa len wimg).2 ∧ (c.memRead pa len wimg).1 = loadBytes c.flat pa len := by
  unfold memRead
  rw [if_neg (by rw [h.not_bypasses]; simp)]
  by_cases hcross : crosses pa len = true
  · rw [if_pos hcross]
    obtain ⟨hquiet, hval⟩ := memRead_split pa (List.range len) c 0#64 hok
    exact ⟨hquiet, by rw [hval, loadBytes_foldl]⟩
  · rw [if_neg hcross]
    have hin : (blockOff pa).toNat + len ≤ 32 := by
      unfold crosses at hcross
      rw [decide_eq_true_iff] at hcross
      omega
    exact memReadBlock_spec hok hin

theorem turns_fetchDropRange (hs : Shape c) (pa : U32) (len : ℕ) :
    Turns c (c.fetchDropRange pa len) c.levels := by
  have hfirst := turns_fetchDropAt hs pa
  unfold fetchDropRange
  simp only
  split
  · have hlast := turns_fetchDropAt hfirst.shape (pa + BitVec.ofNat 32 len - 1#32)
    rw [hfirst.levels] at hlast
    exact hfirst.trans hlast
  · exact hfirst

/-- The outcome of a write: the invariant holds and the flat memory is `m`. -/
structure Writes (c c' : Cpu PlainBus) (m : U32 → U8) : Prop where
  core : SameCore c c'
  fetch : FetchLess c c'
  ok : CacheOk c'
  flat : c'.flat = m

theorem Quiet.writes {c' : Cpu PlainBus} (h : Quiet c c') : Writes c c' c.flat :=
  ⟨h.core, h.fetch, h.ok, h.flat⟩

theorem Writes.trans {c₁ c₂ c₃ : Cpu PlainBus} {m₂ m₃ : U32 → U8} (h₁₂ : Writes c₁ c₂ m₂)
    (h₂₃ : Writes c₂ c₃ m₃) : Writes c₁ c₃ m₃ :=
  ⟨h₁₂.core.trans h₂₃.core, h₁₂.fetch.trans h₂₃.fetch, h₂₃.ok, h₂₃.flat⟩

theorem Stores.writes {c' : Cpu PlainBus} {pa : U32} {len : ℕ} {v : U64}
    (h : Stores c c' (blkOf pa) (lineStoreBE (c.levels.view (blkOf pa)) (blockOff pa) len v))
    (hin : (blockOff pa).toNat + len ≤ 32) : Writes c c' (storeBytes c.flat pa len v) :=
  ⟨h.core, h.fetch, h.ok, h.flat hin⟩

theorem storeBytes_one (m : U32 → U8) (pa : U32) (b : U8) :
    storeBytes m pa 1 (b.setWidth 64) = Function.update m pa b := by
  have hbyte : byteBE 1 0 (b.setWidth 64) = b := by
    unfold byteBE
    apply BitVec.eq_of_toNat_eq
    have := b.isLt
    simp
  simp [storeBytes, hbyte]

theorem memWrite_split (pa : U32) (len : ℕ) (v : U64) {wimg : U32}
    (hwimg : wimg &&& kWimgW = 0#32) (l : List ℕ) : ∀ c : Cpu PlainBus, CacheOk c →
    Writes c (l.foldl (memWriteByte pa len v wimg) c)
      (l.foldl (fun m i => Function.update m (pa + BitVec.ofNat 32 i) (byteBE len i v))
        c.flat) := by
  induction l with
  | nil => exact fun c hok => (Quiet.refl hok).writes
  | cons i l ih =>
      intro c hok
      have hdrop := (turns_fetchDropRange hok.shape (pa + BitVec.ofNat 32 i) 1).quiet_same hok
      have hstore := memWriteBlock_spec hdrop.ok (pa + BitVec.ofNat 32 i) 1
        ((byteBE len i v).setWidth 64) hwimg
      have hbyte := hdrop.writes.trans (hstore.writes (blockOff_lt _))
      rw [hdrop.flat, storeBytes_one] at hbyte
      have hrest := ih _ hbyte.ok
      rw [hbyte.flat] at hrest
      exact hbyte.trans hrest

/-- **A cached write is a store of the flat memory.** -/
theorem memWrite_spec (hok : CacheOk c) (pa : U32) (len : ℕ) (v : U64) {wimg : U32}
    (h : Cached c wimg) : Writes c (c.memWrite pa len v wimg) (storeBytes c.flat pa len v) := by
  have hdrop := (turns_fetchDropRange hok.shape pa len).quiet_same hok
  have hbypass : (c.fetchDropRange pa len).bypasses wimg = false := by
    unfold bypasses
    rw [hdrop.core.dceOn, h.dce, h.i]
    rfl
  unfold memWrite
  simp only [hbypass, Bool.false_eq_true, if_false]
  by_cases hcross : crosses pa len = true
  · rw [if_pos hcross]
    have hsplit := memWrite_split pa len v h.w (List.range len) _ hdrop.ok
    rw [hdrop.flat] at hsplit
    exact hdrop.writes.trans hsplit
  · rw [if_neg hcross]
    have hin : (blockOff pa).toNat + len ≤ 32 := by
      unfold crosses at hcross
      rw [decide_eq_true_iff] at hcross
      omega
    have hstore := (memWriteBlock_spec hdrop.ok pa len v h.w).writes hin
    rw [hdrop.flat] at hstore
    exact hdrop.writes.trans hstore

/-! ## Block operations -/

/-- **`dcbz`** evicts at most, and then the block is a modified line of zeros. -/
theorem dcbzLine_shifts (hs : Shape c) (pa : U32) :
    ∃ c₁, Shifts (fun _ => False) c c₁
      ∧ Turns c₁ (c.dcbzLine pa) (c₁.levels.setNear (blkOf pa) (some (fun _ => 0#8, true))) := by
  have hdrop := turns_fetchDropAt hs pa
  obtain ⟨c₀, hc₀⟩ : ∃ c₀, c.fetchDropAt pa = c₀ := ⟨_, rfl⟩
  rw [hc₀] at hdrop
  obtain ⟨hturn, hsome, hnone⟩ := lineWay_spec hdrop.shape pa
  obtain ⟨r, hr⟩ : ∃ r, c₀.lineWay pa = r := ⟨_, rfl⟩
  obtain ⟨way, c₁⟩ := r
  rw [hr] at hturn hsome hnone
  have hfirst : Shifts (fun _ => False) c c₁ := hdrop.shifts_same.trans hturn.shifts_same
  unfold dcbzLine
  simp only [hc₀, hr]
  cases way with
  | some w =>
      obtain ⟨d, hentry⟩ := hsome w rfl
      exact ⟨c₁, hfirst, turns_setDLine hfirst.shape hentry _⟩
  | none =>
      obtain ⟨hvict, hempty, hkeep⟩ := lineVictim_spec hfirst.shape pa
      obtain ⟨v, hv⟩ : ∃ v, c₁.lineVictim pa = v := ⟨_, rfl⟩
      obtain ⟨w, c₂⟩ := v
      rw [hv] at hvict hempty hkeep
      simp only [hv]
      have hnear := hkeep (hnone rfl)
      have hname := turns_nameWay hvict.shape hempty hnear
      have htouch := turns_touchWay hname.shape (setOf pa) w
      have hentry : ((c₂.setTv (setOf pa) w (tvOf pa)).touchWay (setOf pa) w).l1Entry (setOf pa, w)
          = some (blkOf pa, ((c₂.l1d (setOf pa) w).b, (c₂.l1d (setOf pa) w).d)) := by
        rw [l1Entry_touchWay, l1Entry_setTv, wayEntry_tvOf, Function.update_self]
      have hset := turns_setDLine htouch.shape hentry { b := fun _ => 0#8, d := true }
      -- the way's old bytes are named for a moment, and overwritten
      have hlev : ((c₂.setTv (setOf pa) w (tvOf pa)).touchWay (setOf pa) w).levels.setNear
          (blkOf pa) (some (fun _ => 0#8, true))
          = c₂.levels.setNear (blkOf pa) (some (fun _ => 0#8, true)) := by
        rw [htouch.levels, hname.levels]
        simp only [Levels.setNear, Function.update_idem]
      exact ⟨c₂, hfirst.trans hvict, ((hname.trans htouch).trans hset).congr hlev⟩

/-- It stores a line of zeros, whatever the way it lands in held. -/
theorem dcbzLine_spec (hok : CacheOk c) (pa : U32) :
    Stores c (c.dcbzLine pa) (blkOf pa) (fun _ => 0#8) := by
  obtain ⟨c₁, hshifts, hturn⟩ := dcbzLine_shifts hok.shape pa
  have hquiet := hshifts.quiet hok
  exact hquiet.stores (hturn.stores hquiet.ok)

/-- A clean way may be emptied. -/
theorem shifts_clearWay (hs : Shape c) {s : BitVec 7} {w : Fin 8} {k : BitVec 27} {b : Line}
    (hentry : c.l1Entry (s, w) = some (k, (b, false))) : Shifts may c (c.setTv s w 0#32) := by
  refine (turns_clearWay hs hentry).shifts
    (Relation.ReflTransGen.single (Levels.Flow.dropNear _ k ?_))
  intro v
  rw [near_of_entry hs hentry]
  simp

theorem quiet_clearWay (hok : CacheOk c) {s : BitVec 7} {w : Fin 8} {k : BitVec 27} {b : Line}
    (hentry : c.l1Entry (s, w) = some (k, (b, false))) : Quiet c (c.setTv s w 0#32) := by
  have hshifts : Shifts (fun _ => False) c _ := shifts_clearWay hok.shape hentry
  exact hshifts.quiet hok

/-- **`dcbst` and `dcbf`** only move data down. -/
theorem dcbClean_shifts (hs : Shape c) (pa : U32) (invalidate : Bool) :
    Shifts (fun _ => False) c (c.dcbClean pa invalidate) := by
  have hdrop := turns_fetchDropAt hs pa
  obtain ⟨c₀, hc₀⟩ : ∃ c₀, c.fetchDropAt pa = c₀ := ⟨_, rfl⟩
  rw [hc₀] at hdrop
  obtain ⟨hturn, hsome, -⟩ := lineWay_spec hdrop.shape pa
  obtain ⟨r, hr⟩ : ∃ r, c₀.lineWay pa = r := ⟨_, rfl⟩
  obtain ⟨way, c₁⟩ := r
  rw [hr] at hturn hsome
  have hfirst : Shifts (fun _ => False) c c₁ := hdrop.shifts_same.trans hturn.shifts_same
  unfold dcbClean
  simp only [hc₀, hr]
  cases way with
  | none => exact hfirst
  | some w =>
      obtain ⟨d, hentry⟩ := hsome w rfl
      have hline := (line_of_entry hentry).2
      have hpush : ∃ c₂ b, (if (c₁.l1d (setOf pa) w).d
            then c₁.linePush (setOf pa) w ((c₁.l1x (setOf pa)).tv w >>> 1) else c₁) = c₂
          ∧ Shifts (fun _ => False) c₁ c₂
          ∧ c₂.l1Entry (setOf pa, w) = some (blkOf pa, (b, false)) := by
        cases d with
        | true =>
            obtain ⟨h', hflows, hturn', -, hent⟩ := linePush_spec hfirst.shape hentry
            exact ⟨_, _, if_pos hline, hturn'.shifts hflows, by rw [hent, Function.update_self]⟩
        | false =>
            exact ⟨c₁, _, if_neg (by rw [hline]; simp), Shifts.refl hfirst.shape, hentry⟩
      obtain ⟨c₂, b, hc₂, hmoved, hent⟩ := hpush
      simp only [hc₂]
      have hall := hfirst.trans hmoved
      cases invalidate with
      | false => exact hall
      | true => exact hall.trans (shifts_clearWay hall.shape hent)

theorem dcbClean_spec (hok : CacheOk c) (pa : U32) (invalidate : Bool) :
    Quiet c (c.dcbClean pa invalidate) := (dcbClean_shifts hok.shape pa invalidate).quiet hok

/-- **`dcbi`** takes the block out of both levels. -/
theorem dcbKill_turns (hs : Shape c) (pa : U32) :
    Turns c (c.dcbKill pa) ((c.levels.setNear (blkOf pa) none).setFar (blkOf pa) none) := by
  have hdrop := turns_fetchDropAt hs pa
  obtain ⟨c₀, hc₀⟩ : ∃ c₀, c.fetchDropAt pa = c₀ := ⟨_, rfl⟩
  rw [hc₀] at hdrop
  obtain ⟨hway, hsome, hnone⟩ := lineWay_spec hdrop.shape pa
  obtain ⟨r, hr⟩ : ∃ r, c₀.lineWay pa = r := ⟨_, rfl⟩
  obtain ⟨way, c₁⟩ := r
  rw [hr, hdrop.levels] at hway
  rw [hr] at hsome hnone
  have hfirst := hdrop.trans hway
  have hclear : ∃ c₂, c.dcbKill pa = c₂.l2Invalidate (blkAddr (blkOf pa))
      ∧ Turns c c₂ (c.levels.setNear (blkOf pa) none) := by
    unfold dcbKill
    simp only [hc₀, hr, blockBase_eq]
    cases way with
    | some w =>
        obtain ⟨d, hentry⟩ := hsome w rfl
        have hturn := turns_clearWay hfirst.shape hentry
        rw [hfirst.levels] at hturn
        exact ⟨_, rfl, hfirst.trans hturn⟩
    | none =>
        have hnear : c.levels.near (blkOf pa) = none := by rw [← hfirst.levels]; exact hnone rfl
        exact ⟨c₁, rfl, hfirst.congr (setNear_self hnear).symm⟩
  obtain ⟨c₂, heq, hturn₂⟩ := hclear
  obtain ⟨hinv, -⟩ := l2Invalidate_spec hturn₂.shape (blkOf pa)
  rw [hturn₂.levels] at hinv
  rw [heq]
  exact hturn₂.trans hinv

/-- It leaves the block as memory has it. -/
theorem dcbKill_spec (hok : CacheOk c) (pa : U32) :
    Stores c (c.dcbKill pa) (blkOf pa) (c.levels.mem (blkOf pa)) := by
  have hall := dcbKill_turns hok.shape pa
  obtain ⟨hcoh, hview⟩ := Levels.discard_coherent hok.coherent (blkOf pa)
  rw [← hall.levels] at hcoh hview
  exact ⟨hall.core, hall.fetch, ⟨hall.shape, hcoh⟩, hview⟩

/-! ## Flushes -/

/-- Flushing one L2 line only moves its data down. -/
theorem l2FlushEntry_shifts (hs : Shape c) (i : ℕ) :
    Shifts (fun _ => False) c (l2FlushEntry true c i) := by
  cases hv : (c.l2At i).v with
  | false =>
      have hnone : c.l2Entry i = none := by
        unfold l2Entry
        rw [hv]
        rfl
      have heq : l2FlushEntry true c i = c.l2Put i { c.l2At i with v := false, d := false } := by
        unfold l2FlushEntry
        simp only [hv, Bool.false_and, Bool.false_eq_true, if_false]
      rw [heq]
      exact (turns_l2Clear_none hs hnone rfl).shifts_same
  | true =>
      have hentry : c.l2Entry i
          = some ((c.l2At i).tag.setWidth 27, ((c.l2At i).b, (c.l2At i).d)) := by
        unfold l2Entry
        rw [hv, if_pos rfl]
      have hflows : Levels.Flows (fun _ => False) c.levels _ :=
        Levels.flows_evictFar c.levels _ (far_of_entry hs hentry)
      cases hd : (c.l2At i).d with
      | false =>
          have heq : l2FlushEntry true c i = c.l2Put i { c.l2At i with v := false, d := false } := by
            unfold l2FlushEntry
            simp only [hd, Bool.and_false, Bool.false_and, Bool.false_eq_true, if_false]
          rw [heq]
          rw [hd] at hflows
          exact (turns_l2Clear hs hentry rfl).shifts hflows
      | true =>
          -- a modified line reaches memory before its way is cleared
          have hbus := turns_busWriteLine hs ((c.l2At i).tag.setWidth 27) (c.l2At i).b
          have hentry₁ : (c.busWriteLine (blkAddr ((c.l2At i).tag.setWidth 27)) (c.l2At i).b).l2Entry i
              = some ((c.l2At i).tag.setWidth 27, ((c.l2At i).b, (c.l2At i).d)) := by
            unfold l2Entry l2At
            rw [(busWriteLine_l2 c _ _).1]
            exact hentry
          have hclear := turns_l2Clear (e := { c.l2At i with v := false, d := false }) hbus.shape
            hentry₁ rfl
          rw [hbus.levels] at hclear
          have heq : l2FlushEntry true c i
              = (c.busWriteLine (blkAddr ((c.l2At i).tag.setWidth 27)) (c.l2At i).b).l2Put i
                  { c.l2At i with v := false, d := false } := by
            unfold l2FlushEntry
            simp only [hv, hd, Bool.and_true, if_true, lineAddr_eq]
          rw [heq]
          rw [hd] at hflows
          exact (hbus.trans hclear).shifts hflows

/-- A walk of shifting steps shifts. -/
theorem shifts_foldl {α : Type} (f : Cpu PlainBus → α → Cpu PlainBus)
    (hf : ∀ c a, Shape c → Shifts may c (f c a)) (l : List α) :
    ∀ c, Shape c → Shifts may c (l.foldl f c) := by
  induction l with
  | nil => exact fun c hs => Shifts.refl hs
  | cons a l ih =>
      intro c hs
      have hstep := hf c a hs
      exact hstep.trans (ih _ hstep.shape)

/-- **`l2FlushAll`** with write-back only moves data down. -/
theorem l2FlushAll_shifts (hs : Shape c) : Shifts (fun _ => False) c (c.l2FlushAll true) := by
  have hdrop := turns_fetchDrop hs
  exact hdrop.shifts_same.trans
    (shifts_foldl _ (fun c i h => l2FlushEntry_shifts h i) _ _ hdrop.shape)

theorem l2FlushAll_spec (hok : CacheOk c) : Quiet c (c.l2FlushAll true) :=
  (l2FlushAll_shifts hok.shape).quiet hok

/-- Flushing one L1 way only moves its data down. -/
theorem l1dFlushWay_shifts (hs : Shape c) (p : BitVec 7 × Fin 8) :
    Shifts (fun _ => False) c (l1dFlushWay true c p) := by
  obtain ⟨s, w⟩ := p
  -- whatever was written back, the way ends empty and its line unnamed
  have hlast : ∀ c₁ : Cpu PlainBus, Shape c₁ → ∀ e : DLine,
      c₁.l1Entry (s, w) = none → Shifts (fun _ => False) c₁ (c₁.setDLine s w e) :=
    fun c₁ hs₁ e hnone => (turns_setDLine_none hs₁ hnone e).shifts_same
  have hempty : ∀ c₁ : Cpu PlainBus, (c₁.setTv s w 0#32).l1Entry (s, w) = none := by
    intro c₁
    rw [l1Entry_setTv, wayEntry_zero, Function.update_self]
  cases hent : c.l1Entry (s, w) with
  | none =>
      have hv : (c.l1x s).tv w &&& 1#32 = 0#32 := by
        by_contra hv
        unfold l1Entry wayEntry at hent
        rw [if_pos hv] at hent
        exact absurd hent (by simp)
      have hclear : Shifts (fun _ => False) c _ := (turns_clearWay_none hs hent).shifts_same
      unfold l1dFlushWay
      simp only [hv, bne_self_eq_false, Bool.false_and, Bool.false_eq_true, if_false]
      exact hclear.trans (hlast _ hclear.shape _ (hempty c))
  | some e =>
      obtain ⟨k, b, d⟩ := e
      have hv : (c.l1x s).tv w &&& 1#32 ≠ 0#32 := by
        by_contra hv
        unfold l1Entry wayEntry at hent
        rw [if_neg (not_not.mpr hv)] at hent
        exact absurd hent (by simp)
      have hbase := base_of_entry hs hent
      obtain ⟨hb, hd⟩ := line_of_entry hent
      cases d with
      | false =>
          have hclear : Shifts (fun _ => False) c _ := shifts_clearWay hs hent
          unfold l1dFlushWay
          simp only [hd, Bool.and_false, Bool.false_eq_true, if_false]
          exact hclear.trans (hlast _ hclear.shape _ (hempty c))
      | true =>
          obtain ⟨h, hturn, hsame, -, hflows⟩ := handedDown_push hs (near_of_entry hs hent)
          have hentry₁ : ((c.busWriteLine (blkAddr k) b).l2Invalidate (blkAddr k)).l1Entry (s, w)
              = some (k, (b, true)) := by rw [hsame.l1Entry]; exact hent
          have hclear := turns_clearWay hturn.shape hentry₁
          rw [hturn.levels] at hclear
          have hdropped : Levels.Flows (fun _ => False) c.levels (h.setNear k none) := by
            have hdrop : Levels.Flow (fun _ => False) _ _ :=
              Levels.Flow.dropNear (h.setNear k (some (b, false))) k (by
                intro v
                simp [Levels.setNear])
            have hidem : (h.setNear k (some (b, false))).setNear k none = h.setNear k none := by
              simp only [Levels.setNear, Function.update_idem]
            rw [hidem] at hdrop
            exact hflows.tail hdrop
          have hshifts := (hturn.trans hclear).shifts hdropped
          unfold l1dFlushWay
          simp only [hb, hd, bne_iff_ne, ne_eq, hv, not_false_eq_true, Bool.and_true, if_true,
            hbase]
          exact hshifts.trans (hlast _ hshifts.shape _ (hempty _))

/-- **`l1dFlushAll`** with write-back only moves data down. -/
theorem l1dFlushAll_shifts (hs : Shape c) : Shifts (fun _ => False) c (c.l1dFlushAll true) := by
  have hdrop := turns_fetchDrop hs
  have hways := hdrop.shifts_same.trans
    (shifts_foldl _ (fun c p h => l1dFlushWay_shifts h p) l1dSlots _ hdrop.shape)
  exact hways.trans (l2FlushAll_shifts hways.shape)

theorem l1dFlushAll_spec (hok : CacheOk c) : Quiet c (c.l1dFlushAll true) :=
  (l1dFlushAll_shifts hok.shape).quiet hok

end Cpu

end OpenPowerMac
