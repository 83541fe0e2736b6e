/-
Bus masters: `snoopPush` and the accesses it brackets.

A snooped block moves nothing but itself: its modified copies go to memory, an
invalidating snoop empties both levels of it, and every other block of both
caches and of memory is where it was. So the blocks of a range, snooped one
after another, are all settled at the end, and a master may then read or write
memory under them.

The range must not run over the top of the address space. `snoopPush` stops
where the next block's address would wrap, so the blocks from zero on that such
a range would also cover are never looked at.
-/
import OpenPowerMac.CacheOps

set_option autoImplicit false

namespace OpenPowerMac

open Hierarchy

namespace Cpu

variable {c : Cpu PlainBus}

/-! ## One block -/

/-- The L1 can only hold the block if the processor looks at the L1. -/
def L1Seen (c : Cpu PlainBus) : Prop := c.dceOn = true ∨ ∀ k, c.levels.near k = none

/-- What a half of a snooped block leaves. -/
structure Snooped (c c' : Cpu PlainBus) (k : BitVec 27) : Prop where
  quiet : Quiet c c'
  off : ∀ j, j ≠ k → Levels.SameAt j c.levels c'.levels

theorem Snooped.refl (hok : CacheOk c) (k : BitVec 27) : Snooped c c k :=
  ⟨Quiet.refl hok, fun _ _ => ⟨rfl, rfl, rfl⟩⟩

theorem Snooped.trans {c₁ c₂ c₃ : Cpu PlainBus} {k : BitVec 27} (h₁₂ : Snooped c₁ c₂ k)
    (h₂₃ : Snooped c₂ c₃ k) : Snooped c₁ c₃ k :=
  ⟨h₁₂.quiet.trans h₂₃.quiet, fun j hj => (h₁₂.off j hj).trans (h₂₃.off j hj)⟩

/-- A turn confined to a block. -/
theorem Turns.snooped {c' : Cpu PlainBus} {h : Levels (BitVec 27) Line} {k : BitVec 27}
    (hok : CacheOk c) (ht : Turns c c' h) (hm : Levels.Moves c.levels h)
    (hoff : ∀ j, j ≠ k → Levels.SameAt j c.levels h) : Snooped c c' k :=
  ⟨ht.quiet hok hm, by rw [ht.levels]; exact hoff⟩

/-- A near copy is pushed if it is modified: through the L2 to memory, and clean from then on. -/
theorem snoopL1_pushed (hok : CacheOk c) {k : BitVec 27} {s : BitVec 7} {w : Fin 8}
    (hentry : c.l1Entry (s, w) = some (k, ((c.l1d s w).b, (c.l1d s w).d))) :
    ∃ c₁, (if (c.l1d s w).d then
        ((c.busWriteLine (blkAddr k) (c.l1d s w).b).setDLine s w
          { b := (c.l1d s w).b, d := false }).l2Invalidate (blkAddr k) else c) = c₁
      ∧ Snooped c c₁ k ∧ c₁.l1Entry (s, w) = some (k, ((c.l1d s w).b, false)) := by
  cases hd : (c.l1d s w).d with
  | false =>
      rw [hd] at hentry
      exact ⟨c, if_neg (by simp), Snooped.refl hok k, hentry⟩
  | true =>
      rw [hd] at hentry
      have hnear := near_of_entry hok.shape hentry
      have hbus := turns_busWriteLine hok.shape k (c.l1d s w).b
      have hentry₁ : (c.busWriteLine (blkAddr k) (c.l1d s w).b).l1Entry (s, w)
          = some (k, ((c.l1d s w).b, true)) := by
        rw [(SameL1.busWriteLine c _ _).l1Entry]
        exact hentry
      have hset := turns_setDLine hbus.shape hentry₁ { b := (c.l1d s w).b, d := false }
      obtain ⟨hinv, hsame⟩ := l2Invalidate_spec hset.shape k
      rw [hset.levels, hbus.levels] at hinv
      refine ⟨_, if_pos rfl, ((hbus.trans hset).trans hinv).snooped hok
        (Levels.moves_pushNear c.levels k hnear) ?_, ?_⟩
      · intro j hj
        exact ((Levels.sameAt_setMem hj _).trans (Levels.sameAt_setNear hj _)).trans
          (Levels.sameAt_setFar hj _)
      · rw [hsame.l1Entry, l1Entry_setDLine, wayEntry_of_entry hentry₁, Function.update_self]

/-- With no copy in the L1 there is nothing to do. -/
theorem snoopL1_skipped (hok : CacheOk c) {k : BitVec 27} {invalidate : Bool}
    (heq : c.snoopL1 (blkAddr k) invalidate = c) (hnear : c.levels.near k = none) :
    Snooped c (c.snoopL1 (blkAddr k) invalidate) k
    ∧ (∀ v, (c.snoopL1 (blkAddr k) invalidate).levels.near k ≠ some (v, true))
    ∧ (invalidate = true → (c.snoopL1 (blkAddr k) invalidate).levels.near k = none) := by
  rw [heq, hnear]
  exact ⟨Snooped.refl hok k, fun v => by simp, fun _ => rfl⟩

/-- **The L1 half**: no modified near copy is left, and none at all when the
master writes. -/
theorem snoopL1_spec (hok : CacheOk c) (hseen : L1Seen c) (k : BitVec 27) (invalidate : Bool) :
    Snooped c (c.snoopL1 (blkAddr k) invalidate) k
    ∧ (∀ v, (c.snoopL1 (blkAddr k) invalidate).levels.near k ≠ some (v, true))
    ∧ (invalidate = true → (c.snoopL1 (blkAddr k) invalidate).levels.near k = none) := by
  have hkk : blkOf (blkAddr k) = k := blkOf_blkAddr k
  cases hdce : c.dceOn with
  | false =>
      refine snoopL1_skipped hok ?_ ?_
      · unfold snoopL1
        rw [hdce, if_neg (by simp)]
      · rcases hseen with h | h
        · rw [hdce] at h; exact absurd h (by simp)
        · exact h k
  | true =>
      cases hway : c.lineWayQuiet (blkAddr k) with
      | none =>
          refine snoopL1_skipped hok ?_ ?_
          · unfold snoopL1
            rw [hdce, if_pos rfl, hway]
          · have hnear := lineWayQuiet_none hok.shape hway
            rw [hkk] at hnear
            exact hnear
      | some w =>
          have hentry := lineWayQuiet_some hok.shape hway
          rw [hkk] at hentry
          obtain ⟨s, hs⟩ : ∃ s, setOf (blkAddr k) = s := ⟨_, rfl⟩
          rw [hs] at hentry
          obtain ⟨c₁, hc₁, hsnoop, hentry₁⟩ := snoopL1_pushed hok hentry
          have hstep : c.snoopL1 (blkAddr k) invalidate
              = if invalidate then c₁.setTv s w 0#32 else c₁ := by
            unfold snoopL1
            rw [hdce, if_pos rfl, hway]
            simp only [hs, hc₁]
          rw [hstep]
          cases invalidate with
          | false =>
              simp only [Bool.false_eq_true, if_false]
              refine ⟨hsnoop, fun v => ?_, fun h => absurd h (by simp)⟩
              rw [near_of_entry hsnoop.quiet.ok.shape hentry₁]
              simp
          | true =>
              -- the copy is clean by now, so that to drop it loses nothing
              simp only [if_true]
              have hclear := turns_clearWay hsnoop.quiet.ok.shape hentry₁
              have hquiet := quiet_clearWay hsnoop.quiet.ok hentry₁
              have hnone : (c₁.setTv s w 0#32).levels.near k = none := by
                rw [hclear.levels]
                exact Function.update_self _ _ _
              refine ⟨hsnoop.trans ⟨hquiet, fun j hj => ?_⟩, fun v => ?_, fun _ => hnone⟩
              · rw [hclear.levels]
                exact Levels.sameAt_setNear hj _
              · rw [hnone]
                simp

/-- A far copy is written out if it is modified, and clean from then on. -/
theorem snoopL2_pushed (hok : CacheOk c) {k : BitVec 27} {i : ℕ}
    (hentry : c.l2Entry i = some (k, ((c.l2At i).b, (c.l2At i).d))) :
    ∃ c₂, (if (c.l2At i).d then
        (c.busWriteLine (blkAddr k) (c.l2At i).b).l2Put i { c.l2At i with d := false }
        else c) = c₂
      ∧ Snooped c c₂ k ∧ c₂.levels.near = c.levels.near
      ∧ c₂.l2Entry i = some (k, ((c.l2At i).b, false)) := by
  have hfar := far_of_entry hok.shape hentry
  cases hd : (c.l2At i).d with
  | false =>
      rw [hd] at hentry
      exact ⟨c, if_neg (by simp), Snooped.refl hok k, rfl, hentry⟩
  | true =>
      have hbus := turns_busWriteLine hok.shape k (c.l2At i).b
      have hat : (c.busWriteLine (blkAddr k) (c.l2At i).b).l2At i = c.l2At i := by
        unfold l2At
        rw [(busWriteLine_l2 c _ _).1]
      have hentry₁ : (c.busWriteLine (blkAddr k) (c.l2At i).b).l2Entry i
          = some (k, ((c.l2At i).b, (c.l2At i).d)) := by
        unfold l2Entry
        rw [hat]
        exact hentry
      have hv : (c.l2At i).v = true := by
        by_contra hv
        unfold l2Entry at hentry
        rw [if_neg hv] at hentry
        exact absurd hentry (by simp)
      -- clearing D after the write keeps the bytes, so the two levels still agree
      have hput := turns_l2Rewrite (e := { c.l2At i with d := false }) hbus.shape hentry₁
        hv (by rw [hat])
      rw [hbus.levels] at hput
      have hfar' : c.levels.far k = some ((c.l2At i).b, true) := by rw [hfar, hd]
      refine ⟨_, if_pos rfl, (hbus.trans hput).snooped hok
        (Levels.moves_cleanFar c.levels k hfar') ?_, by rw [hput.levels]; rfl, ?_⟩
      · intro j hj
        exact (Levels.sameAt_setMem hj _).trans (Levels.sameAt_setFar hj _)
      · have hi : i < (c.busWriteLine (blkAddr k) (c.l2At i).b).l2.size := by
          rw [(busWriteLine_l2 c _ _).1]
          exact lt_size_of_v hv
        rw [l2Entry_l2Put _ hi, Function.update_self, if_pos hv]
        have hkey : (c.l2At i).tag.setWidth 27 = k := by
          unfold l2Entry at hentry
          rw [if_pos hv, Option.some.injEq, Prod.mk.injEq] at hentry
          exact hentry.1
        rw [← hkey]

/-- **The L2 half**, the near level untouched. -/
theorem snoopL2_spec (hok : CacheOk c) (k : BitVec 27) (invalidate : Bool) :
    Snooped c (c.snoopL2 (blkAddr k) invalidate) k
    ∧ (c.snoopL2 (blkAddr k) invalidate).levels.near = c.levels.near
    ∧ (∀ v, (c.snoopL2 (blkAddr k) invalidate).levels.far k ≠ some (v, true))
    ∧ (invalidate = true → (c.snoopL2 (blkAddr k) invalidate).levels.far k = none) := by
  obtain ⟨hturn, -, hsome, hnone⟩ := l2Find_spec hok.shape (blkAddr k)
  rw [blkOf_blkAddr] at hsome hnone
  have hquiet := hturn.quiet_same hok
  obtain ⟨r, hr⟩ : ∃ r, c.l2Find (blkAddr k) = r := ⟨_, rfl⟩
  obtain ⟨hit, c₁⟩ := r
  rw [hr] at hturn hsome hnone hquiet
  -- the search itself only touches the recency of the ways
  have hfind : Snooped c c₁ k := by
    refine ⟨hquiet, fun j _ => ?_⟩
    rw [hturn.levels]
    exact ⟨rfl, rfl, rfl⟩
  cases hit with
  | none =>
      have hstep : c.snoopL2 (blkAddr k) invalidate = c₁ := by
        unfold snoopL2
        simp only [hr]
      have hfar := hnone rfl
      rw [hstep, hturn.levels, hfar]
      exact ⟨hfind, rfl, fun v => by simp, fun _ => rfl⟩
  | some i =>
      obtain ⟨c₂, hc₂, hsnoop, hnear, hentry₂⟩ := snoopL2_pushed hquiet.ok (hsome i rfl)
      have hfar₂ := far_of_entry hsnoop.quiet.ok.shape hentry₂
      have hstep : c.snoopL2 (blkAddr k) invalidate
          = if invalidate then c₂.l2Put i { c₂.l2At i with v := false } else c₂ := by
        unfold snoopL2
        simp only [hr, hc₂]
      rw [hstep]
      cases invalidate with
      | false =>
          simp only [Bool.false_eq_true, if_false]
          refine ⟨hfind.trans hsnoop, by rw [hnear, hturn.levels], fun v => ?_,
            fun h => absurd h (by simp)⟩
          rw [hfar₂]
          simp
      | true =>
          simp only [if_true]
          have hclear := turns_l2Clear (e := { c₂.l2At i with v := false }) hsnoop.quiet.ok.shape
            hentry₂ rfl
          have hnone₂ : (c₂.l2Put i { c₂.l2At i with v := false }).levels.far k = none := by
            rw [hclear.levels]
            exact Function.update_self _ _ _
          have hdrop : Snooped c₂ (c₂.l2Put i { c₂.l2At i with v := false }) k :=
            hclear.snooped hsnoop.quiet.ok
              (Levels.moves_dropFar _ k (by intro v; rw [hfar₂]; simp))
              (fun j hj => Levels.sameAt_setFar hj _)
          refine ⟨(hfind.trans hsnoop).trans hdrop, ?_, fun v => ?_, fun _ => hnone₂⟩
          · rw [hclear.levels]
            show c₂.levels.near = c.levels.near
            rw [hnear, hturn.levels]
          · rw [hnone₂]
            simp

theorem L1Seen.of_snooped {c' : Cpu PlainBus} {k : BitVec 27} (h : L1Seen c)
    (hs : Snooped c c' k) (hk : c.levels.near k = none → c'.levels.near k = none) :
    L1Seen c' := by
  rcases h with hdce | hnone
  · exact Or.inl (by rw [hs.quiet.core.dceOn]; exact hdce)
  · refine Or.inr fun j => ?_
    by_cases hj : j = k
    · rw [hj]
      exact hk (hnone k)
    · rw [(hs.off j hj).near]
      exact hnone j

/-- **A snooped block is settled.** -/
theorem snoopBlock_spec (hok : CacheOk c) (hseen : L1Seen c) (k : BitVec 27) (invalidate : Bool) :
    Snooped c (c.snoopBlock (blkAddr k) invalidate) k
    ∧ (c.snoopBlock (blkAddr k) invalidate).levels.Settled k invalidate
    ∧ (invalidate = true → (c.snoopBlock (blkAddr k) invalidate).Dropped k)
    ∧ L1Seen (c.snoopBlock (blkAddr k) invalidate) := by
  obtain ⟨c₀, hc₀⟩ : ∃ c₀, (if invalidate then c.fetchDropAt (blkAddr k) else c) = c₀ := ⟨_, rfl⟩
  have hdrop : Turns c c₀ c.levels ∧ (invalidate = true → c₀.Dropped k) := by
    rw [← hc₀]
    cases invalidate with
    | false => exact ⟨Turns.refl hok.shape, fun h => absurd h (by simp)⟩
    | true =>
        have hdropped := dropped_fetchDropAt c (blkAddr k)
        rw [blkOf_blkAddr] at hdropped
        exact ⟨turns_fetchDropAt hok.shape (blkAddr k), fun _ => hdropped⟩
  obtain ⟨hdrop, hdropped⟩ := hdrop
  have hfirst : Snooped c c₀ k := by
    refine ⟨hdrop.quiet_same hok, fun j _ => ?_⟩
    rw [hdrop.levels]
    exact ⟨rfl, rfl, rfl⟩
  have hseen₀ : L1Seen c₀ := hseen.of_snooped hfirst (by rw [hdrop.levels]; exact id)
  obtain ⟨hl1, hdirty, hnone⟩ := snoopL1_spec hfirst.quiet.ok hseen₀ k invalidate
  obtain ⟨hl2, hnear, hfar, hfnone⟩ := snoopL2_spec hl1.quiet.ok k invalidate
  have hstep : c.snoopBlock (blkAddr k) invalidate
      = (c₀.snoopL1 (blkAddr k) invalidate).snoopL2 (blkAddr k) invalidate := by
    unfold snoopBlock
    simp only [hc₀]
  have hall := (hfirst.trans hl1).trans hl2
  rw [hstep]
  refine ⟨hall, ⟨?_, hfar, fun h => ⟨?_, hfnone h⟩⟩,
    fun h => (hdropped h).less (hl1.trans hl2).quiet.fetch, hseen.of_snooped hall ?_⟩
  · rw [hnear]
    exact hdirty
  · rw [hnear]
    exact hnone h
  · intro hk
    rw [hnear]
    -- an absent near copy stays absent
    have hskip : (c₀.snoopL1 (blkAddr k) invalidate).levels.near k = none := by
      have hk₀ : c₀.levels.near k = none := by rw [hdrop.levels]; exact hk
      cases hdce : c₀.dceOn with
      | false =>
          unfold snoopL1
          rw [hdce, if_neg (by simp)]
          exact hk₀
      | true =>
          cases hway : c₀.lineWayQuiet (blkAddr k) with
          | none =>
              unfold snoopL1
              rw [hdce, if_pos rfl, hway]
              exact hk₀
          | some w =>
              have hentry := lineWayQuiet_some hfirst.quiet.ok.shape hway
              rw [blkOf_blkAddr] at hentry
              have := near_of_entry hfirst.quiet.ok.shape hentry
              rw [hk₀] at this
              exact absurd this (by simp)
    exact hskip

/-! ## A range of blocks -/

/-- The blocks of `snoopPush`'s loop that do not wrap are all settled at the end,
and no other block has moved. The induction is on the loop's fuel. -/
theorem snoopLoop_spec (invalidate : Bool) (last : BitVec 27) (fuel : ℕ) :
    ∀ (k : BitVec 27) (c : Cpu PlainBus), CacheOk c → L1Seen c → k.toNat ≤ last.toNat →
      last.toNat - k.toNat < fuel →
      Quiet c (snoopLoop invalidate (blkAddr last) fuel (blkAddr k) c)
      ∧ (∀ j : BitVec 27, k.toNat ≤ j.toNat → j.toNat ≤ last.toNat →
          (snoopLoop invalidate (blkAddr last) fuel (blkAddr k) c).levels.Settled j invalidate
          ∧ (invalidate = true →
              (snoopLoop invalidate (blkAddr last) fuel (blkAddr k) c).Dropped j))
      ∧ (∀ j : BitVec 27, j.toNat < k.toNat →
          Levels.SameAt j c.levels
            (snoopLoop invalidate (blkAddr last) fuel (blkAddr k) c).levels) := by
  induction fuel with
  | zero =>
      intro k c _ _ _ hfuel
      omega
  | succ fuel ih =>
      intro k c hok hseen hle hfuel
      obtain ⟨hsnoop, hsettled, hdropped, hseen₁⟩ := snoopBlock_spec hok hseen k invalidate
      have hlt := last.isLt
      unfold snoopLoop
      simp only
      by_cases hlast : blkAddr k = blkAddr last
      · rw [if_pos (Or.inl hlast)]
        have hkl : k.toNat = last.toNat := by
          have hnat := congrArg BitVec.toNat hlast
          rw [blkAddr_toNat, blkAddr_toNat] at hnat
          omega
        refine ⟨hsnoop.quiet, fun j hkj hjl => ?_, fun j hj => hsnoop.off j ?_⟩
        · have hjk : j = k := BitVec.eq_of_toNat_eq (by omega)
          rw [hjk]
          exact ⟨hsettled, hdropped⟩
        · intro hjk
          rw [hjk] at hj
          exact Nat.lt_irrefl _ hj
      · have hlt' : k.toNat < last.toNat := by
          rcases Nat.lt_or_eq_of_le hle with h | h
          · exact h
          · exact absurd (congrArg blkAddr (BitVec.eq_of_toNat_eq h)) hlast
        -- below the last block the address does not wrap, so the loop's guard does not stop it
        have hnext : blkAddr k + 32#32 = blkAddr (k + 1#27) := by
          apply BitVec.eq_of_toNat_eq
          rw [BitVec.toNat_add, blkAddr_toNat, blkAddr_toNat, BitVec.toNat_add,
            show (32#32).toNat = 32 from rfl, show (1#27).toNat = 1 from rfl]
          omega
        have hsucc : (k + 1#27).toNat = k.toNat + 1 := by
          rw [BitVec.toNat_add, show (1#27).toNat = 1 from rfl]
          omega
        have hnowrap : ¬ blkAddr k + 32#32 < blkAddr k := by
          rw [hnext, BitVec.lt_def, blkAddr_toNat, blkAddr_toNat, hsucc]
          omega
        rw [if_neg (by rw [not_or]; exact ⟨hlast, hnowrap⟩), hnext]
        obtain ⟨hquiet, hrest, hbefore⟩ := ih (k + 1#27) _ hsnoop.quiet.ok hseen₁
          (by omega) (by omega)
        refine ⟨hsnoop.quiet.trans hquiet, fun j hkj hjl => ?_, fun j hj => ?_⟩
        -- the later turns of the loop leave this turn's block where it settled
        · rcases Nat.lt_or_eq_of_le hkj with h | h
          · exact hrest j (by omega) hjl
          · have hjk : j = k := BitVec.eq_of_toNat_eq h.symm
            rw [hjk]
            exact ⟨hsettled.congr (hbefore k (by omega)), fun h => (hdropped h).less hquiet.fetch⟩
        · have hne : j ≠ k := by
            intro hjk
            rw [hjk] at hj
            exact Nat.lt_irrefl _ hj
          exact (hsnoop.off j hne).trans (hbefore j (by omega))

/-- **`snoopPush`** over a range that does not wrap: every byte of it lies in a
settled block, and no read can tell that anything happened. -/
theorem snoopPush_spec (hok : CacheOk c) (hseen : L1Seen c) {pa len : U32}
    (hrange : pa.toNat + len.toNat ≤ 2 ^ 32) (invalidate : Bool) :
    Quiet c (c.snoopPush pa len invalidate)
    ∧ ∀ i < len.toNat, (c.snoopPush pa len invalidate).levels.Settled
        (blkOf (pa + BitVec.ofNat 32 i)) invalidate
      ∧ (invalidate = true →
          (c.snoopPush pa len invalidate).Dropped (blkOf (pa + BitVec.ofNat 32 i))) := by
  unfold snoopPush
  by_cases h0 : len = 0#32
  · rw [if_pos h0]
    refine ⟨Quiet.refl hok, fun i hi => ?_⟩
    rw [h0] at hi
    exact absurd hi (Nat.not_lt_zero i)
  · rw [if_neg h0]
    have hpos : 0 < len.toNat := by
      rcases Nat.eq_zero_or_pos len.toNat with h | h
      · exact absurd (BitVec.eq_of_toNat_eq h) h0
      · exact h
    have hlast : (pa + len - 1#32).toNat = pa.toNat + len.toNat - 1 := by
      have hp := pa.isLt
      rw [BitVec.toNat_sub, BitVec.toNat_add, show (1#32).toNat = 1 from rfl]
      omega
    have hp := pa.isLt
    have hspec := snoopLoop_spec invalidate (blkOf (pa + len - 1#32)) (2 ^ 27) (blkOf pa) c hok
      hseen
      (by rw [blkOf_toNat, blkOf_toNat, hlast]; omega)
      (by
        have := (blkOf (pa + len - 1#32)).isLt
        omega)
    rw [blockBase_eq, blockBase_eq]
    obtain ⟨hquiet, hsettled, -⟩ := hspec
    refine ⟨hquiet, fun i hi => hsettled _ ?_ ?_⟩
    · rw [blkOf_toNat, blkOf_toNat, BitVec.toNat_add, BitVec.toNat_ofNat]
      omega
    · rw [blkOf_toNat, blkOf_toNat, hlast, BitVec.toNat_add, BitVec.toNat_ofNat]
      omega

end Cpu

end OpenPowerMac
