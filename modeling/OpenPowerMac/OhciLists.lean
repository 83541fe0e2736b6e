/-
When the list service of the OHCI returns.

Only retired descriptors count against the budget of `runList`. A visit to an endpoint
that has nothing to retire leaves everything as it was (`visit_idle`), so a ring of such
endpoints is walked for ever, and by `service_returns_iff` nothing else is.
-/
import OpenPowerMac.Ohci
import Mathlib.Data.Fintype.Pigeonhole
import Mathlib.Tactic.IntervalCases
import Mathlib.Tactic.Common

set_option autoImplicit false

namespace OpenPowerMac

namespace OhciCell

/-! ## The memory a visit leaves -/

/-- The bytes of a word that is put together from bytes. -/
theorem word_bytes (b₀ b₁ b₂ b₃ : U8) :
    let w : U32 := b₀.setWidth 32 ||| (b₁.setWidth 32 <<< 8) ||| (b₂.setWidth 32 <<< 16)
      ||| (b₃.setWidth 32 <<< 24)
    w.setWidth 8 = b₀ ∧ (w >>> 8).setWidth 8 = b₁ ∧ (w >>> 16).setWidth 8 = b₂
      ∧ (w >>> 24).setWidth 8 = b₃ := by
  refine ⟨?_, ?_, ?_, ?_⟩ <;> ext i hi <;> interval_cases i <;> simp

/-- A word written over itself. -/
theorem storeLE_wordLE (m : U32 → U8) (pa : U32) : storeLE m pa (wordLE m pa) = m := by
  obtain ⟨h₀, h₁, h₂, h₃⟩ := word_bytes (m pa) (m (pa + 1#32)) (m (pa + 2#32)) (m (pa + 3#32))
  unfold storeLE wordLE
  rw [h₀, h₁, h₂, h₃, Function.update_eq_self, Function.update_eq_self, Function.update_eq_self,
    Function.update_eq_self]

/-- The two parts of a word make it up. -/
theorem low_or_high (v : U32) : (v &&& 0xF#32) ||| (v &&& ~~~0xF#32) = v := by
  ext i hi
  simp only [BitVec.getElem_or, BitVec.getElem_and, BitVec.getElem_not]
  cases v[i] <;> cases (0xF#32)[i] <;> rfl

/-- Two cells that differ in the traces at most. -/
def Same (c c' : OhciCell) : Prop := c' = { c with used := c'.used, met := c'.met }

namespace Same

variable {a b c c' : OhciCell}

theorem refl (c : OhciCell) : Same c c := rfl

theorem trans (h : Same a b) (h' : Same b c) : Same a c := by
  unfold Same at h h' ⊢
  rw [h', h]

theorem word (h : Same c c') (pa : U32) : c'.word pa = c.word pa := by
  rw [h]
  rfl

end Same

theorem same_meet (c : OhciCell) (pa : U32) : Same c (c.meet pa) := rfl

theorem same_look (c : OhciCell) (pa : U32) : Same c (c.look pa) := by
  unfold look
  split_ifs <;> rfl

theorem same_stLe_word (c : OhciCell) (pa : U32) : Same c (c.stLe pa (c.word pa)) := by
  unfold stLe OhciCell.word
  split_ifs with h
  · rfl
  · rw [storeLE_wordLE]
    rfl

theorem same_readDesc (c : OhciCell) (pa : U32) : Same c (c.readDesc pa) :=
  ((((same_meet c pa).trans (same_look _ _)).trans (same_look _ _)).trans (same_look _ _)).trans
    (same_look _ _)

/-! ## Nothing to retire -/

/-- The device has nothing for this endpoint. -/
def Quiet (c : OhciCell) : Prop :=
  if c.hid = .mouse then c.accDx = 0 ∧ c.accDy = 0 ∧ c.buttons = c.sentButtons
  else c.pending.length < c.hid.reportLen

instance (c : OhciCell) : Decidable c.Quiet := by
  unfold Quiet
  infer_instance

/-- A descriptor is answered with a NAK: an IN on the device's own endpoint, and nothing to say. -/
def Naks (c : OhciCell) (ed0 td : U32) : Prop :=
  (c.word td >>> 19) &&& 3#32 = 2#32 ∧ (ed0 >>> 7) &&& 0xF#32 ≠ 0#32 ∧ c.Quiet

instance (c : OhciCell) (ed0 td : U32) : Decidable (c.Naks ed0 td) :=
  inferInstanceAs (Decidable (_ ∧ _))

/-- **Nothing is retired** at an endpoint: it is skipped, halted or empty, or its first descriptor
is answered with a NAK. -/
def Idle (c : OhciCell) (ed : U32) : Prop :=
  c.word ed &&& 0x4000#32 ≠ 0#32 ∨ c.word (ed + 8#32) &&& 1#32 ≠ 0#32 ∨ c.headOf ed = 0#32
    ∨ c.headOf ed = c.word (ed + 4#32) &&& ~~~0xF#32 ∨ c.Naks (c.word ed) (c.headOf ed)

instance (c : OhciCell) (ed : U32) : Decidable (c.Idle ed) := inferInstanceAs (Decidable (_ ∨ _))

theorem Same.nextOf {c c' : OhciCell} (h : Same c c') : c'.nextOf = c.nextOf := by
  rw [h]
  rfl

theorem Same.idle {c c' : OhciCell} (h : Same c c') (ed : U32) : c'.Idle ed ↔ c.Idle ed := by
  rw [h]
  rfl

theorem Same.quiet {c c' : OhciCell} (h : Same c c') : c'.Quiet ↔ c.Quiet := by
  rw [h]
  rfl

theorem Same.naks {c c' : OhciCell} (h : Same c c') (ed0 td : U32) :
    c'.Naks ed0 td ↔ c.Naks ed0 td := by
  rw [h]
  rfl

/-- The transfer is refused just where the device has nothing to say on its own endpoint. -/
theorem transfer_eq_none_iff (c : OhciCell) (dp epn cbp avail : U32) :
    transfer c dp epn cbp avail = none ↔ dp = 2#32 ∧ epn ≠ 0#32 ∧ c.Quiet := by
  unfold transfer Quiet
  by_cases h0 : dp = 0#32
  · rw [if_pos h0]
    exact iff_of_false (Option.some_ne_none _) fun h => by simp [h0] at h
  · rw [if_neg h0]
    by_cases h2 : dp = 2#32
    · rw [if_pos h2]
      by_cases he : epn = 0#32
      · rw [if_pos he]
        exact iff_of_false (Option.some_ne_none _) fun h => h.2.1 he
      · rw [if_neg he]
        by_cases hm : c.hid = .mouse
        · rw [if_pos hm, if_pos hm]
          unfold inMouse
          split_ifs with hq
          · exact iff_of_true rfl ⟨h2, he, hq⟩
          · exact iff_of_false not_false fun h => hq h.2.2
        · rw [if_neg hm, if_neg hm]
          unfold inKeyboard
          split_ifs with hq
          · exact iff_of_false not_false fun h => absurd hq (not_le.mpr h.2.2)
          · exact iff_of_true rfl ⟨h2, he, not_le.mp hq⟩
    · rw [if_neg h2]
      exact iff_of_false (Option.some_ne_none _) fun h => h2 h.1

/-- A NAK leaves the cell as it was. -/
theorem doTd_naks {c : OhciCell} {ed0 td : U32} (h : c.Naks ed0 td) :
    c.doTd ed0 td = (none, c.readDesc td) := by
  have hnone : ∀ cbp avail, transfer (c.readDesc td) ((c.word td >>> 19) &&& 3#32)
      ((ed0 >>> 7) &&& 0xF#32) cbp avail = none := fun cbp avail =>
    (transfer_eq_none_iff _ _ _ _ _).mpr ⟨h.1, h.2.1, (same_readDesc c td).quiet.mpr h.2.2⟩
  unfold doTd
  dsimp only
  rw [hnone]

/-- Any other descriptor is retired. -/
theorem doTd_retires {c : OhciCell} {ed0 td : U32} (h : ¬ c.Naks ed0 td) :
    ∃ next c', c.doTd ed0 td = (some next, c') := by
  have hsome : ∀ cbp avail, ∃ r, transfer (c.readDesc td) ((c.word td >>> 19) &&& 3#32)
      ((ed0 >>> 7) &&& 0xF#32) cbp avail = some r := by
    intro cbp avail
    apply Option.ne_none_iff_exists'.mp
    rw [ne_eq, transfer_eq_none_iff, (same_readDesc c td).quiet]
    exact h
  unfold doTd
  dsimp only
  obtain ⟨r, hr⟩ := hsome (c.word (td + 4#32))
    (if c.word (td + 4#32) ≠ 0#32 ∧ c.word (td + 12#32) ≥ c.word (td + 4#32) then
      c.word (td + 12#32) - c.word (td + 4#32) + 1#32 else 0#32)
  rw [hr]
  exact ⟨_, _, rfl⟩

theorem tdLoop_le (ed0 tail : U32) (left : ℕ) (h : U32) (c : OhciCell) :
    (tdLoop ed0 tail left h c).1 ≤ left := by
  induction left generalizing h c with
  | zero => exact le_refl _
  | succ left ih =>
      rw [tdLoop]
      split_ifs with hstop
      · exact le_refl _
      · by_cases hn : c.Naks ed0 h
        · rw [doTd_naks hn]
        · obtain ⟨next, c', hd⟩ := doTd_retires hn
          rw [hd]
          exact (ih next c').trans (Nat.le_succ left)

namespace Walk

/-- An endpoint with nothing to retire keeps its head. -/
theorem work_idle {w : Walk} (hleft : w.left ≠ 0) (h : w.cell.Idle w.ed) :
    ∃ c, w.work = (w.left, w.cell.headOf w.ed, c) ∧ Same w.cell c := by
  have hread := same_readDesc w.cell w.ed
  obtain ⟨left, hl⟩ := Nat.exists_eq_succ_of_ne_zero hleft
  unfold work
  dsimp only
  split_ifs with hskip
  · exact ⟨_, rfl, hread⟩
  · rw [hl, tdLoop]
    rw [not_or, not_not, not_not] at hskip
    split_ifs with hstop
    · exact ⟨_, rfl, hread⟩
    · -- what remains is a NAK
      have hn : w.cell.Naks (w.cell.word w.ed) (w.cell.headOf w.ed) := by
        rcases h with h | h | h | h | h
        · exact absurd hskip.1 h
        · exact absurd hskip.2 h
        · exact absurd (Or.inl h) hstop
        · exact absurd (Or.inr h) hstop
        · exact h
      rw [doTd_naks ((hread.naks _ _).mpr hn)]
      exact ⟨_, rfl, hread.trans (same_readDesc _ _)⟩

/-- **An idle visit** leaves the budget and the memory. -/
theorem visit_idle {w : Walk} (hleft : w.left ≠ 0) (h : w.cell.Idle w.ed) :
    w.visit.left = w.left ∧ w.visit.ed = w.cell.nextOf w.ed ∧ Same w.cell w.visit.cell := by
  obtain ⟨c, hwork, hsame⟩ := work_idle hleft h
  unfold visit
  dsimp only
  rw [hwork]
  refine ⟨rfl, rfl, ?_⟩
  dsimp only
  rw [show (w.cell.word (w.ed + 8#32) &&& 0xF#32) ||| w.cell.headOf w.ed = c.word (w.ed + 8#32) by
    rw [hsame.word]; exact low_or_high _]
  exact hsame.trans (same_stLe_word _ _)

/-- Any other visit uses the budget. -/
theorem visit_busy {w : Walk} (hleft : w.left ≠ 0) (h : ¬ w.cell.Idle w.ed) :
    w.visit.left < w.left := by
  obtain ⟨left, hl⟩ := Nat.exists_eq_succ_of_ne_zero hleft
  unfold Idle at h
  rw [not_or, not_or, not_or, not_or, not_not, not_not] at h
  obtain ⟨hskip, hhalt, hzero, htail, hn⟩ := h
  have hread := same_readDesc w.cell w.ed
  obtain ⟨next, c', hd⟩ := doTd_retires ((hread.naks _ _).not.mpr hn)
  show w.work.1 < w.left
  unfold work
  dsimp only
  rw [if_neg (by rw [not_or, not_not, not_not]; exact ⟨hskip, hhalt⟩), hl, tdLoop,
    if_neg (not_or.mpr ⟨hzero, htail⟩), hd]
  exact Nat.lt_succ_of_le (tdLoop_le _ _ _ _ _)

theorem step_of_not_over {w : Walk} (h : ¬ w.Over) : w.step = w.visit := if_neg h

theorem step_over {w : Walk} (h : w.Over) : w.step = w := if_pos h

/-- Once over, it stays over. -/
theorem over_iterate {w : Walk} (h : w.Over) (n : ℕ) : Walk.step^[n] w = w := by
  induction n with
  | zero => rfl
  | succ n ih => rw [Function.iterate_succ_apply', ih, step_over h]

/-- **Idle endpoints**, one after the other: only the place in the list changes. -/
theorem iterate_idle {w : Walk} (hleft : w.left ≠ 0) {n : ℕ}
    (h : ∀ k < n, w.cell.nextOf^[k] w.ed ≠ 0#32 ∧ w.cell.Idle (w.cell.nextOf^[k] w.ed)) :
    (Walk.step^[n] w).left = w.left ∧ (Walk.step^[n] w).ed = w.cell.nextOf^[n] w.ed
      ∧ Same w.cell (Walk.step^[n] w).cell := by
  induction n with
  | zero => exact ⟨rfl, rfl, Same.refl _⟩
  | succ n ih =>
      obtain ⟨hl, he, hs⟩ := ih fun k hk => h k (Nat.lt_succ_of_lt hk)
      obtain ⟨hne, hidle⟩ := h n (Nat.lt_succ_self n)
      rw [Function.iterate_succ_apply', Function.iterate_succ_apply']
      obtain ⟨v, hv⟩ : ∃ v, Walk.step^[n] w = v := ⟨_, rfl⟩
      rw [hv] at hl he hs ⊢
      rw [← he] at hne hidle
      have hleft' : v.left ≠ 0 := by rwa [hl]
      have hover : ¬ v.Over := not_or.mpr ⟨hne, hleft'⟩
      obtain ⟨hl', he', hs'⟩ := visit_idle hleft' ((hs.idle _).mpr hidle)
      rw [step_of_not_over hover]
      refine ⟨hl'.trans hl, ?_, hs.trans hs'⟩
      rw [he', hs.nextOf, he]

end Walk

/-! ## Rings -/

/-- **A ring of idle endpoints**: the list comes back to where it was, and up to there no endpoint
has anything to retire. -/
def IdleRing (c : OhciCell) (ed : U32) : Prop :=
  ∃ i j, i < j ∧ c.nextOf^[i] ed = c.nextOf^[j] ed
    ∧ ∀ k < j, c.nextOf^[k] ed ≠ 0#32 ∧ c.Idle (c.nextOf^[k] ed)

/-- In a ring nothing is ever retired. -/
theorem IdleRing.forever {c : OhciCell} {ed : U32} (h : c.IdleRing ed) (k : ℕ) :
    c.nextOf^[k] ed ≠ 0#32 ∧ c.Idle (c.nextOf^[k] ed) := by
  obtain ⟨i, j, hij, heq, hall⟩ := h
  induction k using Nat.strong_induction_on with
  | _ k ih =>
  by_cases hk : k < j
  · exact hall k hk
  · -- one round back
    have hback : c.nextOf^[k] ed = c.nextOf^[k - j + i] ed := by
      conv_lhs => rw [← Nat.sub_add_cancel (not_lt.mp hk), Function.iterate_add_apply]
      rw [Function.iterate_add_apply, heq]
    rw [hback]
    exact ih _ (by omega)

/-- Every endless list of idle endpoints is a ring: there are only so many addresses. -/
theorem idleRing_of_forever {c : OhciCell} {ed : U32}
    (h : ∀ k, c.nextOf^[k] ed ≠ 0#32 ∧ c.Idle (c.nextOf^[k] ed)) : c.IdleRing ed := by
  have : Finite U32 := Finite.of_injective BitVec.toFin fun a b hab => BitVec.toFin_inj.mp hab
  obtain ⟨i, j, hne, heq⟩ := Finite.exists_ne_map_eq_of_infinite fun k => c.nextOf^[k] ed
  rcases Nat.lt_or_gt_of_ne hne with hlt | hgt
  · exact ⟨i, j, hlt, heq, fun k _ => h k⟩
  · exact ⟨j, i, hgt, heq.symm, fun k _ => h k⟩

/-- Where no ring is met, the walk ends: every retired descriptor is one less to come. -/
theorem over_of_no_ring (w : Walk)
    (h : ∀ n, ¬ (¬ (Walk.step^[n] w).Over ∧ (Walk.step^[n] w).cell.IdleRing (Walk.step^[n] w).ed)) :
    ∃ n, (Walk.step^[n] w).Over := by
  obtain ⟨left, hleft⟩ : ∃ left, w.left = left := ⟨_, rfl⟩
  induction left using Nat.strong_induction_on generalizing w with
  | _ left ih =>
  by_cases hover : w.Over
  · exact ⟨0, hover⟩
  · have hl0 : w.left ≠ 0 := fun h0 => hover (Or.inr h0)
    -- the first endpoint that is not idle, or the end of the list
    have hstop : ∃ k, ¬ (w.cell.nextOf^[k] w.ed ≠ 0#32 ∧ w.cell.Idle (w.cell.nextOf^[k] w.ed)) := by
      by_contra hnone
      exact h 0 ⟨hover, idleRing_of_forever fun k => by_contra fun hk => hnone ⟨k, hk⟩⟩
    obtain ⟨k, hk, hmin⟩ : ∃ k, ¬ (w.cell.nextOf^[k] w.ed ≠ 0#32 ∧ w.cell.Idle (w.cell.nextOf^[k] w.ed))
        ∧ ∀ i < k, w.cell.nextOf^[i] w.ed ≠ 0#32 ∧ w.cell.Idle (w.cell.nextOf^[i] w.ed) := by
      classical
      exact ⟨Nat.find hstop, Nat.find_spec hstop, fun i hi => not_not.mp (Nat.find_min hstop hi)⟩
    obtain ⟨hl, he, hs⟩ := Walk.iterate_idle hl0 hmin
    by_cases hzero : w.cell.nextOf^[k] w.ed = 0#32
    · exact ⟨k, Or.inl (he.trans hzero)⟩
    · have hbusy : ¬ w.cell.Idle (w.cell.nextOf^[k] w.ed) := fun hidle => hk ⟨hzero, hidle⟩
      rw [← hs.idle, ← he] at hbusy
      have hover' : ¬ (Walk.step^[k] w).Over := by
        refine not_or.mpr ⟨?_, ?_⟩
        · rw [he]
          exact hzero
        · rw [hl]
          exact hl0
      have hlt := Walk.visit_busy (by rw [hl]; exact hl0) hbusy
      rw [← Walk.step_of_not_over hover', ← Function.iterate_succ_apply' Walk.step k w, hl, hleft] at hlt
      have hshift : ∀ n, Walk.step^[n] (Walk.step^[k + 1] w) = Walk.step^[n + (k + 1)] w := fun n =>
        (Function.iterate_add_apply _ n (k + 1) w).symm
      obtain ⟨n, hn⟩ := ih _ hlt (Walk.step^[k + 1] w)
        (fun n => by rw [hshift]; exact h (n + (k + 1))) rfl
      exact ⟨n + (k + 1), by rw [← hshift]; exact hn⟩

/-- A ring that is met is never left. -/
theorem not_returns_of_ring {c : OhciCell} {head : U32} {n : ℕ} (hn : ¬ (c.runList head n).Over)
    (hring : (c.runList head n).cell.IdleRing (c.runList head n).ed) : ¬ c.Returns head := by
  rintro ⟨m, hm⟩
  unfold runList at hm hn hring
  obtain ⟨w, hw⟩ : ∃ w, Walk.step^[n] ⟨64, head, c⟩ = w := ⟨_, rfl⟩
  rw [hw] at hn hring
  have hleft : w.left ≠ 0 := fun h0 => hn (Or.inr h0)
  have hover : ∀ k, ¬ (Walk.step^[k] w).Over := by
    intro k
    obtain ⟨hl, he, -⟩ := Walk.iterate_idle (n := k) hleft fun i _ => hring.forever i
    refine not_or.mpr ⟨?_, ?_⟩
    · rw [he]
      exact (hring.forever k).1
    · rw [hl]
      exact hleft
  -- it is over after `m` turns, and then after `n` more
  apply hover m
  rw [← hw, ← Function.iterate_add_apply, Nat.add_comm, Function.iterate_add_apply,
    Walk.over_iterate hm]
  exact hm

/-- **When list service returns**: the walk never comes to a ring of endpoints that have nothing to
retire. -/
theorem service_returns_iff (c : OhciCell) (head : U32) :
    c.Returns head ↔ ¬ ∃ n, ¬ (c.runList head n).Over
      ∧ (c.runList head n).cell.IdleRing (c.runList head n).ed := by
  constructor
  · rintro hret ⟨n, hn, hring⟩
    exact not_returns_of_ring hn hring hret
  · intro hnone
    exact over_of_no_ring _ fun n hn => hnone ⟨n, hn⟩

/-- Memory with one endpoint, skipped, that is its own successor. -/
def skippedRing : U32 → U8 := fun a =>
  if a = 0x11#32 then 0x40#8 else if a = 0x1C#32 then 0x10#8 else 0#8

/-- It is walked for ever. -/
theorem skippedRing_not_returns :
    ¬ (powerOn true skippedRing 0x40#32 .keyboard).Returns 0x10#32 := by
  apply not_returns_of_ring (n := 0) (by decide)
  refine ⟨0, 1, Nat.one_pos, ?_, ?_⟩
  · decide
  · intro k hk
    obtain rfl : k = 0 := by omega
    decide

end OhciCell

end OpenPowerMac
