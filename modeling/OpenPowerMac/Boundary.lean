/-
What a bounded format delivers for a magnitude, and where that changes.

Rounding to a format with a greatest exponent delivers a number or overflows, and
reports whether the number is exact, whether it lies above the magnitude, and
whether it came from below the normal range (`deliver`). As a function of the
magnitude this is constant but for steps, at the points `Boundary` names: the
format's own numbers, for nearest rounding the midpoints between them, and, when
rounding goes toward zero, the overflow threshold. `deliver_eq_iff` says that the
two sides of a grid point deliver the same exactly when it is none of these. Inside one
step of a grid finer than the midpoints everything is delivered alike
(`Inside.deliver_eq`).
-/
import OpenPowerMac.Rounding

set_option autoImplicit false
set_option linter.unusedSectionVars false

namespace Rounding

variable {K : Type*} [Field K] [LinearOrder K] [IsStrictOrderedRing K] [FloorRing K]

/-- What rounding a positive magnitude comes to. -/
inductive Outcome (K : Type*) where
  | overflow
  | finite (v : K) (inexact up under : Bool)

namespace Format

/-- Round a positive magnitude; the range below the normal one is told by the
magnitude itself, before it is rounded. -/
def deliver (f : Format) (mode : Mode) (x : K) : Outcome K :=
  let v := f.round mode x
  if 2 ^ (f.emax + 1) ≤ v then .overflow
  else .finite v (decide (v ≠ x)) (decide (x < v)) (decide (x < 2 ^ f.emin ∧ v ≠ x))

/-- The points at which `deliver` changes. -/
def Boundary (f : Format) (mode : Mode) (y : K) : Prop :=
  (y < 2 ^ (f.emax + 1) ∧ Grid (if mode = .nearest then f.quant y - 1 else f.quant y) y)
    ∨ (y = 2 ^ (f.emax + 1) ∧ (mode = .zero ∨ mode = .down))

variable {f : Format}

/-! ## Cells of a grid -/

/-- Off a coarser grid, both neighbours lie in the cell the point lies in. -/
theorem cell_of_not_grid {k l : ℤ} {x y x' : K} (hkl : k ≤ l) (hy : Grid k y) (h : ¬ Grid l y)
    (hx : y - 2 ^ k < x) (hxy : x < y) (hyx : y < x') (hx' : x' < y + 2 ^ k) :
    ∃ n : ℤ, (n * 2 ^ l < x ∧ x < (n + 1) * 2 ^ l) ∧ (n * 2 ^ l < x' ∧ x' < (n + 1) * 2 ^ l) := by
  have hpos := two_zpow_pos (K := K) l
  have hlo := Int.floor_le (y / 2 ^ l)
  have hhi := Int.lt_floor_add_one (y / 2 ^ l)
  obtain ⟨n, hn⟩ : ∃ n, ⌊y / 2 ^ l⌋ = n := ⟨_, rfl⟩
  rw [hn, le_div_iff₀ hpos] at hlo
  rw [hn, div_lt_iff₀ hpos] at hhi
  have hlo' : n * 2 ^ l < y := lt_of_le_of_ne hlo fun he => h ⟨n, he.symm⟩
  -- the ends of the cell are a step of the finer grid away
  have hstep₁ := (Grid.mono hkl (Grid.intMul (K := K) n)).add_le_of_lt hy hlo'
  have hstep₂ := hy.add_le_of_lt (Grid.mono hkl ⟨n + 1, by push_cast; rfl⟩) hhi
  exact ⟨n, ⟨by linarith, by linarith⟩, by linarith, by linarith⟩

/-- A step of a grid lies in one step of a coarser grid. -/
theorem cell_coarser {k l : ℤ} (hkl : k ≤ l) (n : ℤ) :
    ∃ m : ℤ, (m * 2 ^ l : K) ≤ n * 2 ^ k ∧ ((n + 1) * 2 ^ k : K) ≤ (m + 1) * 2 ^ l := by
  have hpos := two_zpow_pos (K := K) l
  have hlo := Int.floor_le ((n * 2 ^ k : K) / 2 ^ l)
  have hhi := Int.lt_floor_add_one ((n * 2 ^ k : K) / 2 ^ l)
  obtain ⟨m, hm⟩ : ∃ m, ⌊(n * 2 ^ k : K) / 2 ^ l⌋ = m := ⟨_, rfl⟩
  rw [hm, le_div_iff₀ hpos] at hlo
  rw [hm, div_lt_iff₀ hpos] at hhi
  have hstep := (Grid.intMul (K := K) n).add_le_of_lt (Grid.mono hkl ⟨m + 1, by push_cast; rfl⟩) hhi
  exact ⟨m, hlo, by linarith⟩

/-- In one cell of the integers all directions but nearest agree. -/
theorem toInt_eq_of_cell {mode : Mode} (hmode : mode ≠ .nearest) {n : ℤ} {y z : K} (hy0 : 0 ≤ y)
    (hz0 : 0 ≤ z) (hy : n < y ∧ y < n + 1) (hz : n < z ∧ z < n + 1) :
    mode.toInt y = mode.toInt z := by
  have hfloor : ∀ {w : K}, (n : K) < w ∧ w < n + 1 → ⌊w⌋ = n := fun hw =>
    Int.floor_eq_iff.mpr ⟨hw.1.le, hw.2⟩
  have hceil : ∀ {w : K}, (n : K) < w ∧ w < n + 1 → ⌈w⌉ = n + 1 := fun hw =>
    Int.ceil_eq_iff.mpr ⟨by push_cast; linarith [hw.1], by push_cast; exact hw.2.le⟩
  cases mode with
  | nearest => exact absurd rfl hmode
  | zero =>
      show (if 0 ≤ y then ⌊y⌋ else ⌈y⌉) = if 0 ≤ z then ⌊z⌋ else ⌈z⌉
      rw [if_pos hy0, if_pos hz0, hfloor hy, hfloor hz]
  | up => exact (hceil hy).trans (hceil hz).symm
  | down => exact (hfloor hy).trans (hfloor hz).symm

theorem nearestEven_of_lower {n : ℤ} {y : K} (h : n < y ∧ y < n + 1 / 2) : nearestEven y = n := by
  rw [nearestEven_eq_iff]
  left
  rw [abs_lt]
  constructor <;> linarith [h.1, h.2]

theorem nearestEven_of_upper {n : ℤ} {y : K} (h : n + 1 / 2 < y ∧ y < n + 1) :
    nearestEven y = n + 1 := by
  rw [nearestEven_eq_iff]
  left
  rw [abs_lt]
  push_cast
  constructor <;> linarith [h.1, h.2]

/-- In one cell of the half integers nearest rounding agrees. -/
theorem nearestEven_eq_of_cell {n : ℤ} {y z : K} (hy : n / 2 < y ∧ y < (n + 1) / 2)
    (hz : n / 2 < z ∧ z < (n + 1) / 2) : nearestEven y = nearestEven z := by
  rcases Int.even_or_odd' n with ⟨a, rfl | rfl⟩
  · push_cast at hy hz
    rw [nearestEven_of_lower (n := a) ⟨by linarith [hy.1], by linarith [hy.2]⟩,
      nearestEven_of_lower (n := a) ⟨by linarith [hz.1], by linarith [hz.2]⟩]
  · push_cast at hy hz
    rw [nearestEven_of_upper (n := a) ⟨by linarith [hy.1], by linarith [hy.2]⟩,
      nearestEven_of_upper (n := a) ⟨by linarith [hz.1], by linarith [hz.2]⟩]

/-- The directions that do not go away from zero. -/
theorem round_le_self {m : Mode} (hm : m = .zero ∨ m = .down) {x : K} (hx : 0 ≤ x) :
    f.round m x ≤ x := by
  have hpos := two_zpow_pos (K := K) (f.quant x)
  have hfloor : f.round m x = ⌊x / 2 ^ f.quant x⌋ * 2 ^ f.quant x := by
    unfold round
    rcases hm with rfl | rfl
    · rw [show Mode.zero.toInt (x / 2 ^ f.quant x) = ⌊x / 2 ^ f.quant x⌋ from
        if_pos (div_nonneg hx hpos.le)]
    · rfl
  rw [hfloor]
  calc _ ≤ x / 2 ^ f.quant x * 2 ^ f.quant x :=
        mul_le_mul_of_nonneg_right (Int.floor_le _) hpos.le
    _ = x := div_mul_cancel₀ _ hpos.ne'

theorem self_le_round_up (x : K) : x ≤ f.round .up x := by
  have hpos := two_zpow_pos (K := K) (f.quant x)
  calc x = x / 2 ^ f.quant x * 2 ^ f.quant x := (div_mul_cancel₀ _ hpos.ne').symm
    _ ≤ _ := mul_le_mul_of_nonneg_right (Int.le_ceil _) hpos.le

/-! ## The two sides of a grid point -/

section Sides

variable {k : ℤ} {x y x' : K}

/-- A grid point and a magnitude on either side of it, less than a step away. The
grid is fine enough to hold the format's numbers and their midpoints there. -/
structure Sides (f : Format) (k : ℤ) (x y x' : K) : Prop where
  grid : Grid k y
  fine : 2 ^ (k + f.prec) < y
  below : y - 2 ^ k < x
  left : x < y
  right : y < x'
  above : x' < y + 2 ^ k

namespace Sides

theorem fine_left (h : Sides f k x y x') : 2 ^ (k + f.prec) < x := by
  have hg : Grid k ((2 : K) ^ (k + f.prec)) := Grid.zpow (by omega)
  have := hg.add_le_of_lt h.grid h.fine
  linarith [h.below]

theorem pos_left (h : Sides f k x y x') : 0 < x := lt_trans (two_zpow_pos _) h.fine_left

theorem lt_quant {z : K} (hz : 2 ^ (k + f.prec) < z) : k < f.quant z := by
  have hroom := abs_lt_of_quant (f := f) z
  rw [abs_of_pos (lt_trans (two_zpow_pos _) hz)] at hroom
  have hlt := lt_trans hz hroom
  by_contra hle
  exact absurd (hlt.trans_le (two_zpow_le (by omega))) (lt_irrefl _)

/-- No other grid point comes between the two sides. -/
theorem side_iff (h : Sides f k x y x') {w : K} (hw : Grid k w) (hne : w ≠ y) :
    x < w ↔ x' < w := by
  constructor
  · intro hxw
    rcases lt_or_gt_of_ne hne with hlt | hgt
    · linarith [hw.add_le_of_lt h.grid hlt, h.below]
    · linarith [h.grid.add_le_of_lt hw hgt, h.above]
  · intro hxw
    linarith [h.left, h.right]

theorem ne_left (h : Sides f k x y x') {w : K} (hw : Grid k w) : w ≠ x := by
  rintro rfl
  linarith [hw.add_le_of_lt h.grid h.left, h.below]

theorem ne_right (h : Sides f k x y x') {w : K} (hw : Grid k w) : w ≠ x' := by
  rintro rfl
  linarith [h.grid.add_le_of_lt hw h.right, h.above]

/-- Only a power of two could change the quantum, and it is no midpoint. -/
theorem quant_right (h : Sides f k x y x') : f.quant x' = f.quant y := by
  have hy0 : 0 < y := lt_trans (two_zpow_pos _) h.fine
  have hx0 : 0 < x' := hy0.trans h.right
  have hle : f.quant y ≤ f.quant x' := by
    refine quant_mono ?_
    rw [abs_of_pos hy0, abs_of_pos hx0]
    exact h.right.le
  refine le_antisymm ?_ hle
  by_contra hlt
  have hlow := le_abs_of_lt_quant (lt_of_le_of_lt (qmin_le_quant y) (not_le.mp hlt))
  have hroom := abs_lt_of_quant (f := f) y
  rw [abs_of_pos hx0] at hlow
  rw [abs_of_pos hy0] at hroom
  have hk := lt_quant h.fine
  have hprec := f.three_le
  have hedge : y < 2 ^ (f.quant x' + f.prec - 1) := hroom.trans_le (two_zpow_le (by omega))
  have := h.grid.add_le_of_lt (Grid.zpow (by omega)) hedge
  linarith [h.above]

theorem quant_left (h : Sides f k x y x') (hrep : ¬ Rep f y) : f.quant x = f.quant y := by
  have hy0 : 0 < y := lt_trans (two_zpow_pos _) h.fine
  have hx0 := h.pos_left
  have hle : f.quant x ≤ f.quant y := by
    refine quant_mono ?_
    rw [abs_of_pos hy0, abs_of_pos hx0]
    exact h.left.le
  refine le_antisymm hle ?_
  by_contra hlt
  have hlow := le_abs_of_lt_quant (lt_of_le_of_lt (qmin_le_quant x) (not_le.mp hlt))
  have hroom := abs_lt_of_quant (f := f) x
  rw [abs_of_pos hx0] at hroom
  rw [abs_of_pos hy0] at hlow
  have hk := lt_quant h.fine_left
  have hprec := f.three_le
  have hq := qmin_le_quant (f := f) x
  have hedge : x < 2 ^ (f.quant y + f.prec - 1) := hroom.trans_le (two_zpow_le (by omega))
  -- the edge of the binade is representable, so it is not `y`
  have hne : (2 : K) ^ (f.quant y + f.prec - 1) ≠ y := by
    intro he
    exact hrep (he ▸ rep_two_zpow (by omega))
  have := (Grid.zpow (K := K) (k := k) (by omega)).add_le_of_lt h.grid (lt_of_le_of_ne hlow hne)
  linarith [h.below]

end Sides

theorem not_grid_of_fine {q : ℤ} {y : K} (h : ¬ Grid (q - 1) y) : ¬ Grid q y :=
  fun hg => h (Grid.mono (by omega) hg)

/-- Off the boundaries both sides round to one number. -/
theorem round_eq_of_sides {mode : Mode} (h : Sides f k x y x')
    (hb : ¬ Grid (if mode = .nearest then f.quant y - 1 else f.quant y) y) :
    f.round mode x = f.round mode x' := by
  have hy0 : 0 < y := lt_trans (two_zpow_pos _) h.fine
  have hk := Sides.lt_quant h.fine
  have hrep : ¬ Rep f y := by
    by_cases hm : mode = .nearest
    · rw [if_pos hm] at hb
      exact not_grid_of_fine hb
    · rw [if_neg hm] at hb
      exact hb
  have hpos := two_zpow_pos (K := K) (f.quant y)
  have hx0 := h.pos_left
  have hx0' : 0 < x' := hy0.trans h.right
  unfold round
  rw [h.quant_left hrep, h.quant_right]
  congr 2
  by_cases hm : mode = .nearest
  · rw [if_pos hm] at hb
    obtain ⟨n, hl, hr⟩ := cell_of_not_grid (by omega) h.grid hb h.below h.left h.right h.above
    have hhalf : (2 : K) ^ f.quant y = 2 * 2 ^ (f.quant y - 1) := two_zpow_pred _
    have hcell : ∀ {w : K}, (n * 2 ^ (f.quant y - 1) < w ∧ w < (n + 1) * 2 ^ (f.quant y - 1)) →
        (n : K) / 2 < w / 2 ^ f.quant y ∧ w / 2 ^ f.quant y < (n + 1) / 2 := by
      intro w hw
      rw [lt_div_iff₀ hpos, div_lt_iff₀ hpos, hhalf]
      constructor <;> linarith [hw.1, hw.2]
    rw [hm]
    exact nearestEven_eq_of_cell (hcell hl) (hcell hr)
  · rw [if_neg hm] at hb
    obtain ⟨n, hl, hr⟩ := cell_of_not_grid (by omega) h.grid hb h.below h.left h.right h.above
    have hcell : ∀ {w : K}, (n * 2 ^ f.quant y < w ∧ w < (n + 1) * 2 ^ f.quant y) →
        (n : K) < w / 2 ^ f.quant y ∧ w / 2 ^ f.quant y < n + 1 := by
      intro w hw
      rw [lt_div_iff₀ hpos, div_lt_iff₀ hpos]
      exact hw
    exact toInt_eq_of_cell hm (div_nonneg hx0.le hpos.le) (div_nonneg hx0'.le hpos.le) (hcell hl)
      (hcell hr)

/-- A midpoint sends its two sides to two numbers. -/
theorem round_lt_of_midpoint (h : Sides f k x y x') (hrep : ¬ Rep f y)
    (hmid : Grid (f.quant y - 1) y) : f.round .nearest x < y ∧ y < f.round .nearest x' := by
  have hpos := two_zpow_pos (K := K) (f.quant y)
  have hk := Sides.lt_quant h.fine
  have hhalf : (2 : K) ^ f.quant y = 2 * 2 ^ (f.quant y - 1) := two_zpow_pred _
  have hql := h.quant_left hrep
  have hqr := h.quant_right
  unfold Rep at hrep
  obtain ⟨q, hq⟩ : ∃ q, f.quant y = q := ⟨_, rfl⟩
  rw [hq] at hpos hk hhalf hql hqr hrep hmid
  obtain ⟨n, hn⟩ := hmid
  obtain ⟨a, ha⟩ : ∃ a, n = 2 * a + 1 := by
    rcases Int.even_or_odd' n with ⟨a, ha | ha⟩
    · refine absurd ⟨a, ?_⟩ hrep
      rw [hn, ha, hhalf]
      push_cast
      ring
    · exact ⟨a, ha⟩
  have hy : y = (a + 1 / 2) * 2 ^ q := by
    rw [hn, ha, hhalf]
    push_cast
    ring
  have hgrid : ∀ m : ℤ, Grid k ((m : K) * 2 ^ q) := fun m =>
    Grid.mono hk.le (Grid.intMul m)
  -- both sides lie on a grid finer than the cell, so neither leaves the cell of `y`
  have hlo : (a : K) * 2 ^ q < x := by
    have hlt : (a : K) * 2 ^ q < y := by rw [hy]; nlinarith
    linarith [(hgrid a).add_le_of_lt h.grid hlt, h.below]
  have hhi : x' < (a + 1) * 2 ^ q := by
    have hlt : y < ((a + 1 : ℤ) : K) * 2 ^ q := by rw [hy]; push_cast; nlinarith
    have := h.grid.add_le_of_lt (hgrid (a + 1)) hlt
    push_cast at this
    linarith [h.above]
  have hleft : f.round .nearest x = a * 2 ^ q := by
    unfold round
    rw [hql]
    congr 2
    refine nearestEven_of_lower ?_
    rw [lt_div_iff₀ hpos, div_lt_iff₀ hpos, ← hy]
    exact ⟨hlo, h.left⟩
  have hright : f.round .nearest x' = (a + 1) * 2 ^ q := by
    unfold round
    rw [hqr, show Mode.nearest.toInt (x' / 2 ^ q) = a + 1 from
      nearestEven_of_upper (by
        rw [lt_div_iff₀ hpos, div_lt_iff₀ hpos, ← hy]
        exact ⟨h.right, hhi⟩)]
    push_cast
    rfl
  rw [hleft, hright]
  constructor <;> linarith [h.left, h.right]

theorem rep_threshold : Rep f ((2 : K) ^ (f.emax + 1)) := by
  have h₁ := f.emin_lt
  have h₂ := f.qmin_eq
  have h₃ := f.three_le
  exact rep_two_zpow (by omega)

/-- From the threshold on, rounding toward zero apart, both sides overflow. -/
theorem threshold_le_round {mode : Mode} (h : Sides f k x y x') (hy : 2 ^ (f.emax + 1) ≤ y)
    (hb : ¬ (y = 2 ^ (f.emax + 1) ∧ (mode = .zero ∨ mode = .down))) :
    2 ^ (f.emax + 1) ≤ f.round mode x := by
  rcases lt_or_eq_of_le hy with hlt | heq
  · refine le_round_of_le rep_threshold ?_
    by_cases hk : k ≤ f.emax + 1
    · have := (Grid.zpow (K := K) hk).add_le_of_lt h.grid hlt
      linarith [h.below]
    · exact (two_zpow_le (by omega)).trans h.fine_left.le
  · -- the last stretch below the threshold rounds up to it
    have hk := Sides.lt_quant h.fine_left
    have hleft := h.left
    rw [← heq] at hleft
    have hq : f.quant x ≤ f.emax + 1 := by
      have h₁ := f.emin_lt
      have h₂ := f.qmin_eq
      have h₃ := f.three_le
      refine quant_le (by omega) ?_
      rw [abs_of_pos h.pos_left]
      exact hleft.trans_le (two_zpow_le (by omega))
    have hT : Grid (f.quant x) ((2 : K) ^ (f.emax + 1)) := Grid.zpow hq
    have hstep : (2 : K) * 2 ^ k ≤ 2 ^ f.quant x := by
      rw [← two_zpow_succ]
      exact two_zpow_le (by omega)
    have hbelow := h.below
    rw [← heq] at hbelow
    have hround := round_grid (f := f) mode x
    by_contra hlt'
    have hgap := hround.add_le_of_lt hT (not_le.mp hlt')
    cases mode with
    | nearest =>
        linarith [(abs_le.mp (abs_sub_round_le (f := f) x)).2]
    | zero => exact hb ⟨heq.symm, Or.inl rfl⟩
    | up =>
        have := two_zpow_pos (K := K) k
        linarith [self_le_round_up (f := f) x]
    | down => exact hb ⟨heq.symm, Or.inr rfl⟩

/-- **Two sides deliver the same** exactly when what lies between them is no
boundary. -/
theorem deliver_eq_iff {mode : Mode} (h : Sides f k x y x') :
    f.deliver mode x = f.deliver mode x' ↔ ¬ f.Boundary mode y := by
  have hprec := f.three_le
  unfold deliver Boundary
  dsimp only
  rw [not_or]
  rcases lt_or_ge y (2 ^ (f.emax + 1)) with hy | hy
  · by_cases hb : Grid (if mode = .nearest then f.quant y - 1 else f.quant y) y
    · -- a number of the format, or a midpoint
      refine iff_of_false ?_ fun hn => hn.1 ⟨hy, hb⟩
      by_cases hrep : Rep f y
      · have hle : f.round mode x ≤ y := round_le_of_le hrep h.left.le
        have hge : y ≤ f.round mode x' := le_round_of_le hrep h.right.le
        rw [if_neg (not_le.mpr (hle.trans_lt hy))]
        intro he
        split_ifs at he
        injection he with hv _ hup _
        have hveq : f.round mode x = y := le_antisymm hle (hv ▸ hge)
        rw [← hv, hveq, decide_eq_true h.left, eq_comm, decide_eq_true_iff] at hup
        exact absurd hup (not_lt.mpr h.right.le)
      · have hm : mode = .nearest := by
          by_contra hm
          rw [if_neg hm] at hb
          exact hrep hb
        rw [hm] at hb ⊢
        rw [if_pos rfl] at hb
        obtain ⟨hle, hge⟩ := round_lt_of_midpoint h hrep hb
        rw [if_neg (not_le.mpr (hle.trans hy))]
        intro he
        split_ifs at he
        injection he with hv
        rw [hv] at hle
        exact absurd (hle.trans hge) (lt_irrefl _)
    · refine iff_of_true ?_ ⟨fun hn => hb hn.2, fun hn => absurd hn.1 hy.ne⟩
      have hround := round_eq_of_sides h hb
      have hgrid : Grid k (f.round mode x) :=
        Grid.mono (Sides.lt_quant h.fine_left).le (round_grid mode x)
      have hrep : ¬ Rep f y := by
        intro hr
        refine hb ?_
        split_ifs
        · exact Grid.mono (by omega) hr
        · exact hr
      have hne : f.round mode x ≠ y := fun he => hrep (he ▸ round_rep mode x)
      have htiny : x < 2 ^ f.emin ↔ x' < 2 ^ f.emin := by
        by_cases hk : k ≤ f.emin
        · refine h.side_iff (Grid.zpow hk) fun he => hrep (he ▸ rep_two_zpow ?_)
          have := f.qmin_eq
          omega
        · have hlow := (two_zpow_le (K := K) (by omega : f.emin ≤ k + f.prec)).trans_lt h.fine_left
          refine iff_of_false (not_lt.mpr hlow.le) (not_lt.mpr ?_)
          linarith [h.left, h.right]
      rw [← hround]
      simp only [h.side_iff hgrid hne, htiny, h.ne_left hgrid, h.ne_right hgrid, ne_eq,
        not_false_eq_true]
  · by_cases hb : y = 2 ^ (f.emax + 1) ∧ (mode = .zero ∨ mode = .down)
    · refine iff_of_false ?_ fun hn => hn.2 hb
      have hle := round_le_self (f := f) hb.2 h.pos_left.le
      have hge : 2 ^ (f.emax + 1) ≤ f.round mode x' :=
        le_round_of_le rep_threshold (hy.trans h.right.le)
      rw [if_pos hge, if_neg (not_le.mpr (lt_of_le_of_lt hle (hb.1 ▸ h.left)))]
      rintro ⟨⟩
    · refine iff_of_true ?_ ⟨fun hn => absurd hn.1 (not_lt.mpr hy), hb⟩
      rw [if_pos (threshold_le_round h hy hb),
        if_pos (le_round_of_le rep_threshold (hy.trans h.right.le))]

end Sides

/-! ## Inside one step -/

section Inside

variable {k n : ℤ} {x x' : K}

/-- Strictly inside one step of a grid that is finer than the format's midpoints. -/
structure Inside (f : Format) (k n : ℤ) (x : K) : Prop where
  fine : 2 ^ (k + 1 + f.prec) ≤ (n * 2 ^ k : K)
  left : n * 2 ^ k < x
  right : x < (n + 1) * 2 ^ k

namespace Inside

theorem pos (h : Inside f k n x) : 0 < x := (two_zpow_pos _).trans_le (h.fine.trans h.left.le)

theorem lt_quant (h : Inside f k n x) : k + 1 < f.quant x :=
  Sides.lt_quant (lt_of_le_of_lt h.fine h.left)

/-- No point of the grid separates two such numbers. -/
theorem lt_iff (h : Inside f k n x) (h' : Inside f k n x') {w : K} (hw : Grid k w) :
    x < w ↔ x' < w := by
  have key : ∀ {y y' : K}, Inside f k n y → Inside f k n y' → y < w → y' < w := by
    intro y y' hy hy' hlt
    have hstep := (Grid.intMul (K := K) n).add_le_of_lt hw (hy.left.trans hlt)
    linarith [hy'.right]
  exact ⟨key h h', key h' h⟩

theorem ne (h : Inside f k n x) {w : K} (hw : Grid k w) : w ≠ x := by
  rintro rfl
  linarith [(Grid.intMul (K := K) n).add_le_of_lt hw h.left, h.right]

theorem quant_le (h : Inside f k n x) (h' : Inside f k n x') : f.quant x' ≤ f.quant x := by
  have hk := h.lt_quant
  refine Format.quant_le (qmin_le_quant x) ?_
  have hroom := abs_lt_of_quant (f := f) x
  rw [abs_of_pos h.pos] at hroom
  rw [abs_of_pos h'.pos]
  exact (h.lt_iff h' (Grid.zpow (by omega))).mp hroom

theorem quant_eq (h : Inside f k n x) (h' : Inside f k n x') : f.quant x = f.quant x' :=
  le_antisymm (h'.quant_le h) (h.quant_le h')

theorem round_eq (h : Inside f k n x) (h' : Inside f k n x') (mode : Mode) :
    f.round mode x = f.round mode x' := by
  have hk := h.lt_quant
  unfold round
  rw [← h.quant_eq h']
  obtain ⟨q, hq⟩ : ∃ q, f.quant x = q := ⟨_, rfl⟩
  rw [hq] at hk ⊢
  have hpos := two_zpow_pos (K := K) q
  congr 2
  by_cases hm : mode = .nearest
  · obtain ⟨m, hlo, hhi⟩ := cell_coarser (K := K) (show k ≤ q - 1 by omega) n
    have hhalf : (2 : K) ^ q = 2 * 2 ^ (q - 1) := two_zpow_pred _
    have hcell : ∀ {w : K}, Inside f k n w → (m : K) / 2 < w / 2 ^ q ∧ w / 2 ^ q < (m + 1) / 2 := by
      intro w hw
      rw [lt_div_iff₀ hpos, div_lt_iff₀ hpos, hhalf]
      constructor <;> linarith [hw.left, hw.right]
    rw [hm]
    exact nearestEven_eq_of_cell (hcell h) (hcell h')
  · obtain ⟨m, hlo, hhi⟩ := cell_coarser (K := K) (show k ≤ q by omega) n
    have hcell : ∀ {w : K}, Inside f k n w → (m : K) < w / 2 ^ q ∧ w / 2 ^ q < m + 1 := by
      intro w hw
      rw [lt_div_iff₀ hpos, div_lt_iff₀ hpos]
      constructor <;> linarith [hw.left, hw.right]
    exact toInt_eq_of_cell hm (div_nonneg h.pos.le hpos.le) (div_nonneg h'.pos.le hpos.le) (hcell h)
      (hcell h')

/-- **Inside one step everything is delivered alike.** -/
theorem deliver_eq (h : Inside f k n x) (h' : Inside f k n x') (mode : Mode) :
    f.deliver mode x = f.deliver mode x' := by
  have hk := h.lt_quant
  have hv : Grid k (f.round mode x) := Grid.mono (by omega) (round_grid mode x)
  have hround := h.round_eq h' mode
  have hinexact : f.round mode x ≠ x ↔ f.round mode x ≠ x' := iff_of_true (h.ne hv) (h'.ne hv)
  have hup := h.lt_iff h' hv
  have hunder : x < 2 ^ f.emin ↔ x' < 2 ^ f.emin := by
    by_cases hle : k ≤ f.emin
    · exact h.lt_iff h' (Grid.zpow hle)
    · -- both are far above the normal range's start
      have hbig : (2 : K) ^ f.emin ≤ n * 2 ^ k := (two_zpow_le (by omega)).trans h.fine
      exact iff_of_false (by linarith [h.left]) (by linarith [h'.left])
  unfold deliver
  dsimp only
  rw [← hround]
  simp only [hinexact, hup, hunder]

end Inside

end Inside

end Format

end Rounding
