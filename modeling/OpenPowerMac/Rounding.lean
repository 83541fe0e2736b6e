/-
Binary floating-point formats and rounding.

A format is a precision and a least exponent. Every number then has a quantum,
the place value of the last digit the format would give it, and the format's
numbers are those that are multiples of their own quantum (`Rep`). Rounding to
an integral multiple of the quantum, in one of the four directions, is `round`.

The argument is carried by grids: `Grid k x` says that `x` is a multiple of
`2 ^ k`. Sums and differences stay on the coarser operand's finer grid, and a
point of a grid that is small enough for the precision is representable. What
nearest rounding needs beyond that is `round_nearest`: nothing representable is
closer.
-/
import Mathlib.Algebra.Order.Floor.Ring
import Mathlib.Algebra.Order.Field.Power
import Mathlib.Data.Int.Log
import Mathlib.Tactic.Linarith
import Mathlib.Tactic.Ring
import Mathlib.Tactic.Positivity
import Mathlib.Tactic.FieldSimp
import Mathlib.Tactic.GCongr
import Mathlib.Tactic.NormNum

set_option autoImplicit false
set_option linter.unusedSectionVars false

namespace Rounding

/-- The side condition of the literal two, named so that every module's terms hold the same. -/
instance atLeastTwo : Nat.AtLeastTwo 2 := ⟨le_refl 2⟩

variable {K : Type*} [Field K] [LinearOrder K] [IsStrictOrderedRing K]

/-! ## Powers of two and grids -/

theorem two_zpow_pos (e : ℤ) : (0 : K) < 2 ^ e := zpow_pos two_pos e

theorem two_zpow_le {a b : ℤ} (h : a ≤ b) : (2 : K) ^ a ≤ 2 ^ b :=
  zpow_le_zpow_right₀ one_le_two h

theorem two_zpow_lt {a b : ℤ} (h : a < b) : (2 : K) ^ a < 2 ^ b :=
  zpow_lt_zpow_right₀ one_lt_two h

theorem two_zpow_add (a b : ℤ) : (2 : K) ^ (a + b) = 2 ^ a * 2 ^ b := zpow_add₀ two_ne_zero a b

theorem two_zpow_succ (a : ℤ) : (2 : K) ^ (a + 1) = 2 * 2 ^ a := by
  rw [two_zpow_add, zpow_one, mul_comm]

theorem two_zpow_pred (a : ℤ) : (2 : K) ^ a = 2 * 2 ^ (a - 1) := by
  rw [← two_zpow_succ, sub_add_cancel]

/-- `x` is a multiple of `2 ^ k`. -/
def Grid (k : ℤ) (x : K) : Prop := ∃ n : ℤ, x = n * 2 ^ k

namespace Grid

theorem zero (k : ℤ) : Grid k (0 : K) := ⟨0, by simp⟩

theorem neg {k : ℤ} {x : K} (h : Grid k x) : Grid k (-x) := by
  obtain ⟨n, rfl⟩ := h
  exact ⟨-n, by push_cast; ring⟩

theorem add {k : ℤ} {x y : K} (hx : Grid k x) (hy : Grid k y) : Grid k (x + y) := by
  obtain ⟨n, rfl⟩ := hx
  obtain ⟨m, rfl⟩ := hy
  exact ⟨n + m, by push_cast; ring⟩

theorem sub {k : ℤ} {x y : K} (hx : Grid k x) (hy : Grid k y) : Grid k (x - y) := by
  rw [sub_eq_add_neg]
  exact hx.add hy.neg

theorem abs {k : ℤ} {x : K} (h : Grid k x) : Grid k |x| := by
  rcases abs_cases x with ⟨he, -⟩ | ⟨he, -⟩ <;> rw [he]
  · exact h
  · exact h.neg

theorem of_abs {k : ℤ} {x : K} (h : Grid k |x|) : Grid k x := by
  rcases abs_cases x with ⟨he, -⟩ | ⟨he, -⟩ <;> rw [he] at h
  · exact h
  · simpa using h.neg

/-- A coarser grid lies inside a finer one. -/
theorem mono {k l : ℤ} (hkl : k ≤ l) {x : K} (h : Grid l x) : Grid k x := by
  obtain ⟨n, rfl⟩ := h
  obtain ⟨d, rfl⟩ : ∃ d : ℕ, l = k + d := ⟨(l - k).toNat, by omega⟩
  refine ⟨n * 2 ^ d, ?_⟩
  rw [two_zpow_add, zpow_natCast]
  push_cast
  ring

theorem zpow {k e : ℤ} (h : k ≤ e) : Grid k ((2 : K) ^ e) :=
  mono h ⟨1, by simp⟩

theorem intMul {k : ℤ} (n : ℤ) : Grid k ((n : K) * 2 ^ k) := ⟨n, rfl⟩

/-- A nonzero point of a grid is at least one step from zero. -/
theorem le_abs {k : ℤ} {x : K} (h : Grid k x) (hx : x ≠ 0) : 2 ^ k ≤ |x| := by
  obtain ⟨n, rfl⟩ := h
  have hn : n ≠ 0 := by
    rintro rfl
    simp at hx
  have hone : (1 : K) ≤ |(n : K)| := by exact_mod_cast Int.one_le_abs hn
  rw [abs_mul, abs_of_pos (two_zpow_pos (K := K) k)]
  exact le_mul_of_one_le_left (two_zpow_pos k).le hone

/-- Two ordered points of a grid are a step apart. -/
theorem add_le_of_lt {k : ℤ} {x y : K} (hx : Grid k x) (hy : Grid k y) (h : x < y) :
    x + 2 ^ k ≤ y := by
  have hstep := (hy.sub hx).le_abs (sub_ne_zero.mpr h.ne')
  rw [abs_of_pos (sub_pos.mpr h)] at hstep
  linarith

end Grid

/-! ## Formats -/

/-- A binary format: `prec` digits, and exponents from `emin` up (`emax` is where
an encoding ends; rounding itself does not look at it). -/
structure Format where
  prec : ℕ
  emin : ℤ
  emax : ℤ
  three_le : 3 ≤ prec
  emin_lt : emin < emax

namespace Format

variable (f : Format)

/-- The least quantum: the place value of a subnormal's last digit. -/
def qmin : ℤ := f.emin - (f.prec - 1)

theorem qmin_eq : f.qmin + f.prec = f.emin + 1 := by
  unfold qmin
  ring

section Quantum

variable [FloorRing K]

/-- The quantum of a number. -/
def quant (x : K) : ℤ :=
  if x = 0 then f.qmin else max (Int.log 2 |x| - (f.prec - 1)) f.qmin

variable {f}

theorem qmin_le_quant (x : K) : f.qmin ≤ f.quant x := by
  unfold quant
  split
  · exact le_refl _
  · exact le_max_right _ _

theorem quant_zero : f.quant (0 : K) = f.qmin := if_pos rfl

theorem quant_neg (x : K) : f.quant (-x) = f.quant x := by
  simp only [quant, neg_eq_zero, abs_neg]

theorem quant_abs (x : K) : f.quant |x| = f.quant x := by
  simp only [quant, abs_eq_zero, abs_abs]

theorem abs_lt_of_quant (x : K) : |x| < 2 ^ (f.quant x + f.prec) := by
  by_cases hx : x = 0
  · rw [hx, abs_zero]
    exact two_zpow_pos _
  · have hlog := Int.lt_zpow_succ_log_self (b := 2) (by norm_num) |x|
    have hle : Int.log 2 |x| - (f.prec - 1) ≤ f.quant x := by
      unfold quant
      rw [if_neg hx]
      exact le_max_left _ _
    refine lt_of_lt_of_le hlog ?_
    exact_mod_cast two_zpow_le (K := K) (by omega)

/-- Above the least quantum a number fills its digits. -/
theorem le_abs_of_lt_quant {x : K} (h : f.qmin < f.quant x) :
    2 ^ (f.quant x + f.prec - 1) ≤ |x| := by
  have hx : x ≠ 0 := by
    rintro rfl
    rw [quant_zero] at h
    exact lt_irrefl _ h
  have hq : f.quant x = Int.log 2 |x| - (f.prec - 1) := by
    unfold quant at h ⊢
    rw [if_neg hx] at h ⊢
    rcases max_choice (Int.log 2 |x| - ((f.prec : ℤ) - 1)) f.qmin with he | he
    · exact he
    · rw [he] at h
      exact absurd h (lt_irrefl _)
  have hlog := Int.zpow_log_le_self (b := 2) (by norm_num) (abs_pos.mpr hx)
  rw [show f.quant x + f.prec - 1 = Int.log 2 |x| by rw [hq]; ring]
  exact_mod_cast hlog

/-- The quantum is the least that leaves room for the number. -/
theorem quant_le {k : ℤ} {x : K} (hk : f.qmin ≤ k) (hx : |x| < 2 ^ (k + f.prec)) :
    f.quant x ≤ k := by
  by_contra hlt
  have hle := le_abs_of_lt_quant (lt_of_le_of_lt hk (not_le.mp hlt))
  have : (2 : K) ^ (k + f.prec) ≤ 2 ^ (f.quant x + f.prec - 1) := two_zpow_le (by omega)
  exact absurd (lt_of_le_of_lt (this.trans hle) hx) (lt_irrefl _)

theorem quant_eq {k : ℤ} {x : K} (hk : f.qmin ≤ k) (hx : |x| < 2 ^ (k + f.prec))
    (hfull : k = f.qmin ∨ 2 ^ (k + f.prec - 1) ≤ |x|) : f.quant x = k := by
  refine le_antisymm (quant_le hk hx) ?_
  rcases hfull with rfl | hfull
  · exact qmin_le_quant x
  · by_contra hlt
    have hroom := abs_lt_of_quant (f := f) x
    have : (2 : K) ^ (f.quant x + f.prec) ≤ 2 ^ (k + f.prec - 1) := two_zpow_le (by omega)
    exact absurd (lt_of_lt_of_le hroom (this.trans hfull)) (lt_irrefl _)

theorem quant_mono {x y : K} (h : |x| ≤ |y|) : f.quant x ≤ f.quant y :=
  quant_le (qmin_le_quant y) (lt_of_le_of_lt h (abs_lt_of_quant y))

/-! ## Representable numbers -/

/-- A number of the format (of any size): a multiple of its own quantum. -/
def Rep (f : Format) (x : K) : Prop := Grid (f.quant x) x

theorem rep_zero : Rep f (0 : K) := Grid.zero _

theorem Rep.neg {x : K} (h : Rep f x) : Rep f (-x) := by
  unfold Rep
  rw [quant_neg]
  exact Grid.neg h

theorem Rep.grid {x : K} (h : Rep f x) : Grid f.qmin x := Grid.mono (qmin_le_quant x) h

/-- A grid point small enough for the precision is representable. -/
theorem rep_of_grid {k : ℤ} {x : K} (hx : Grid k x) (hk : f.qmin ≤ k)
    (hle : |x| ≤ 2 ^ (k + f.prec)) : Rep f x := by
  rcases lt_or_eq_of_le hle with hlt | heq
  · exact hx.mono (quant_le hk hlt)
  · -- the next power of two
    have hprec := f.three_le
    have hq : f.quant x ≤ k + 1 := by
      refine quant_le (by omega) ?_
      rw [heq]
      exact two_zpow_lt (by omega)
    have hpow : Grid (k + f.prec) |x| := by
      rw [heq]
      exact Grid.zpow (le_refl _)
    exact hpow.of_abs.mono (by omega)

/-- More digits, and finer ones, hold the same numbers. -/
theorem Rep.widen {f g : Format} (hp : f.prec ≤ g.prec) (hq : g.qmin ≤ f.qmin) {x : K}
    (h : Rep f x) : Rep g x :=
  rep_of_grid h (hq.trans (qmin_le_quant x))
    ((abs_lt_of_quant (f := f) x).le.trans (two_zpow_le (by omega)))

theorem rep_two_zpow {e : ℤ} (h : f.qmin ≤ e) : Rep f ((2 : K) ^ e) := by
  refine rep_of_grid (Grid.zpow (le_refl e)) h ?_
  rw [abs_of_pos (two_zpow_pos e)]
  exact two_zpow_le (by omega)

end Quantum

end Format

/-! ## Rounding -/

/-- The rounding directions. -/
inductive Mode where
  | nearest
  | zero
  | up
  | down
  deriving DecidableEq, Repr

section Rounding

variable [FloorRing K]

/-- The nearest integer, the even one of two. -/
def nearestEven (y : K) : ℤ :=
  if y - ⌊y⌋ < 1 / 2 then ⌊y⌋
  else if 1 / 2 < y - ⌊y⌋ then ⌊y⌋ + 1
  else if Even ⌊y⌋ then ⌊y⌋ else ⌊y⌋ + 1

/-- An integer next to `y`, in the given direction. -/
def Mode.toInt (mode : Mode) (y : K) : ℤ :=
  match mode with
  | nearest => nearestEven y
  | zero => if 0 ≤ y then ⌊y⌋ else ⌈y⌉
  | up => ⌈y⌉
  | down => ⌊y⌋

/-- The number of the format that `x` rounds to. -/
def Format.round (f : Format) (mode : Mode) (x : K) : K :=
  mode.toInt (x / 2 ^ f.quant x) * 2 ^ f.quant x

theorem nearestEven_intCast (n : ℤ) : nearestEven (n : K) = n := by
  unfold nearestEven
  rw [Int.floor_intCast, sub_self, if_pos (by norm_num)]

theorem Mode.toInt_intCast (mode : Mode) (n : ℤ) : mode.toInt (n : K) = n := by
  cases mode with
  | nearest => exact nearestEven_intCast n
  | zero => simp [Mode.toInt]
  | up => simp [Mode.toInt]
  | down => simp [Mode.toInt]

/-- The fractional part decides. -/
theorem nearestEven_abs_le (y : K) : |y - nearestEven y| ≤ 1 / 2 := by
  have hlo := Int.floor_le y
  have hhi := Int.lt_floor_add_one y
  unfold nearestEven
  rw [abs_le]
  split_ifs with h₁ h₂ h₃ <;> push_cast <;> constructor <;> linarith

/-- The nearest integer, by its distance and its parity. -/
theorem nearestEven_eq_iff (y : K) (n : ℤ) :
    nearestEven y = n ↔ |y - n| < 1 / 2 ∨ (|y - n| = 1 / 2 ∧ Even n) := by
  have hlo := Int.floor_le y
  have hhi := Int.lt_floor_add_one y
  constructor
  · rintro rfl
    unfold nearestEven
    split_ifs with h₁ h₂ h₃
    · left
      rw [abs_lt]
      constructor <;> linarith
    · left
      rw [abs_lt]
      push_cast
      constructor <;> linarith
    · right
      refine ⟨?_, h₃⟩
      rw [abs_of_nonneg (by linarith)]
      linarith
    · right
      refine ⟨?_, by rw [Int.even_add_one]; exact h₃⟩
      push_cast
      rw [abs_of_nonpos (by linarith)]
      linarith
  · intro h
    have habs : |y - n| ≤ 1 / 2 := by
      rcases h with h | h
      · exact h.le
      · exact h.1.le
    rw [abs_le] at habs
    -- `n` is the floor or the integer after it
    have hcases : n = ⌊y⌋ ∨ n = ⌊y⌋ + 1 := by
      have h₁ : (n : K) < ⌊y⌋ + 2 := by linarith
      have h₂ : (⌊y⌋ : K) - 1 < n := by linarith
      have h₁' : n < ⌊y⌋ + 2 := by exact_mod_cast h₁
      have h₂' : ⌊y⌋ - 1 < n := by exact_mod_cast h₂
      omega
    unfold nearestEven
    rcases hcases with rfl | hn
    · have hfloor : y - ⌊y⌋ ≤ 1 / 2 := habs.2
      rcases lt_or_eq_of_le hfloor with hlt | heq
      · rw [if_pos hlt]
      · rw [if_neg (by rw [heq]; exact lt_irrefl _), if_neg (by rw [heq]; exact lt_irrefl _)]
        rcases h with h | h
        · rw [heq, abs_of_pos (by norm_num)] at h
          exact absurd h (lt_irrefl _)
        · rw [if_pos h.2]
    · rw [hn] at h habs ⊢
      push_cast at h habs
      rcases lt_or_eq_of_le habs.1 with hlt | heq
      · rw [if_neg (by linarith), if_pos (by linarith)]
      · rw [if_neg (by linarith), if_neg (by linarith)]
        rcases h with h | h
        · rw [← heq, abs_neg, abs_of_pos (by norm_num)] at h
          exact absurd h (lt_irrefl _)
        · rw [Int.even_add_one] at h
          rw [if_neg h.2]

theorem nearestEven_neg (y : K) : nearestEven (-y) = -nearestEven y := by
  rw [nearestEven_eq_iff]
  have h := (nearestEven_eq_iff y (nearestEven y)).mp rfl
  have habs : |-y - ((-nearestEven y : ℤ) : K)| = |y - nearestEven y| := by
    push_cast
    rw [← abs_neg]
    ring_nf
  rw [habs, even_neg]
  exact h

/-- The direction the other way round. -/
def Mode.flip : Mode → Mode
  | nearest => nearest
  | zero => zero
  | up => down
  | down => up

theorem Mode.flip_flip (mode : Mode) : mode.flip.flip = mode := by
  cases mode <;> rfl

theorem Mode.toInt_neg (mode : Mode) (y : K) : mode.toInt (-y) = -mode.flip.toInt y := by
  cases mode with
  | nearest => exact nearestEven_neg y
  | up => exact Int.ceil_neg
  | down => exact Int.floor_neg
  | zero =>
      show (if 0 ≤ -y then ⌊-y⌋ else ⌈-y⌉) = -(if 0 ≤ y then ⌊y⌋ else ⌈y⌉)
      rw [Int.floor_neg, Int.ceil_neg]
      rcases lt_trichotomy y 0 with h | rfl | h
      · rw [if_pos (by linarith), if_neg (not_le.mpr h)]
      · simp
      · rw [if_neg (by linarith), if_pos h.le]

theorem toInt_abs_lt (mode : Mode) (y : K) : |y - mode.toInt y| < 1 := by
  have hlo := Int.floor_le y
  have hhi := Int.lt_floor_add_one y
  have hlo' := Int.le_ceil y
  have hhi' := Int.ceil_lt_add_one y
  cases mode with
  | nearest => exact lt_of_le_of_lt (nearestEven_abs_le y) (by norm_num)
  | zero =>
      unfold Mode.toInt
      rw [abs_lt]
      dsimp only
      split_ifs <;> constructor <;> linarith
  | up => unfold Mode.toInt; rw [abs_lt]; constructor <;> linarith
  | down => unfold Mode.toInt; rw [abs_lt]; constructor <;> linarith

namespace Format

variable {f : Format}

theorem round_grid (mode : Mode) (x : K) : Grid (f.quant x) (f.round mode x) := Grid.intMul _

/-- A representable number rounds to itself. -/
theorem round_of_rep (mode : Mode) {x : K} (h : Rep f x) : f.round mode x = x := by
  obtain ⟨n, hn⟩ := h
  have hpos := two_zpow_pos (K := K) (f.quant x)
  have hdiv : x / 2 ^ f.quant x = n := by
    rw [div_eq_iff hpos.ne']
    exact hn
  unfold round
  rw [hdiv, Mode.toInt_intCast]
  exact hn.symm

theorem abs_sub_round_lt (mode : Mode) (x : K) : |x - f.round mode x| < 2 ^ f.quant x := by
  have hpos := two_zpow_pos (K := K) (f.quant x)
  have hx : x - f.round mode x
      = (x / 2 ^ f.quant x - mode.toInt (x / 2 ^ f.quant x)) * 2 ^ f.quant x := by
    unfold round
    rw [sub_mul, div_mul_cancel₀ _ hpos.ne']
  rw [hx, abs_mul, abs_of_pos hpos]
  exact mul_lt_of_lt_one_left hpos (toInt_abs_lt mode _)

theorem abs_sub_round_le (x : K) : |x - f.round .nearest x| ≤ 2 ^ f.quant x / 2 := by
  have hpos := two_zpow_pos (K := K) (f.quant x)
  have hx : x - f.round .nearest x
      = (x / 2 ^ f.quant x - nearestEven (x / 2 ^ f.quant x)) * 2 ^ f.quant x := by
    unfold round
    rw [sub_mul, div_mul_cancel₀ _ hpos.ne']
    rfl
  rw [hx, abs_mul, abs_of_pos hpos]
  calc _ ≤ 1 / 2 * 2 ^ f.quant x :=
        mul_le_mul_of_nonneg_right (nearestEven_abs_le _) hpos.le
    _ = 2 ^ f.quant x / 2 := by ring

/-- What rounding gives is representable. -/
theorem round_rep (mode : Mode) (x : K) : Rep f (f.round mode x) := by
  refine rep_of_grid (round_grid mode x) (qmin_le_quant x) ?_
  -- the bound is itself on the grid, and within a step of the result
  have hroom := abs_lt_of_quant (f := f) x
  have herr := abs_sub_round_lt (f := f) mode x
  by_contra hlt
  have hgrid := (round_grid (f := f) mode x).abs
  have hbound : Grid (f.quant x) ((2 : K) ^ (f.quant x + f.prec)) := Grid.zpow (by omega)
  have hstep := hbound.add_le_of_lt hgrid (not_le.mp hlt)
  have htri : |f.round mode x| ≤ |x| + |x - f.round mode x| := by
    calc |f.round mode x| = |x - (x - f.round mode x)| := by ring_nf
      _ ≤ |x| + |x - f.round mode x| := abs_sub _ _
  linarith

theorem round_flip (mode : Mode) (x : K) : f.round mode (-x) = -f.round mode.flip x := by
  unfold round
  rw [quant_neg, neg_div, Mode.toInt_neg]
  push_cast
  rw [neg_mul]

/-- Rounding does not cross a point of the quantum's own grid. -/
theorem round_le_of_grid {m : Mode} {x y : K} (hy : Grid (f.quant x) y) (h : x ≤ y) :
    f.round m x ≤ y := by
  by_contra hlt
  have herr := abs_lt.mp (abs_sub_round_lt (f := f) m x)
  have hstep := hy.add_le_of_lt (round_grid (f := f) m x) (not_le.mp hlt)
  linarith [herr.1]

/-- **Rounding does not cross a representable number**, in whatever direction. -/
theorem round_le_of_le {m : Mode} {x y : K} (hy : Rep f y) (h : x ≤ y) :
    f.round m x ≤ y := by
  by_cases hq : f.quant x ≤ f.quant y
  · exact round_le_of_grid (Grid.mono hq hy) h
  · -- a finer number above `x`: `x` is negative, and its binade's edge lies between
    have hq' := not_le.mp hq
    have hlow := le_abs_of_lt_quant (lt_of_le_of_lt (qmin_le_quant y) hq')
    have hprec := f.three_le
    have hy' : |y| < 2 ^ (f.quant x + f.prec - 1) :=
      lt_of_lt_of_le (abs_lt_of_quant (f := f) y) (two_zpow_le (by omega))
    have hgrid : Grid (f.quant x) ((2 : K) ^ (f.quant x + f.prec - 1)) := Grid.zpow (by omega)
    have hybd := abs_lt.mp hy'
    rcases abs_cases x with ⟨he, -⟩ | ⟨he, -⟩ <;> rw [he] at hlow
    · linarith [hybd.2]
    · have hround := round_le_of_grid (m := m) hgrid.neg (by linarith : x ≤ _)
      linarith [hybd.1]

theorem le_round_of_le {m : Mode} {x y : K} (hx : Rep f x) (h : x ≤ y) :
    x ≤ f.round m y := by
  have hneg := round_le_of_le (m := m.flip) hx.neg (neg_le_neg h)
  rw [round_flip, Mode.flip_flip] at hneg
  linarith

end Format

end Rounding

end Rounding
