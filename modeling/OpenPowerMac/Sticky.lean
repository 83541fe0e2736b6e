/-
Numbers held as an integer and a sticky bit.

An accumulator keeps the integer part of what it holds, and of the rest only
whether there is any (`Held`). Shifting digits out keeps the number held
(`Held.shift`), and what is held is enough to round to any coarser integer: the
floor is the integer itself, the ceiling adds the sticky bit, and nearest
rounding needs one digit more (`Held.nearestEven_half`). `Held.deliver` reads the
whole outcome off the digits.
-/
import OpenPowerMac.Boundary

set_option autoImplicit false
set_option linter.unusedSectionVars false

namespace Rounding

variable {K : Type*} [Field K] [LinearOrder K] [IsStrictOrderedRing K]

/-- `y` is held as the integer `n`, and `sticky` says whether anything is left
over. -/
structure Held (n : ℕ) (sticky : Bool) (y : K) : Prop where
  le : (n : K) ≤ y
  lt : y < n + 1
  exact_iff : sticky = false ↔ y = n

namespace Held

variable {n : ℕ} {s : Bool} {y : K}

theorem natCast (n : ℕ) : Held n false (n : K) := ⟨le_refl _, by linarith, by simp⟩

theorem nonneg (h : Held n s y) : 0 ≤ y := n.cast_nonneg.trans h.le

/-- With something left over the number lies strictly between. -/
theorem lt_of_sticky (h : Held n true y) : (n : K) < y :=
  lt_of_le_of_ne h.le fun he => Bool.false_ne_true (h.exact_iff.mpr he.symm).symm

theorem of_lt (h₁ : (n : K) < y) (h₂ : y < n + 1) : Held n true y :=
  ⟨h₁.le, h₂, by simp [h₁.ne']⟩

/-- Moving by an integer keeps what is left over. -/
theorem add (h : Held n s y) (m : ℕ) : Held (n + m) s (y + m) := by
  refine ⟨?_, ?_, h.exact_iff.trans ?_⟩
  · push_cast
    linarith [h.le]
  · push_cast
    linarith [h.lt]
  · push_cast
    exact (add_left_inj _).symm

/-- **Shifting digits out**: they are jammed into the sticky bit. -/
theorem shift (h : Held n s y) (j : ℕ) :
    Held (n / 2 ^ j) (s || n % 2 ^ j != 0) (y / 2 ^ j) := by
  have hpos : (0 : K) < 2 ^ j := by positivity
  have hdm : ((2 ^ j * (n / 2 ^ j) + n % 2 ^ j : ℕ) : K) = n := by rw [Nat.div_add_mod]
  have hmod : ((n % 2 ^ j : ℕ) : K) + 1 ≤ 2 ^ j := by
    exact_mod_cast Nat.mod_lt n (Nat.two_pow_pos j)
  have hmod0 : (0 : K) ≤ ((n % 2 ^ j : ℕ) : K) := Nat.cast_nonneg _
  push_cast at hdm
  refine ⟨?_, ?_, ?_⟩
  · rw [le_div_iff₀ hpos]
    linarith [h.le]
  · rw [div_lt_iff₀ hpos]
    linarith [h.lt]
  · rw [Bool.or_eq_false_iff, bne_eq_false_iff_eq, div_eq_iff hpos.ne', h.exact_iff]
    constructor
    · rintro ⟨hy, hz⟩
      rw [hz, Nat.cast_zero] at hdm
      linarith
    · intro hy
      -- nothing below, so neither a remainder nor a sticky bit
      have hz : ((n % 2 ^ j : ℕ) : K) = 0 := by linarith [h.le]
      exact ⟨by linarith, by exact_mod_cast hz⟩

/-- An increment made only where something is left over misses the number exactly then. -/
theorem stepped_ne_iff (h : Held n s y) {inc : Bool} (hs : inc = true → s = true) :
    ((n + inc.toNat : ℕ) : K) ≠ y ↔ s = true := by
  cases s with
  | false =>
      have hinc : inc = false := by
        cases inc with
        | false => rfl
        | true => exact absurd (hs rfl) Bool.false_ne_true
      rw [hinc, h.exact_iff.mp rfl]
      simp
  | true =>
      have hlt := h.lt_of_sticky
      have hlt' := h.lt
      cases inc with
      | false => simpa using hlt.ne
      | true => simpa using hlt'.ne'

/-- The number lies below what is delivered just when it was incremented. -/
theorem lt_stepped_iff (h : Held n s y) {inc : Bool} :
    y < ((n + inc.toNat : ℕ) : K) ↔ inc = true := by
  have hle := h.le
  have hlt := h.lt
  cases inc with
  | false => simpa using hle
  | true => simpa using hlt

section Floor

variable [FloorRing K]

theorem floor_eq (h : Held n s y) : ⌊y⌋ = n :=
  Int.floor_eq_iff.mpr ⟨by exact_mod_cast h.le, by exact_mod_cast h.lt⟩

theorem ceil_eq (h : Held n s y) : ⌈y⌉ = n + s.toNat := by
  cases s with
  | false =>
      rw [h.exact_iff.mp rfl]
      simp
  | true =>
      refine Int.ceil_eq_iff.mpr ⟨?_, ?_⟩
      · push_cast
        rw [Bool.toNat_true, Nat.cast_one]
        linarith [h.lt_of_sticky]
      · push_cast
        rw [Bool.toNat_true, Nat.cast_one]
        exact h.lt.le

theorem toInt_zero (h : Held n s y) : Mode.zero.toInt y = n :=
  (if_pos h.nonneg).trans h.floor_eq

/-- **The guard digit decides nearest rounding**, with the sticky bit or, on a
tie, the parity of what is kept. -/
theorem nearestEven_half (h : Held n s y) :
    nearestEven (y / 2) = n / 2 + (n % 2 == 1 && (s || n / 2 % 2 == 1)).toNat := by
  have hdm : ((2 * (n / 2) + n % 2 : ℕ) : K) = n := by rw [Nat.div_add_mod]
  push_cast at hdm
  have hle := h.le
  have hlt := h.lt
  obtain ⟨m, hm⟩ : ∃ m, n / 2 = m := ⟨_, rfl⟩
  have hcast : ((n : ℤ) / 2) = (m : ℤ) := by omega
  rw [hm] at hdm ⊢
  rw [hcast]
  rcases Nat.mod_two_eq_zero_or_one n with hg | hg <;> rw [hg] at hdm ⊢
  · -- below the midpoint
    rw [nearestEven_eq_iff]
    left
    push_cast at hdm ⊢
    rw [abs_lt]
    constructor <;> simp <;> linarith
  · cases s with
    | true =>
        have hgt := h.lt_of_sticky
        rw [nearestEven_eq_iff]
        left
        push_cast at hdm ⊢
        rw [abs_lt]
        constructor <;> simp <;> linarith
    | false =>
        -- a tie
        have hy := h.exact_iff.mp rfl
        rw [nearestEven_eq_iff]
        right
        rcases Nat.mod_two_eq_zero_or_one m with he | ho
        · rw [he]
          refine ⟨?_, by simpa using Nat.even_iff.mpr he⟩
          push_cast at hdm
          rw [hy, ← hdm, abs_of_pos (by simp; linarith)]
          simp
          ring
        · rw [ho]
          refine ⟨?_, ?_⟩
          · push_cast at hdm
            rw [hy, ← hdm, abs_of_neg (by simp; linarith)]
            simp
            ring
          · simpa using Nat.odd_iff.mpr ho

/-- **What is delivered**, from the digits a format keeps of a magnitude and the
increment its direction asks for. -/
theorem deliver {f : Format} {mode : Mode} {x : K} {inc : Bool} (h : Held n s (x / 2 ^ f.quant x))
    (hinc : mode.toInt (x / 2 ^ f.quant x) = n + inc.toNat) (hs : inc = true → s = true) :
    f.deliver mode x = if 2 ^ (f.emax + 1) ≤ ((n + inc.toNat : ℕ) : K) * 2 ^ f.quant x then .overflow
      else .finite (((n + inc.toNat : ℕ) : K) * 2 ^ f.quant x) s inc (decide (x < 2 ^ f.emin) && s) := by
  have hpos := two_zpow_pos (K := K) (f.quant x)
  have hv : f.round mode x = ((n + inc.toNat : ℕ) : K) * 2 ^ f.quant x := by
    unfold Format.round
    rw [hinc]
    push_cast
    rfl
  have hne : f.round mode x ≠ x ↔ s = true := by
    rw [hv, ne_eq, ← eq_div_iff hpos.ne']
    exact h.stepped_ne_iff hs
  have hup : x < f.round mode x ↔ inc = true := by
    rw [hv, ← div_lt_iff₀ hpos]
    exact h.lt_stepped_iff
  unfold Format.deliver
  dsimp only
  rw [hv] at hne hup ⊢
  simp only [hne, hup, Bool.decide_and, Bool.decide_eq_true]

end Floor

end Held

end Rounding
