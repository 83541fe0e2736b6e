/-
The 128-bit accumulator.

Two 64-bit halves stand for one number, `U128.val`; each operation of the source
is one of arithmetic on it. The right shift loses digits, and what its jam bit
says about them is what `Held` says: the number is held, jam and all, where it
was held before (`shr128jam_held`). Unpacking is here too, for it is what fills the
accumulator: a finite double is its significand, aligned to the top, on its
exponent.
-/
import OpenPowerMac.RoundPack

set_option autoImplicit false

namespace OpenPowerMac

open Rounding

namespace Sf

/-- The number two halves stand for. -/
def U128.val (v : U128) : ℕ := v.hi.toNat * 2 ^ 64 + v.lo.toNat

theorem U128.val_lt (v : U128) : v.val < 2 ^ 128 := by
  have h₁ := v.hi.isLt
  have h₂ := v.lo.isLt
  unfold U128.val
  omega

theorem U128.val_div (v : U128) : v.val / 2 ^ 64 = v.hi.toNat := by
  have h := v.lo.isLt
  unfold U128.val
  omega

theorem U128.val_mod (v : U128) : v.val % 2 ^ 64 = v.lo.toNat := by
  have h := v.lo.isLt
  unfold U128.val
  omega

theorem ne_zero_iff (x : U64) : x ≠ 0#64 ↔ x.toNat ≠ 0 := by
  rw [ne_eq, ne_eq, ← BitVec.toNat_inj]
  rfl

theorem bne_zero (x : U64) : (x != 0#64) = (x.toNat != 0) := by
  rw [Bool.eq_iff_iff, bne_iff_ne, bne_iff_ne, ne_zero_iff]

/-! ## Multiplication -/

theorem shiftLeft_toNat (x : U64) (n : ℕ) : (x <<< n).toNat = x.toNat * 2 ^ n % 2 ^ 64 := by
  rw [BitVec.toNat_shiftLeft, Nat.shiftLeft_eq]

/-- A word or nothing. -/
theorem ite_word {c : Prop} [Decidable c] {x y : U64} (h : (if c then x else 0#64) = y) :
    (c ∧ y.toNat = x.toNat) ∨ (¬ c ∧ y.toNat = 0) := by
  rw [← h]
  by_cases hc : c
  · rw [if_pos hc]
    exact Or.inl ⟨hc, rfl⟩
  · rw [if_neg hc]
    exact Or.inr ⟨hc, rfl⟩

/-- A product of halves does not overflow. -/
theorem half_mul {a b : U64} (ha : a.toNat < 2 ^ 32) (hb : b.toNat < 2 ^ 32) :
    (a * b).toNat = a.toNat * b.toNat ∧ a.toNat * b.toNat ≤ 0xFFFFFFFE00000001 := by
  have h : a.toNat * b.toNat ≤ 0xFFFFFFFE00000001 := by
    calc a.toNat * b.toNat ≤ 0xFFFFFFFF * 0xFFFFFFFF := Nat.mul_le_mul (by omega) (by omega)
      _ = 0xFFFFFFFE00000001 := by norm_num
  refine ⟨?_, h⟩
  rw [BitVec.toNat_mul, Nat.mod_eq_of_lt (lt_of_le_of_lt h (by norm_num))]

/-- **The product is exact.** -/
theorem mul64to128_val (a b : U64) : (mul64to128 a b).val = a.toNat * b.toNat := by
  have ha := a.isLt
  have hb := b.isLt
  have hlow : ∀ x : U64, ((x.setWidth 32).setWidth 64).toNat = x.toNat % 2 ^ 32 := by
    intro x
    have hx := Nat.mod_lt x.toNat (Nat.two_pow_pos 32)
    rw [BitVec.toNat_setWidth, BitVec.toNat_setWidth]
    exact Nat.mod_eq_of_lt (by omega)
  obtain ⟨a₀, ha₀⟩ : ∃ w, (a.setWidth 32).setWidth 64 = w := ⟨_, rfl⟩
  obtain ⟨a₁, ha₁⟩ : ∃ w, a >>> 32 = w := ⟨_, rfl⟩
  obtain ⟨b₀, hb₀⟩ : ∃ w, (b.setWidth 32).setWidth 64 = w := ⟨_, rfl⟩
  obtain ⟨b₁, hb₁⟩ : ∃ w, b >>> 32 = w := ⟨_, rfl⟩
  have ha₀n : a₀.toNat = a.toNat % 2 ^ 32 := by rw [← ha₀, hlow]
  have hb₀n : b₀.toNat = b.toNat % 2 ^ 32 := by rw [← hb₀, hlow]
  have ha₁n : a₁.toNat = a.toNat / 2 ^ 32 := by rw [← ha₁, shiftRight_toNat]
  have hb₁n : b₁.toNat = b.toNat / 2 ^ 32 := by rw [← hb₁, shiftRight_toNat]
  obtain ⟨h₀₀, h₀₀b⟩ := half_mul (a := a₀) (b := b₀) (by omega) (by omega)
  obtain ⟨h₀₁, h₀₁b⟩ := half_mul (a := a₀) (b := b₁) (by omega) (by omega)
  obtain ⟨h₁₀, h₁₀b⟩ := half_mul (a := a₁) (b := b₀) (by omega) (by omega)
  obtain ⟨h₁₁, h₁₁b⟩ := half_mul (a := a₁) (b := b₁) (by omega) (by omega)
  have hprod : a.toNat * b.toNat = a₁.toNat * b₁.toNat * 2 ^ 64
      + (a₀.toNat * b₁.toNat + a₁.toNat * b₀.toNat) * 2 ^ 32 + a₀.toNat * b₀.toNat := by
    have hae : a.toNat = a₁.toNat * 2 ^ 32 + a₀.toNat := by omega
    have hbe : b.toNat = b₁.toNat * 2 ^ 32 + b₀.toNat := by omega
    rw [hae, hbe]
    ring
  have hbound : a.toNat * b.toNat < 2 ^ 128 := by
    calc a.toNat * b.toNat < 2 ^ 64 * 2 ^ 64 := Nat.mul_lt_mul'' ha hb
      _ = 2 ^ 128 := by norm_num
  rw [hprod] at hbound ⊢
  unfold mul64to128 U128.val
  dsimp only
  rw [ha₀, ha₁, hb₀, hb₁]
  rw [← h₀₀] at hbound h₀₀b ⊢
  rw [← h₀₁] at hbound h₀₁b ⊢
  rw [← h₁₀] at hbound h₁₀b ⊢
  rw [← h₁₁] at hbound h₁₁b ⊢
  obtain ⟨p₀₀, e₀₀⟩ : ∃ p, a₀ * b₀ = p := ⟨_, rfl⟩
  obtain ⟨p₀₁, e₀₁⟩ : ∃ p, a₀ * b₁ = p := ⟨_, rfl⟩
  obtain ⟨p₁₀, e₁₀⟩ : ∃ p, a₁ * b₀ = p := ⟨_, rfl⟩
  obtain ⟨p₁₁, e₁₁⟩ : ∃ p, a₁ * b₁ = p := ⟨_, rfl⟩
  rw [e₀₀] at hbound h₀₀b ⊢
  rw [e₀₁] at hbound h₀₁b ⊢
  rw [e₁₀] at hbound h₁₀b ⊢
  rw [e₁₁] at hbound h₁₁b ⊢
  -- the middle sum, its carry, and the low half's
  obtain ⟨mid, hmid⟩ : ∃ w, p₀₁ + p₁₀ = w := ⟨_, rfl⟩
  obtain ⟨lo, hlo⟩ : ∃ w, p₀₀ + mid <<< 32 = w := ⟨_, rfl⟩
  obtain ⟨c₁, hc₁⟩ : ∃ w, (if mid < p₀₁ then 1#64 <<< 32 else 0#64) = w := ⟨_, rfl⟩
  obtain ⟨c₂, hc₂⟩ : ∃ w, (if lo < p₀₀ then 1#64 else 0#64) = w := ⟨_, rfl⟩
  have hmidn : mid.toNat = (p₀₁.toNat + p₁₀.toNat) % 2 ^ 64 := by rw [← hmid, BitVec.toNat_add]
  have hlon : lo.toNat = (p₀₀.toNat + mid.toNat * 2 ^ 32 % 2 ^ 64) % 2 ^ 64 := by
    rw [← hlo, BitVec.toNat_add, shiftLeft_toNat]
  have hc₁n := ite_word (c := mid < p₀₁) hc₁
  have hc₂n := ite_word (c := lo < p₀₀) hc₂
  rw [BitVec.lt_def] at hc₁n hc₂n
  rw [show (1#64 <<< 32).toNat = 2 ^ 32 from rfl] at hc₁n
  rw [show (1#64).toNat = 1 from rfl] at hc₂n
  rw [hmid, hlo, hc₁, hc₂, BitVec.toNat_add, BitVec.toNat_add, BitVec.toNat_add, shiftRight_toNat]
  omega

/-! ## Shifts -/

/-- Two disjoint runs of digits. -/
theorem or_eq_add {x y : U64} {n : ℕ} (hx : x.toNat % 2 ^ n = 0) (hy : y.toNat < 2 ^ n) :
    (x ||| y).toNat = x.toNat + y.toNat := by
  obtain ⟨d, hd⟩ := Nat.dvd_of_mod_eq_zero hx
  rw [BitVec.toNat_or, hd, ← Nat.two_pow_add_eq_or_of_lt hy]

theorem pow_split {n : ℕ} (h : n ≤ 64) : 2 ^ 64 = 2 ^ n * 2 ^ (64 - n) := by
  rw [← pow_add]
  congr 1
  omega

theorem shl128_val {v : U128} {n : ℕ} (h : v.val * 2 ^ n < 2 ^ 128) (hn : n < 128) :
    (shl128 v n).val = v.val * 2 ^ n := by
  have hlo := v.lo.isLt
  have hhi := v.hi.isLt
  unfold shl128
  by_cases h0 : n = 0
  · rw [if_pos h0, h0, pow_zero, mul_one]
  rw [if_neg h0]
  by_cases h64 : n ≥ 64
  · -- only the low half is left, and it fits
    rw [if_pos h64]
    obtain ⟨d, rfl⟩ : ∃ d, n = 64 + d := ⟨n - 64, by omega⟩
    have hdpos := Nat.two_pow_pos d
    have hn' : ¬ 64 + d ≥ 128 := by omega
    rw [if_neg hn', show 64 + d - 64 = d by omega]
    unfold U128.val at h ⊢
    rw [pow_add] at h ⊢
    have hz : v.hi.toNat = 0 := by
      by_contra hne
      have : 2 ^ 64 * (2 ^ 64 * 1) ≤ (v.hi.toNat * 2 ^ 64 + v.lo.toNat) * (2 ^ 64 * 2 ^ d) :=
        Nat.mul_le_mul (by omega) (Nat.mul_le_mul_left _ hdpos)
      omega
    rw [hz] at h ⊢
    have hlt : v.lo.toNat * 2 ^ d < 2 ^ 64 := by
      have : v.lo.toNat * 2 ^ d * 2 ^ 64 < 2 ^ 64 * 2 ^ 64 := by
        calc v.lo.toNat * 2 ^ d * 2 ^ 64 = (0 * 2 ^ 64 + v.lo.toNat) * (2 ^ 64 * 2 ^ d) := by ring
          _ < 2 ^ 64 * 2 ^ 64 := by omega
      exact Nat.lt_of_mul_lt_mul_right this
    rw [shiftLeft_toNat, Nat.mod_eq_of_lt hlt]
    show _ + 0 = _
    ring
  · rw [if_neg h64]
    have hsplit := pow_split (n := n) (by omega)
    have hnpos := Nat.two_pow_pos n
    have hnpos' := Nat.two_pow_pos (64 - n)
    unfold U128.val at h ⊢
    dsimp only
    -- the low half's top digits move over
    have hdm := Nat.div_add_mod v.lo.toNat (2 ^ (64 - n))
    obtain ⟨q, hq⟩ : ∃ q, v.lo.toNat / 2 ^ (64 - n) = q := ⟨_, rfl⟩
    obtain ⟨r, hr⟩ : ∃ r, v.lo.toNat % 2 ^ (64 - n) = r := ⟨_, rfl⟩
    have hrlt : r < 2 ^ (64 - n) := by rw [← hr]; exact Nat.mod_lt _ hnpos'
    have hqlt : q < 2 ^ n := by
      rw [← hq, Nat.div_lt_iff_lt_mul hnpos', ← hsplit]
      exact hlo
    rw [hq, hr] at hdm
    have hhilt : v.hi.toNat * 2 ^ n < 2 ^ 64 := by
      have : v.hi.toNat * 2 ^ n * 2 ^ 64 < 2 ^ 64 * 2 ^ 64 := by
        calc v.hi.toNat * 2 ^ n * 2 ^ 64 ≤ (v.hi.toNat * 2 ^ 64 + v.lo.toNat) * 2 ^ n := by
              have : 0 ≤ v.lo.toNat * 2 ^ n := Nat.zero_le _
              nlinarith
          _ < 2 ^ 64 * 2 ^ 64 := by omega
      exact Nat.lt_of_mul_lt_mul_right this
    have hhin : (v.hi <<< n).toNat = v.hi.toNat * 2 ^ n := by
      rw [shiftLeft_toNat, Nat.mod_eq_of_lt hhilt]
    have hlon : (v.lo <<< n).toNat = r * 2 ^ n := by
      rw [shiftLeft_toNat, ← hdm, add_mul]
      rw [show 2 ^ (64 - n) * q * 2 ^ n = 2 ^ 64 * q by rw [hsplit]; ring, Nat.mul_add_mod]
      refine Nat.mod_eq_of_lt ?_
      calc r * 2 ^ n < 2 ^ (64 - n) * 2 ^ n := Nat.mul_lt_mul_of_pos_right hrlt hnpos
        _ = 2 ^ 64 := by rw [hsplit]; ring
    have hsh : (v.lo >>> (64 - n)).toNat = q := by rw [shiftRight_toNat, hq]
    rw [or_eq_add (n := n) (by rw [hhin]; exact Nat.mul_mod_left _ _) (by rw [hsh]; exact hqlt), hhin,
      hsh, hlon, ← hdm, hsplit]
    ring

/-- From 64 places on the low half goes, and the low digits of the high one. -/
theorem shr128jam_high (v : U128) {d : ℕ} (hd : d < 64) (jam : Bool) :
    (shr128jam v (64 + d) jam).1.val = v.val / 2 ^ (64 + d)
      ∧ (shr128jam v (64 + d) jam).2 = (jam || v.val % 2 ^ (64 + d) != 0) := by
  have hlo := v.lo.isLt
  have hdiv : v.val / 2 ^ (64 + d) = v.hi.toNat / 2 ^ d := by
    rw [pow_add, ← Nat.div_div_eq_div_mul, v.val_div]
  have hmod : v.val % 2 ^ (64 + d) = v.lo.toNat + 2 ^ 64 * (v.hi.toNat % 2 ^ d) := by
    rw [pow_add, Nat.mod_mul, v.val_mod, v.val_div]
  unfold shr128jam
  rw [if_neg (by omega), if_neg (by omega), if_pos (by omega), hdiv, hmod]
  constructor
  · unfold U128.val
    dsimp only
    rw [shiftRight_toNat, show 64 + d - 64 = d by omega]
    simp
  · dsimp only
    -- at 64 itself the left shift would be by 64, and nothing of the high half is lost
    have hjam : (decide (64 + d > 64) && v.hi <<< (128 - (64 + d)) != 0#64)
        = (v.hi.toNat % 2 ^ d != 0) := by
      by_cases hd0 : d = 0
      · rw [hd0]
        simp [Nat.mod_one]
      · rw [show 128 - (64 + d) = 64 - d by omega,
          shiftLeft_ne_zero _ (Nat.pos_of_ne_zero hd0) hd, decide_eq_true (by omega)]
        rfl
    rw [hjam, bne_zero, Bool.or_assoc]
    congr 1
    rw [Bool.eq_iff_iff]
    simp only [Bool.or_eq_true, bne_iff_ne]
    omega

/-- Below 64 places the high half's low digits move over. -/
theorem shr128jam_low (v : U128) {n : ℕ} (h0 : n ≠ 0) (hn : n < 64) (jam : Bool) :
    (shr128jam v n jam).1.val = v.val / 2 ^ n
      ∧ (shr128jam v n jam).2 = (jam || v.val % 2 ^ n != 0) := by
  have hlo := v.lo.isLt
  have hsplit := pow_split (n := n) (by omega)
  have hnpos := Nat.two_pow_pos n
  have hnpos' := Nat.two_pow_pos (64 - n)
  have hcast : v.hi.toNat * (2 ^ n * 2 ^ (64 - n)) + v.lo.toNat
      = v.lo.toNat + 2 ^ n * (v.hi.toNat * 2 ^ (64 - n)) := by ring
  have hmod : v.val % 2 ^ n = v.lo.toNat % 2 ^ n := by
    unfold U128.val
    conv_lhs => rw [hsplit, hcast]
    exact Nat.add_mul_mod_self_left _ _ _
  have hdiv : v.val / 2 ^ n = v.hi.toNat * 2 ^ (64 - n) + v.lo.toNat / 2 ^ n := by
    unfold U128.val
    conv_lhs => rw [hsplit, hcast]
    rw [Nat.add_mul_div_left _ _ hnpos, Nat.add_comm]
  unfold shr128jam
  rw [if_neg h0, if_neg (by omega), if_neg (by omega), hmod, hdiv]
  constructor
  · have hdm := Nat.div_add_mod v.hi.toNat (2 ^ n)
    obtain ⟨q, hq⟩ : ∃ q, v.hi.toNat / 2 ^ n = q := ⟨_, rfl⟩
    obtain ⟨r, hr⟩ : ∃ r, v.hi.toNat % 2 ^ n = r := ⟨_, rfl⟩
    have hrlt : r < 2 ^ n := by rw [← hr]; exact Nat.mod_lt _ hnpos
    rw [hq, hr] at hdm
    have hshl : (v.hi <<< (64 - n)).toNat = r * 2 ^ (64 - n) := by
      rw [shiftLeft_toNat, ← hdm, add_mul,
        show 2 ^ n * q * 2 ^ (64 - n) = 2 ^ 64 * q by rw [hsplit]; ring, Nat.mul_add_mod]
      refine Nat.mod_eq_of_lt ?_
      rw [hsplit]
      exact Nat.mul_lt_mul_of_pos_right hrlt hnpos'
    have hlolt : (v.lo >>> n).toNat < 2 ^ (64 - n) := by
      rw [shiftRight_toNat, Nat.div_lt_iff_lt_mul hnpos, Nat.mul_comm, ← hsplit]
      exact hlo
    unfold U128.val
    dsimp only
    rw [BitVec.or_comm, or_eq_add (n := 64 - n) (by rw [hshl]; exact Nat.mul_mod_left _ _) hlolt,
      shiftRight_toNat, shiftRight_toNat, hq, hshl, ← hdm, hsplit]
    ring
  · dsimp only
    rw [shiftLeft_ne_zero _ (Nat.pos_of_ne_zero h0) hn]

/-- **The jam shift** divides, and jams the remainder. -/
theorem shr128jam_eq (v : U128) (n : ℕ) (jam : Bool) :
    (shr128jam v n jam).1.val = v.val / 2 ^ n
      ∧ (shr128jam v n jam).2 = (jam || v.val % 2 ^ n != 0) := by
  by_cases h0 : n = 0
  · unfold shr128jam
    rw [if_pos h0, h0]
    simp [Nat.mod_one]
  by_cases h128 : n ≥ 128
  · have hpow : v.val < 2 ^ n := v.val_lt.trans_le (Nat.pow_le_pow_right (by norm_num) h128)
    unfold shr128jam
    rw [if_neg h0, if_pos h128, Nat.div_eq_of_lt hpow, Nat.mod_eq_of_lt hpow]
    refine ⟨by simp [U128.val], ?_⟩
    dsimp only
    rw [bne_zero, bne_zero, Bool.or_assoc]
    congr 1
    rw [Bool.eq_iff_iff]
    unfold U128.val
    simp only [Bool.or_eq_true, bne_iff_ne]
    omega
  by_cases h64 : n ≥ 64
  · obtain ⟨d, rfl⟩ : ∃ d, n = 64 + d := ⟨n - 64, by omega⟩
    exact shr128jam_high v (by omega) jam
  · exact shr128jam_low v h0 (by omega) jam

/-- What was held stays held. -/
theorem shr128jam_held {v : U128} {jam : Bool} {y : ℚ} (h : Held v.val jam y) (n : ℕ) :
    Held (shr128jam v n jam).1.val (shr128jam v n jam).2 (y / 2 ^ n) := by
  obtain ⟨h₁, h₂⟩ := shr128jam_eq v n jam
  rw [h₁, h₂]
  exact h.shift n

/-! ## Normalization, order, difference and sum -/

/-- **Normalizing** by the leading zeros puts the leading one on top. -/
theorem clz128_spec {v : U128} (hv : v.val ≠ 0) :
    clz128 v < 128 ∧ 2 ^ 127 ≤ v.val * 2 ^ clz128 v ∧ v.val * 2 ^ clz128 v < 2 ^ 128 := by
  have hword : ∀ x : U64, x ≠ 0#64 →
      clz64 x < 64 ∧ 2 ^ 63 ≤ x.toNat * 2 ^ clz64 x ∧ (x.toNat + 1) * 2 ^ clz64 x ≤ 2 ^ 64 := by
    intro x hx
    have hx0 := (ne_zero_iff x).mp hx
    have hlog := log2_lt x
    have hlo := Nat.log2_self_le hx0
    have hhi := Nat.lt_log2_self (n := x.toNat)
    rw [clz64_eq hx]
    refine ⟨by omega, ?_, ?_⟩
    · calc 2 ^ 63 = 2 ^ x.toNat.log2 * 2 ^ (63 - x.toNat.log2) := by
            rw [← pow_add]
            congr 1
            omega
        _ ≤ _ := Nat.mul_le_mul_right _ hlo
    · calc (x.toNat + 1) * 2 ^ (63 - x.toNat.log2)
          ≤ 2 ^ (x.toNat.log2 + 1) * 2 ^ (63 - x.toNat.log2) := Nat.mul_le_mul_right _ hhi
        _ = 2 ^ 64 := by
            rw [← pow_add]
            congr 1
            omega
  have hlo := v.lo.isLt
  unfold clz128
  -- the high word decides if it has a bit; else the low one's zeros count from 64
  by_cases hhi : v.hi ≠ 0#64
  · rw [if_pos hhi]
    obtain ⟨h₁, h₂, h₃⟩ := hword v.hi hhi
    refine ⟨by omega, ?_, ?_⟩
    · calc 2 ^ 127 = 2 ^ 63 * 2 ^ 64 := by norm_num
        _ ≤ v.hi.toNat * 2 ^ clz64 v.hi * 2 ^ 64 := Nat.mul_le_mul_right _ h₂
        _ = v.hi.toNat * 2 ^ 64 * 2 ^ clz64 v.hi := by ring
        _ ≤ v.val * 2 ^ clz64 v.hi := Nat.mul_le_mul_right _ (by unfold U128.val; omega)
    · calc v.val * 2 ^ clz64 v.hi < (v.hi.toNat + 1) * 2 ^ 64 * 2 ^ clz64 v.hi :=
            Nat.mul_lt_mul_of_pos_right (by unfold U128.val; omega) (Nat.two_pow_pos _)
        _ = (v.hi.toNat + 1) * 2 ^ clz64 v.hi * 2 ^ 64 := by ring
        _ ≤ 2 ^ 64 * 2 ^ 64 := Nat.mul_le_mul_right _ h₃
        _ = 2 ^ 128 := by norm_num
  · rw [if_neg hhi]
    have hhi0 : v.hi.toNat = 0 := by
      rw [not_not.mp hhi]
      rfl
    have hval : v.val = v.lo.toNat := by
      unfold U128.val
      rw [hhi0]
      omega
    obtain ⟨h₁, h₂, h₃⟩ := hword v.lo ((ne_zero_iff _).mpr (hval ▸ hv))
    rw [hval, pow_add, show v.lo.toNat * (2 ^ 64 * 2 ^ clz64 v.lo)
      = v.lo.toNat * 2 ^ clz64 v.lo * 2 ^ 64 by ring]
    refine ⟨by omega, by omega, ?_⟩
    have hpos := Nat.two_pow_pos (clz64 v.lo)
    have hlt : v.lo.toNat * 2 ^ clz64 v.lo < 2 ^ 64 :=
      lt_of_lt_of_le (Nat.mul_lt_mul_of_pos_right (Nat.lt_succ_self _) hpos) h₃
    omega

theorem ge128_eq (a b : U128) : ge128 a b = decide (b.val ≤ a.val) := by
  have ha := a.lo.isLt
  have hb := b.lo.isLt
  unfold ge128 U128.val
  rw [Bool.eq_iff_iff, decide_eq_true_iff]
  by_cases h : a.hi = b.hi
  · rw [if_neg (not_not.mpr h), decide_eq_true_iff, ge_iff_le, BitVec.le_def, h]
    omega
  · have hne := mt BitVec.toNat_inj.mp h
    rw [if_pos h, decide_eq_true_iff, gt_iff_lt, BitVec.lt_def]
    omega

theorem sub128_val {a b : U128} (h : b.val ≤ a.val) : (sub128 a b).val = a.val - b.val := by
  have ha := a.lo.isLt
  have hb := b.lo.isLt
  have ha' := a.hi.isLt
  have hb' := b.hi.isLt
  unfold sub128 U128.val at *
  dsimp only
  obtain ⟨c, hc⟩ : ∃ w, (if a.lo < b.lo then 1#64 else 0#64) = w := ⟨_, rfl⟩
  have hcn := ite_word (c := a.lo < b.lo) hc
  rw [BitVec.lt_def, show (1#64).toNat = 1 from rfl] at hcn
  rw [hc, BitVec.toNat_sub, BitVec.toNat_sub, BitVec.toNat_sub]
  omega

/-- **The sum and its carry**, where the second operand's high half is not all ones:
with a carry out of the low half it would carry without being seen to. -/
theorem add128_val {a b : U128} (h : b.hi.toNat < 2 ^ 64 - 1) :
    (add128 a b).1.val + (if (add128 a b).2 then 2 ^ 128 else 0) = a.val + b.val := by
  have ha := a.lo.isLt
  have hb := b.lo.isLt
  have ha' := a.hi.isLt
  obtain ⟨s, hs⟩ : ∃ s, add128 a b = s := ⟨_, rfl⟩
  rw [hs]
  unfold add128 at hs
  dsimp only at hs
  unfold U128.val
  by_cases hc : a.lo + b.lo < a.lo
  · rw [decide_eq_true hc, if_pos rfl] at hs
    subst hs
    rw [BitVec.lt_def, BitVec.toNat_add] at hc
    obtain ⟨hi, hhi⟩ : ∃ w, a.hi + b.hi + 1#64 = w := ⟨_, rfl⟩
    have hhin : hi.toNat = (a.hi.toNat + b.hi.toNat + 1) % 2 ^ 64 := by
      rw [← hhi, BitVec.toNat_add, BitVec.toNat_add]
      show (_ + 1) % _ = _
      omega
    dsimp only
    rw [hhi, Bool.true_and, BitVec.toNat_add]
    simp only [Bool.or_eq_true, decide_eq_true_iff, beq_iff_eq, ← BitVec.toNat_inj, BitVec.lt_def,
      BitVec.toNat_ofNat, Nat.zero_mod]
    split <;> omega
  · rw [decide_eq_false hc, if_neg Bool.false_ne_true] at hs
    subst hs
    rw [BitVec.lt_def, BitVec.toNat_add] at hc
    dsimp only
    rw [Bool.false_and, Bool.false_or]
    simp only [decide_eq_true_iff, BitVec.lt_def, BitVec.toNat_add]
    split <;> omega

/-! ## Unpacking -/

theorem negD_eq (f : U64) : (f >>> 63 != 0#64) = negD f := by
  unfold negD
  rw [bne_zero, shiftRight_toNat, BitVec.msb_eq_decide]
  have := f.isLt
  rw [Bool.eq_iff_iff, bne_iff_ne, decide_eq_true_iff]
  omega

theorem expField_toNat (f : U64) : (expField f).toNat = f.toNat % 2 ^ 63 / 2 ^ 52 := by
  unfold expField
  rw [BitVec.extractLsb'_toNat, Nat.shiftRight_eq_div_pow]
  have := f.isLt
  omega

theorem fracField_toNat (f : U64) : (fracField f).toNat = f.toNat % 2 ^ 63 % 2 ^ 52 := by
  have h : (fracField f).toNat = f.toNat % 2 ^ 52 := by
    unfold fracField
    rw [BitVec.toNat_and, show (0x000FFFFFFFFFFFFF#64).toNat = 2 ^ 52 - 1 from rfl,
      Nat.and_two_pow_sub_one_eq_mod]
  rw [h]
  omega

/-- A magnitude's value, from its fields. -/
theorem absD_eq (f : U64) :
    absD f = if (expField f).toNat = 0 then ((fracField f).toNat : ℚ) * 2 ^ (-1074 : ℤ)
      else (((fracField f).toNat + 2 ^ 52 : ℕ) : ℚ) * 2 ^ (((expField f).toNat : ℤ) - 1075) := by
  rw [expField_toNat, fracField_toNat]
  have hlead : dbl.lead = 2 ^ 52 := rfl
  unfold absD Format.magValue
  rw [hlead]
  by_cases h : f.toNat % 2 ^ 63 / 2 ^ 52 = 0
  · have hmod : f.toNat % 2 ^ 63 % 2 ^ 52 = f.toNat % 2 ^ 63 := by omega
    rw [if_pos h, if_pos h, hmod]
    rfl
  · have hq : ((f.toNat % 2 ^ 63 / 2 ^ 52 : ℕ) : ℤ) - 1 + dbl.qmin
        = ((f.toNat % 2 ^ 63 / 2 ^ 52 : ℕ) : ℤ) - 1075 := by
      rw [show dbl.qmin = -1074 from rfl]
      omega
    rw [if_neg h, if_neg h, hq]

/-- **What unpacking gives** for a finite nonzero double: its sign, and its
magnitude as a significand with its leading one on top. -/
structure Un.Holds (u : Un) (neg : Bool) (x : ℚ) : Prop where
  c : u.c = .cFin
  s : u.s = neg
  m : 2 ^ 63 ≤ u.m.toNat
  low : u.m.toNat % 2 ^ 11 = 0
  x : x = u.m.toNat * 2 ^ (u.e - 63)

theorem Un.Holds.pos {u : Un} {neg : Bool} {x : ℚ} (h : u.Holds neg x) : 0 < x := by
  have hm := h.m
  have hpos := two_zpow_pos (K := ℚ) (u.e - 63)
  rw [h.x]
  have : (0 : ℚ) < u.m.toNat := by exact_mod_cast (by omega : 0 < u.m.toNat)
  positivity

theorem unpack_s (f : U64) : (unpack f).s = negD f := by
  unfold unpack
  dsimp only
  split_ifs <;> exact negD_eq f

theorem absD_eq_zero_iff (f : U64) : absD f = 0 ↔ f.toNat % 2 ^ 63 = 0 :=
  Format.magValue_eq_zero_iff _

/-- A zero unpacks to a zero. -/
theorem unpack_zero {f : U64} (h : absD f = 0) : (unpack f).c = .cZero := by
  rw [absD_eq_zero_iff] at h
  have he : expField f = 0#11 := by
    rw [← BitVec.toNat_inj, expField_toNat, h]
    rfl
  have hf : fracField f = 0#64 := by
    rw [← BitVec.toNat_inj, fracField_toNat, h]
    rfl
  unfold unpack
  dsimp only
  rw [he, hf, if_neg (by decide), if_pos rfl, if_pos rfl]

theorem unpack_holds {f : U64} (hfin : FiniteD f) (h0 : absD f ≠ 0) :
    (unpack f).Holds (negD f) (absD f) := by
  have hx := absD_eq f
  have he : expField f ≠ 0x7FF#11 := by
    rw [ne_eq, ← BitVec.toNat_inj, expField_toNat]
    exact hfin.ne
  have hfrac : (fracField f).toNat < 2 ^ 52 := by
    rw [fracField_toNat]
    exact Nat.mod_lt _ (Nat.two_pow_pos _)
  have hs := unpack_s f
  unfold unpack at hs ⊢
  dsimp only at hs ⊢
  rw [if_neg he] at hs ⊢
  by_cases hz : expField f = 0#11
  · rw [if_pos hz] at hs ⊢
    have hzn : (expField f).toNat = 0 := by
      rw [hz]
      rfl
    rw [if_pos hzn] at hx
    have hf0 : fracField f ≠ 0#64 := by
      rintro he0
      rw [he0] at hx
      exact h0 (by rw [hx]; simp)
    rw [if_neg hf0] at hs ⊢
    -- a subnormal, normalized by its leading zeros
    have hlog : (fracField f).toNat.log2 < 52 := (Nat.log2_lt ((ne_zero_iff _).mp hf0)).mpr hfrac
    obtain ⟨hm, htop⟩ := shiftLeft_clz64 hf0
    have hclz := clz64_eq hf0
    obtain ⟨L, hL⟩ : ∃ L, (fracField f).toNat.log2 = L := ⟨_, rfl⟩
    rw [hL] at hlog hclz
    refine ⟨rfl, hs, htop, ?_, ?_⟩
    · dsimp only
      rw [hm, hclz, show 63 - L = 11 + (52 - L) by omega, pow_add, ← Nat.mul_assoc,
        Nat.mul_right_comm]
      exact Nat.mul_mod_left _ _
    · dsimp only
      rw [hx, hm, hclz, Nat.cast_mul, Nat.cast_pow, Nat.cast_ofNat, mul_assoc, ← zpow_natCast,
        ← two_zpow_add]
      congr 2
      omega
  · rw [if_neg hz] at hs ⊢
    have hzn : (expField f).toNat ≠ 0 := by
      intro h
      exact hz (BitVec.eq_of_toNat_eq h)
    rw [if_neg hzn] at hx
    have hor : (fracField f ||| (1#64 <<< 52)).toNat = (fracField f).toNat + 2 ^ 52 := by
      rw [BitVec.or_comm, or_eq_add (n := 52) (by decide) hfrac]
      show 2 ^ 52 + _ = _
      omega
    have hm : ((fracField f ||| (1#64 <<< 52)) <<< 11).toNat
        = ((fracField f).toNat + 2 ^ 52) * 2 ^ 11 := by
      rw [shiftLeft_toNat, hor]
      omega
    refine ⟨rfl, hs, ?_, ?_, ?_⟩
    · dsimp only
      rw [hm]
      omega
    · dsimp only
      rw [hm]
      omega
    · dsimp only
      rw [hx, hm, Nat.cast_mul, Nat.cast_pow, Nat.cast_ofNat, mul_assoc, ← zpow_natCast,
        ← two_zpow_add]
      congr 2
      omega

end Sf

end OpenPowerMac
