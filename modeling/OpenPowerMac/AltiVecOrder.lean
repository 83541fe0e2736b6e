/-
The order of the vector unit's singles.

A single's place in the order is its magnitude with its sign (`key`), and both
zeros have the same place; `sglGreater` compares places, and the value of a single
that is no NaN grows with its place. So maximum and minimum are those of a linear
order, except that of two singles in one place they take the second: where the two
zeros meet, the result depends on the order of the operands
(`minmax_lattice_iff`).
-/
import OpenPowerMac.AltiVecExact
import OpenPowerMac.AltiVecFloat
import OpenPowerMac.Encoding
import Mathlib

set_option autoImplicit false

namespace OpenPowerMac

open Rounding Sf

namespace Vec

variable {β : Type}

/-! ## Places -/

/-- The place of a single in the order. -/
def key (w : U32) : ℤ := if negS w then -(w.toNat % 2 ^ 31 : ℕ) else (w.toNat % 2 ^ 31 : ℕ)

theorem toNat_split (w : U32) : w.toNat = (if negS w then 2 ^ 31 else 0) + w.toNat % 2 ^ 31 := by
  have hw := w.isLt
  unfold negS
  rw [BitVec.msb_eq_decide]
  by_cases h : 2 ^ 31 ≤ w.toNat
  · rw [if_pos (decide_eq_true h)]
    omega
  · rw [if_neg (by rw [decide_eq_true_iff]; exact h)]
    omega

theorem shifted_zero_iff (w : U32) : (w <<< 1 == 0#32) = decide (key w = 0) := by
  rw [Bool.eq_iff_iff, beq_iff_eq, decide_eq_true_iff]
  have hshift : (w <<< 1).toNat = 2 * (w.toNat % 2 ^ 31) := by
    rw [BitVec.toNat_shiftLeft, Nat.shiftLeft_eq]
    omega
  constructor
  · intro h
    rw [h] at hshift
    have h0 : w.toNat % 2 ^ 31 = 0 := by
      change 0 = _ at hshift
      omega
    rw [key, h0]
    exact ite_self _
  · intro h
    apply BitVec.eq_of_toNat_eq
    rw [hshift]
    unfold key at h
    change _ = 0
    split at h <;> omega

theorem sign_bit (w : U32) : (w >>> 31 != 0#32) = negS w := by
  rw [Bool.eq_iff_iff, bne_iff_ne, negS, BitVec.msb_eq_decide, decide_eq_true_iff, ne_eq,
    ← BitVec.toNat_inj, BitVec.toNat_ushiftRight, Nat.shiftRight_eq_div_pow]
  have hw := w.isLt
  change ¬ _ = 0 ↔ _
  omega

theorem magnitude_toNat (w : U32) : (w &&& 0x7FFFFFFF#32).toNat = w.toNat % 2 ^ 31 := by
  rw [BitVec.toNat_and, show (0x7FFFFFFF#32).toNat = 2 ^ 31 - 1 from rfl,
    Nat.and_two_pow_sub_one_eq_mod]

/-- `sglGreater` compares places, and holds between a negative single and itself. -/
theorem sglGreater_iff (x y : U32) :
    sglGreater x y = true ↔ key y < key x ∨ key x = key y ∧ key x < 0 := by
  unfold sglGreater
  rw [shifted_zero_iff, shifted_zero_iff, sign_bit, sign_bit]
  simp only [gt_iff_lt, BitVec.lt_def, magnitude_toNat]
  unfold key
  generalize x.toNat % 2 ^ 31 = mx
  generalize y.toNat % 2 ^ 31 = my
  cases negS x <;> cases negS y <;> simp <;> omega

/-- Singles in one place are the same, or zeros. -/
theorem eq_of_key {x y : U32} (h : key x = key y) (h0 : key x ≠ 0) : x = y := by
  apply BitVec.eq_of_toNat_eq
  rw [toNat_split x, toNat_split y]
  unfold key at h h0
  cases hx : negS x <;> cases hy : negS y <;> simp [hx, hy] at h h0 ⊢ <;> omega

theorem sglEqual_iff (x y : U32) : sglEqual x y = true ↔ key x = key y := by
  unfold sglEqual
  rw [shifted_zero_iff, shifted_zero_iff, Bool.or_eq_true, Bool.and_eq_true, decide_eq_true_iff,
    decide_eq_true_iff, beq_iff_eq]
  constructor
  · rintro (⟨hx, hy⟩ | rfl)
    · rw [hx, hy]
    · rfl
  · intro h
    by_cases h0 : key x = 0
    · exact Or.inl ⟨h0, h ▸ h0⟩
    · exact Or.inr (eq_of_key h h0)

/-! ## Values -/

/-- The value of a single that is no NaN, infinities included. -/
def valueS (w : U32) : WithBot (WithTop ℚ) :=
  if FiniteS w then ((valS w : WithTop ℚ) : WithBot (WithTop ℚ))
  else if negS w then ⊥
  else ((⊤ : WithTop ℚ) : WithBot (WithTop ℚ))

/-- The value in a place. -/
def placed (k : ℤ) : ℚ := if k < 0 then -sgl.magValue k.natAbs else sgl.magValue k.natAbs

theorem placed_strictMono : StrictMono placed := by
  have hmono : StrictMono (sgl.magValue (K := ℚ)) := Format.magValue_strictMono
  intro j k h
  unfold placed
  by_cases hj : j < 0
  · rw [if_pos hj]
    by_cases hk : k < 0
    · rw [if_pos hk]
      exact neg_lt_neg (hmono (by omega))
    · have hpos : 0 < sgl.magValue (K := ℚ) j.natAbs :=
        lt_of_le_of_lt (Format.magValue_nonneg 0) (hmono (by omega))
      rw [if_neg hk]
      linarith [Format.magValue_nonneg (f := sgl) (K := ℚ) k.natAbs]
  · rw [if_neg hj, if_neg (by omega)]
    exact hmono (by omega)

theorem valS_eq (w : U32) : valS w = placed (key w) := by
  unfold valS placed key absS
  cases negS w with
  | false =>
      rw [if_neg Bool.false_ne_true, if_neg Bool.false_ne_true, if_neg (by omega), Int.natAbs_natCast]
  | true =>
      rw [if_pos rfl, if_pos rfl, Int.natAbs_neg, Int.natAbs_natCast]
      by_cases h0 : w.toNat % 2 ^ 31 = 0
      · have hzero : sgl.magValue (K := ℚ) 0 = 0 := (Format.magValue_eq_zero_iff 0).mpr rfl
        rw [h0, hzero, neg_zero, ite_self]
      · rw [if_pos (by omega)]

/-- The place of an infinity. -/
def kTop : ℤ := 255 * 2 ^ 23

theorem abs_key (w : U32) : |key w| = (w.toNat % 2 ^ 31 : ℕ) := by
  unfold key
  split
  · rw [abs_neg, Nat.abs_cast]
  · rw [Nat.abs_cast]

theorem finite_iff (w : U32) : FiniteS w ↔ |key w| < kTop := by
  rw [abs_key, FiniteS, kTop, Nat.div_lt_iff_lt_mul (by decide)]
  omega

/-- A field of a word, masked where it stands. -/
theorem and_field (x n k : ℕ) : x &&& ((2 ^ k - 1) * 2 ^ n) = x / 2 ^ n % 2 ^ k * 2 ^ n := by
  rw [← Nat.shiftLeft_eq, ← Nat.shiftLeft_eq, ← Nat.shiftRight_eq_div_pow,
    ← Nat.and_two_pow_sub_one_eq_mod]
  apply Nat.eq_of_testBit_eq
  intro i
  rw [Nat.testBit_and, Nat.testBit_shiftLeft, Nat.testBit_shiftLeft, Nat.testBit_and,
    Nat.testBit_shiftRight]
  by_cases h : n ≤ i
  · rw [Nat.add_sub_cancel' h]
    cases x.testBit i <;> simp [h]
  · simp [h]

theorem exponent_toNat (w : U32) : (w &&& 0x7F800000#32).toNat = w.toNat / 2 ^ 23 % 2 ^ 8 * 2 ^ 23 := by
  rw [BitVec.toNat_and, ← and_field]
  rfl

theorem fraction_toNat (w : U32) : (w &&& 0x007FFFFF#32).toNat = w.toNat % 2 ^ 23 := by
  rw [BitVec.toNat_and, show (0x007FFFFF#32).toNat = 2 ^ 23 - 1 from rfl,
    Nat.and_two_pow_sub_one_eq_mod]

theorem sglNan_iff (w : U32) : sglNan w = true ↔ kTop < |key w| := by
  rw [abs_key, sglNan, Bool.and_eq_true, beq_iff_eq, bne_iff_ne, ne_eq, ← BitVec.toNat_inj,
    ← BitVec.toNat_inj, exponent_toNat, fraction_toNat, kTop]
  change _ = 255 * 2 ^ 23 ∧ ¬ _ = 0 ↔ _
  omega

/-- The value is that of the place, the infinities at the ends. -/
theorem valueS_eq {w : U32} (h : sglNan w = false) :
    valueS w = if key w = -kTop then ⊥
      else if key w = kTop then ((⊤ : WithTop ℚ) : WithBot (WithTop ℚ))
      else ((placed (key w) : WithTop ℚ) : WithBot (WithTop ℚ)) := by
  have hle : |key w| ≤ kTop := by
    rw [Bool.eq_false_iff, ne_eq, sglNan_iff] at h
    exact not_lt.mp h
  have htop : (0 : ℤ) < kTop := by decide
  unfold valueS
  rw [valS_eq]
  by_cases hfin : FiniteS w
  · have hlt := abs_lt.mp ((finite_iff w).mp hfin)
    rw [if_pos hfin, if_neg (by omega), if_neg (by omega)]
  · have heq : |key w| = kTop := le_antisymm hle (not_lt.mp ((finite_iff w).not.mp hfin))
    rw [abs_key] at heq
    rw [if_neg hfin]
    unfold key
    rw [heq]
    split
    · rw [if_pos rfl]
    · rw [if_neg (by omega), if_pos rfl]

theorem abs_key_le {w : U32} (h : sglNan w = false) : |key w| ≤ kTop := by
  rw [Bool.eq_false_iff, ne_eq, sglNan_iff] at h
  exact not_lt.mp h

section Order

variable {x y : U32} (hx : sglNan x = false) (hy : sglNan y = false)
include hx hy

theorem valueS_lt (h : key x < key y) : valueS x < valueS y := by
  have hxle := abs_le.mp (abs_key_le hx)
  have hyle := abs_le.mp (abs_key_le hy)
  have htop : (0 : ℤ) < kTop := by decide
  rw [valueS_eq hx, valueS_eq hy, if_neg (show ¬ key y = -kTop by omega)]
  by_cases hbot : key x = -kTop
  · rw [if_pos hbot]
    split
    · exact WithBot.bot_lt_coe _
    · exact WithBot.bot_lt_coe _
  · rw [if_neg hbot, if_neg (show ¬ key x = kTop by omega)]
    split
    · exact WithBot.coe_lt_coe.mpr (WithTop.coe_lt_top _)
    · exact WithBot.coe_lt_coe.mpr (WithTop.coe_lt_coe.mpr (placed_strictMono h))

/-- The values are in the order of the places. -/
theorem valueS_lt_iff : valueS x < valueS y ↔ key x < key y := by
  refine ⟨fun h => ?_, valueS_lt hx hy⟩
  by_contra hle
  rcases (not_lt.mp hle).lt_or_eq with hlt | heq
  · exact absurd (valueS_lt hy hx hlt) (not_lt.mpr h.le)
  · rw [valueS_eq hx, valueS_eq hy, heq] at h
    exact lt_irrefl _ h

theorem valueS_eq_iff : valueS x = valueS y ↔ key x = key y := by
  rw [← not_iff_not, ← ne_eq, ← ne_eq, ne_iff_lt_or_gt, ne_iff_lt_or_gt, valueS_lt_iff hx hy,
    valueS_lt_iff hy hx]

end Order

/-! ## Flushed operands -/

theorem key_sign (w : U32) : key (w &&& 0x80000000#32) = 0 := by
  have hbits : (w &&& 0x80000000#32).toNat = w.toNat / 2 ^ 31 % 2 ^ 1 * 2 ^ 31 := by
    rw [BitVec.toNat_and, ← and_field]
    rfl
  rw [← abs_eq_zero, abs_key, hbits, Nat.mul_mod_left]
  rfl

theorem sglDenorm_iff (w : U32) : sglDenorm w = true ↔ 0 < |key w| ∧ |key w| < 2 ^ 23 := by
  rw [abs_key, sglDenorm, Bool.and_eq_true, beq_iff_eq, bne_iff_ne, ne_eq, ← BitVec.toNat_inj,
    ← BitVec.toNat_inj, exponent_toNat, fraction_toNat]
  change _ = 0 ∧ ¬ _ = 0 ↔ _
  omega

/-- A flushed operand is itself, or a zero of its sign. -/
theorem flushIn_cases (vscr w : U32) :
    flushIn vscr w = w ∨ flushIn vscr w = w &&& 0x80000000#32 ∧ sglDenorm w = true := by
  unfold flushIn
  split
  next h => exact Or.inr ⟨rfl, (Bool.and_eq_true_iff.mp h).2⟩
  next => exact Or.inl rfl

theorem flushIn_flushIn (vscr w : U32) : flushIn vscr (flushIn vscr w) = flushIn vscr w := by
  rcases flushIn_cases vscr w with h | ⟨h, -⟩
  · rw [h, h]
  · have hzero : ¬ sglDenorm (w &&& 0x80000000#32) = true := by
      rw [sglDenorm_iff, key_sign]
      exact fun h => absurd h.1 (by decide)
    rw [h, flushIn, if_neg]
    rw [Bool.and_eq_true]
    exact fun h => hzero h.2

theorem flushIn_nan {vscr w : U32} (h : sglNan w = false) : sglNan (flushIn vscr w) = false := by
  rcases flushIn_cases vscr w with h' | ⟨h', -⟩
  · rw [h', h]
  · rw [h', Bool.eq_false_iff, ne_eq, sglNan_iff, key_sign]
    decide

/-! ## Maximum and minimum -/

section Lanes

variable {vscr a b : U32} (ha : sglNan a = false) (hb : sglNan b = false)
include ha hb

/-- The maximum is the operand in the higher place, and the second of two in one place. -/
theorem maxfp_eq : maxfp vscr a b
    = if key (flushIn vscr b) < key (flushIn vscr a) then flushIn vscr a else flushIn vscr b := by
  unfold maxfp minmax
  dsimp only
  rw [flushIn_nan ha, flushIn_nan hb, if_neg Bool.false_ne_true, if_neg Bool.false_ne_true]
  by_cases hlt : key (flushIn vscr b) < key (flushIn vscr a)
  · rw [if_pos hlt, if_pos ((sglGreater_iff _ _).mpr (Or.inl hlt))]
  · rw [if_neg hlt]
    split
    next h =>
      -- a negative single is greater than itself, and either of the two will do
      obtain ⟨heq, hneg⟩ := ((sglGreater_iff _ _).mp h).resolve_left hlt
      exact eq_of_key heq hneg.ne
    next => rfl

theorem minfp_eq : minfp vscr a b
    = if key (flushIn vscr a) < key (flushIn vscr b) then flushIn vscr a else flushIn vscr b := by
  unfold minfp minmax
  dsimp only
  rw [flushIn_nan ha, flushIn_nan hb, if_neg Bool.false_ne_true, if_neg Bool.false_ne_true]
  by_cases hlt : key (flushIn vscr a) < key (flushIn vscr b)
  · rw [if_pos hlt, if_pos ((sglGreater_iff _ _).mpr (Or.inl hlt))]
  · rw [if_neg hlt]
    split
    next h =>
      obtain ⟨heq, hneg⟩ := ((sglGreater_iff _ _).mp h).resolve_left hlt
      exact (eq_of_key heq hneg.ne).symm
    next => rfl

theorem gtfp_iff : gtfp vscr a b = true
    ↔ key (flushIn vscr b) < key (flushIn vscr a)
      ∨ key (flushIn vscr a) = key (flushIn vscr b) ∧ key (flushIn vscr a) < 0 := by
  unfold gtfp holdsFp
  dsimp only
  rw [flushIn_nan ha, flushIn_nan hb, Bool.or_false, Bool.not_false, Bool.true_and, sglGreater_iff]

theorem eqfp_iff : eqfp vscr a b = true ↔ key (flushIn vscr a) = key (flushIn vscr b) := by
  unfold eqfp holdsFp
  dsimp only
  rw [flushIn_nan ha, flushIn_nan hb, Bool.or_false, Bool.not_false, Bool.true_and, sglEqual_iff]

theorem gefp_iff : gefp vscr a b = true ↔ key (flushIn vscr b) ≤ key (flushIn vscr a) := by
  unfold gefp holdsFp
  dsimp only
  rw [flushIn_nan ha, flushIn_nan hb, Bool.or_false, Bool.not_false, Bool.true_and, Bool.or_eq_true,
    sglEqual_iff, sglGreater_iff]
  omega

/-- What maximum and minimum give is flushed, and no NaN. -/
theorem maxfp_flushed : flushIn vscr (maxfp vscr a b) = maxfp vscr a b ∧ sglNan (maxfp vscr a b) = false := by
  rw [maxfp_eq ha hb]
  split
  · exact ⟨flushIn_flushIn _ _, flushIn_nan ha⟩
  · exact ⟨flushIn_flushIn _ _, flushIn_nan hb⟩

theorem minfp_flushed : flushIn vscr (minfp vscr a b) = minfp vscr a b ∧ sglNan (minfp vscr a b) = false := by
  rw [minfp_eq ha hb]
  split
  · exact ⟨flushIn_flushIn _ _, flushIn_nan ha⟩
  · exact ⟨flushIn_flushIn _ _, flushIn_nan hb⟩

variable {x : U32} (hx : sglNan x = false)
include hx

theorem maxfp_assoc : maxfp vscr (maxfp vscr a b) x = maxfp vscr a (maxfp vscr b x) := by
  obtain ⟨hf, hn⟩ := maxfp_flushed ha hb
  obtain ⟨hf', hn'⟩ := maxfp_flushed hb hx
  rw [maxfp_eq hn hx, maxfp_eq ha hn', hf, hf', maxfp_eq ha hb, maxfp_eq hb hx]
  split_ifs <;> first | rfl | omega

theorem minfp_assoc : minfp vscr (minfp vscr a b) x = minfp vscr a (minfp vscr b x) := by
  obtain ⟨hf, hn⟩ := minfp_flushed ha hb
  obtain ⟨hf', hn'⟩ := minfp_flushed hb hx
  rw [minfp_eq hn hx, minfp_eq ha hn', hf, hf', minfp_eq ha hb, minfp_eq hb hx]
  split_ifs <;> first | rfl | omega

end Lanes

/-! ## The lattice -/

/-- What is asked of a pair of lanes, as they are after the flush. -/
structure Lattice (vscr a b : U32) : Prop where
  max_comm : maxfp vscr a b = maxfp vscr b a
  min_comm : minfp vscr a b = minfp vscr b a
  max_zeros : flushIn vscr a = 0#32 → flushIn vscr b = kSignBitS → maxfp vscr a b = 0#32
  min_zeros : flushIn vscr a = 0#32 → flushIn vscr b = kSignBitS → minfp vscr a b = kSignBitS
  max_assoc : ∀ x, sglNan x = false → maxfp vscr (maxfp vscr a b) x = maxfp vscr a (maxfp vscr b x)
  min_assoc : ∀ x, sglNan x = false → minfp vscr (minfp vscr a b) x = minfp vscr a (minfp vscr b x)
  max_self : maxfp vscr a a = flushIn vscr a
  min_self : minfp vscr a a = flushIn vscr a
  max_mem : maxfp vscr a b = flushIn vscr a ∨ maxfp vscr a b = flushIn vscr b
  le_max : valueS (flushIn vscr a) ≤ valueS (maxfp vscr a b)
    ∧ valueS (flushIn vscr b) ≤ valueS (maxfp vscr a b)
  min_mem : minfp vscr a b = flushIn vscr a ∨ minfp vscr a b = flushIn vscr b
  min_le : valueS (minfp vscr a b) ≤ valueS (flushIn vscr a)
    ∧ valueS (minfp vscr a b) ≤ valueS (flushIn vscr b)
  gt : gtfp vscr a b = true ↔ valueS (flushIn vscr b) < valueS (flushIn vscr a)
  ge : gefp vscr a b = true ↔ valueS (flushIn vscr b) ≤ valueS (flushIn vscr a)
  eq : eqfp vscr a b = true ↔ valueS (flushIn vscr a) = valueS (flushIn vscr b)

/-- Two zeros, of opposite sign. -/
def OppositeZeros (x y : U32) : Prop := x <<< 1 = 0#32 ∧ y <<< 1 = 0#32 ∧ x ≠ y

/-- One and the same negative single, and no zero. -/
def SameNegative (x y : U32) : Prop := x = y ∧ negS x = true ∧ x <<< 1 ≠ 0#32

theorem shifted_eq_zero_iff (w : U32) : w <<< 1 = 0#32 ↔ key w = 0 := by
  rw [← beq_iff_eq, shifted_zero_iff, decide_eq_true_iff]

theorem sameNegative_iff (x y : U32) : SameNegative x y ↔ key x = key y ∧ key x < 0 := by
  unfold SameNegative
  rw [ne_eq, shifted_eq_zero_iff]
  constructor
  · rintro ⟨rfl, hneg, h0⟩
    refine ⟨rfl, ?_⟩
    unfold key at h0 ⊢
    rw [hneg, if_pos rfl] at h0 ⊢
    omega
  · rintro ⟨heq, hlt⟩
    refine ⟨eq_of_key heq hlt.ne, ?_, hlt.ne⟩
    by_contra hpos
    unfold key at hlt
    rw [if_neg hpos] at hlt
    omega

/-- What the handlers leave in the lanes of their destination. -/
structure LaneByLane (c : Cpu β) (i : U32) (k : ℕ) (vscr a b : U32) : Prop where
  max : gw ((h_vmaxfp c i).st.vr (f_rt i)) k = maxfp vscr a b
  min : gw ((h_vminfp c i).st.vr (f_rt i)) k = minfp vscr a b
  eq : gw ((h_vcmpeqfp c i).st.vr (f_rt i)) k = if eqfp vscr a b then 0xFFFFFFFF#32 else 0#32
  gt : gw ((h_vcmpgtfp c i).st.vr (f_rt i)) k = if gtfp vscr a b then 0xFFFFFFFF#32 else 0#32
  ge : gw ((h_vcmpgefp c i).st.vr (f_rt i)) k = if gefp vscr a b then 0xFFFFFFFF#32 else 0#32

theorem VMINMAX_lane (lane : U32 → U32 → U32 → U32) (c : Cpu β) (i : U32) {k : ℕ} (hk : k < 4) :
    gw ((VMINMAX lane c i).st.vr (f_rt i)) k
      = lane c.st.vscr (gw (c.st.user.VA i) k) (gw (c.st.user.VB i) k) := by
  have hvr := (vecOp_writes (fun a b _ vscr =>
    words.each (fun k => modulo (lane vscr (gw a k) (gw b k))) vscr) c i).2.1
  have hlane := (each_modulo words (fun k => lane c.st.vscr (gw (c.st.user.VA i) k)
    (gw (c.st.user.VB i) k)) c.st.vscr).1 k hk
  rw [VMINMAX, hvr]
  exact hlane

theorem setCr6_vr (u : UserRegs) (i : U32) (t f : Bool) : (setCr6 u i t f).vr = u.vr := by
  unfold setCr6
  split
  · rfl
  · rfl

theorem VFCMP_lane (test : U32 → U32 → U32 → Bool) (c : Cpu β) (i : U32) {k : ℕ} (hk : k < 4) :
    gw ((VFCMP test c i).st.vr (f_rt i)) k
      = if test c.st.vscr (gw (c.st.user.VA i) k) (gw (c.st.user.VB i) k) then 0xFFFFFFFF#32
        else 0#32 := by
  have hlane := (each_modulo words (fun k =>
    if test c.st.vscr (gw (c.st.user.VA i) k) (gw (c.st.user.VB i) k) then 0xFFFFFFFF#32
    else 0#32) c.st.vscr).1 k hk
  have hvr : ∀ (u : UserRegs) (v : V128) (t f : Bool),
      (setCr6 (u.setVr (f_rt i) v) i t f).vr (f_rt i) = v := by
    intro u v t f
    rw [setCr6_vr]
    exact Function.update_self _ _ _
  change gw ((setCr6 (c.st.user.setVr (f_rt i) _) i _ _).vr (f_rt i)) k = _
  rw [hvr]
  exact hlane

theorem laneByLane (c : Cpu β) (i : U32) {k : ℕ} (hk : k < 4) :
    LaneByLane c i k c.st.vscr (gw (c.st.user.VA i) k) (gw (c.st.user.VB i) k) :=
  ⟨VMINMAX_lane _ c i hk, VMINMAX_lane _ c i hk, VFCMP_lane _ c i hk, VFCMP_lane _ c i hk,
    VFCMP_lane _ c i hk⟩

/-- On lanes that are no NaN. -/
theorem lattice_iff (vscr a b : U32) (ha : sglNan a = false) (hb : sglNan b = false) :
    Lattice vscr a b ↔ ¬ OppositeZeros (flushIn vscr a) (flushIn vscr b)
      ∧ ¬ SameNegative (flushIn vscr a) (flushIn vscr b) := by
  have hx : sglNan (flushIn vscr a) = false := flushIn_nan ha
  have hy : sglNan (flushIn vscr b) = false := flushIn_nan hb
  unfold OppositeZeros
  rw [sameNegative_iff, shifted_eq_zero_iff, shifted_eq_zero_iff]
  constructor
  · intro h
    refine ⟨fun ⟨hxz, hyz, hne⟩ => ?_, fun ⟨heq, hneg⟩ => ?_⟩
    · have hcomm := h.max_comm
      rw [maxfp_eq ha hb, maxfp_eq hb ha, hxz, hyz, if_neg (lt_irrefl _), if_neg (lt_irrefl _)] at hcomm
      exact hne hcomm.symm
    · have hgt := h.gt.mp ((gtfp_iff ha hb).mpr (Or.inr ⟨heq, hneg⟩))
      rw [valueS_lt_iff hy hx] at hgt
      omega
  · rintro ⟨hzeros, hneg⟩
    -- where the places are the same the singles are
    have hsame : key (flushIn vscr a) = key (flushIn vscr b) → flushIn vscr a = flushIn vscr b := by
      intro heq
      by_cases h0 : key (flushIn vscr a) = 0
      · by_contra hne
        exact hzeros ⟨h0, heq ▸ h0, hne⟩
      · exact eq_of_key heq h0
    have hmax := @maxfp_eq vscr a b ha hb
    have hmin := @minfp_eq vscr a b ha hb
    refine ⟨?_, ?_, ?_, ?_, fun x hx => maxfp_assoc ha hb hx, fun x hx => minfp_assoc ha hb hx, ?_, ?_,
      ?_, ?_, ?_, ?_, ?_, ?_, ?_⟩
    · rw [hmax, maxfp_eq hb ha]
      split_ifs
      · omega
      · rfl
      · rfl
      · exact (hsame (by omega)).symm
    · rw [hmin, minfp_eq hb ha]
      split_ifs
      · omega
      · rfl
      · rfl
      · exact (hsame (by omega)).symm
    · intro hx0 hy0
      exact absurd (hsame (by rw [hx0, hy0]; rfl)) (by rw [hx0, hy0]; decide)
    · intro hx0 hy0
      exact absurd (hsame (by rw [hx0, hy0]; rfl)) (by rw [hx0, hy0]; decide)
    · rw [maxfp_eq ha ha, ite_self]
    · rw [minfp_eq ha ha, ite_self]
    · rw [hmax]
      split
      · exact Or.inl rfl
      · exact Or.inr rfl
    · rw [hmax]
      split
      next hlt => exact ⟨le_rfl, ((valueS_lt_iff hy hx).mpr hlt).le⟩
      next hle => exact ⟨not_lt.mp ((valueS_lt_iff hy hx).not.mpr hle), le_rfl⟩
    · rw [hmin]
      split
      · exact Or.inl rfl
      · exact Or.inr rfl
    · rw [hmin]
      split
      next hlt => exact ⟨le_rfl, ((valueS_lt_iff hx hy).mpr hlt).le⟩
      next hle => exact ⟨not_lt.mp ((valueS_lt_iff hx hy).not.mpr hle), le_rfl⟩
    · rw [gtfp_iff ha hb, or_iff_left hneg, valueS_lt_iff hy hx]
    · rw [gefp_iff ha hb, ← not_lt, ← not_lt, valueS_lt_iff hx hy]
    · rw [eqfp_iff ha hb, valueS_eq_iff hx hy]

/-- **Maximum and minimum are those of the order of values, and the compares decide it**, in every
lane of their handlers, just where the operands are not zeros of opposite sign and not one and the
same negative number. -/
theorem minmax_lattice_iff :
    (∀ (c : Cpu β) (i : U32), ∀ k < 4,
      LaneByLane c i k c.st.vscr (gw (c.st.user.VA i) k) (gw (c.st.user.VB i) k))
    ∧ ∀ vscr a b : U32, sglNan a = false → sglNan b = false →
      (Lattice vscr a b ↔ ¬ OppositeZeros (flushIn vscr a) (flushIn vscr b)
        ∧ ¬ SameNegative (flushIn vscr a) (flushIn vscr b)) :=
  ⟨fun c i _ hk => laneByLane c i hk, lattice_iff⟩

/-- One and two. -/
theorem minmax_lattice_ones :
    Lattice 0#32 0x3F800000#32 0x40000000#32
      ↔ ¬ OppositeZeros (flushIn 0#32 0x3F800000#32) (flushIn 0#32 0x40000000#32)
        ∧ ¬ SameNegative (flushIn 0#32 0x3F800000#32) (flushIn 0#32 0x40000000#32) :=
  (@minmax_lattice_iff Unit).2 _ _ _ (by decide) (by decide)

/-- The greater of zero and minus zero is the second of them, and minus one is greater than minus
one. -/
theorem zeros_do_not_commute :
    ¬ (∀ vscr a b : U32, sglNan a = false → sglNan b = false → Lattice vscr a b)
      ∧ maxfp 0#32 0#32 kSignBitS ≠ maxfp 0#32 kSignBitS 0#32
      ∧ gtfp 0#32 0xBF800000#32 0xBF800000#32 = true := by
  refine ⟨fun h => ?_, by decide, by decide⟩
  have hcomm := (h 0#32 0#32 kSignBitS (by decide) (by decide)).max_comm
  exact absurd hcomm (by decide)

end Vec

end OpenPowerMac
