/-
Multiplication, division and rounding to single.

`Rounded` spells out what an operation is to deliver for an exact result: the bits,
and for each flag when it is set. The product and the value of a single operand
come out of the arithmetic whole, so `roundPack` does the rest. The quotient comes
out as 56 digits and a remainder (`divDigits_held`), and its digits are then moved
up, so that the sticky bit stands for more than one unit of the significand. That is
harmless: between two neighbours of so fine a grid every magnitude is delivered
alike (`Inside.deliver_eq`).
-/
import OpenPowerMac.Divide
import OpenPowerMac.FusedRounding

set_option autoImplicit false

namespace OpenPowerMac

open Rounding

namespace Sf

/-! ## What is to be delivered -/

/-- The exact result rounded, as if exponents had no upper end. -/
def rounded (t : Tgt) (rn : U32) (x : ℚ) : ℚ := t.format.round (roundMode rn) x

def Overflows (t : Tgt) (rn : U32) (x : ℚ) : Prop := 2 ^ (t.format.emax + 1) ≤ |rounded t rn x|

instance (t : Tgt) (rn : U32) (x : ℚ) : Decidable (Overflows t rn x) :=
  inferInstanceAs (Decidable (_ ≤ _))

/-- An overflow of this sign goes to infinity; else it stops at the greatest number. -/
def ToInfinity (rn : U32) (neg : Bool) : Prop :=
  magMode rn neg = .nearest ∨ magMode rn neg = .up

instance (rn : U32) (neg : Bool) : Decidable (ToInfinity rn neg) :=
  inferInstanceAs (Decidable (_ ∨ _))

/-- A single, as a double. -/
def IsSingle (b : U64) : Prop :=
  (∃ w : U32, FiniteS w ∧ b = encD (negS w) (absS w))
    ∨ ∃ neg : Bool, b = (if neg then kSignBit else 0#64) ||| kInf

/-- **The requirement** on an operation whose exact result is `x`. -/
structure Rounded (t : Tgt) (rn : U32) (x : ℚ) (r : R) : Prop where
  bits : r.bits =
    if Overflows t rn x then
      if ToInfinity rn (decide (x < 0)) then (if x < 0 then kSignBit else 0#64) ||| kInf
      else encD (decide (x < 0)) (greatest t.format)
    else encD (decide (x < 0)) |rounded t rn x|
  overflow : r.fl &&& kOx ≠ 0#32 ↔ Overflows t rn x
  inexact : r.fl &&& kXx ≠ 0#32 ↔ rounded t rn x ≠ x ∨ Overflows t rn x
  underflow : r.fl &&& kUx ≠ 0#32 ↔ |x| < 2 ^ t.format.emin ∧ rounded t rn x ≠ x
  raised : r.fl &&& kFr ≠ 0#32 ↔
    if Overflows t rn x then ToInfinity rn (decide (x < 0)) else |x| < |rounded t rn x|
  single : t = .Sgl → IsSingle r.bits

/-- The rounded magnitude is the magnitude, rounded in the direction it sees. -/
theorem abs_rounded (t : Tgt) (rn : U32) (x : ℚ) :
    |rounded t rn x| = t.format.round (magMode rn (decide (x < 0))) |x| := by
  unfold rounded magMode
  by_cases hx : x < 0
  · rw [decide_eq_true hx, if_pos rfl, abs_of_neg hx, Format.round_flip, Mode.flip_flip]
    exact abs_of_nonpos (Format.round_le_of_le Format.rep_zero hx.le)
  · rw [decide_eq_false hx, if_neg Bool.false_ne_true, abs_of_nonneg (not_lt.mp hx)]
    exact abs_of_nonneg (Format.le_round_of_le Format.rep_zero (not_lt.mp hx))

/-- It is exact just when the number is. -/
theorem abs_rounded_ne_iff (t : Tgt) (rn : U32) (x : ℚ) :
    |rounded t rn x| ≠ |x| ↔ rounded t rn x ≠ x := by
  rw [not_iff_not]
  refine ⟨fun h => ?_, fun h => by rw [h]⟩
  unfold rounded at h ⊢
  rcases le_or_gt 0 x with hx | hx
  · rwa [abs_of_nonneg (Format.le_round_of_le Format.rep_zero hx), abs_of_nonneg hx] at h
  · rw [abs_of_nonpos (Format.round_le_of_le Format.rep_zero hx.le), abs_of_neg hx] at h
    linarith

theorem rounded_flags : ∀ a b c : Bool,
    ∀ fl, fl = (if a then kXx else 0#32) ||| (if b then kFr else 0#32) ||| (if c then kUx else 0#32) →
      ¬ fl &&& kOx ≠ 0#32 ∧ (fl &&& kXx ≠ 0#32 ↔ a = true) ∧ (fl &&& kUx ≠ 0#32 ↔ c = true)
        ∧ (fl &&& kFr ≠ 0#32 ↔ b = true) := by
  rintro a b c fl rfl
  revert a b c
  decide

/-- A single's magnitude makes a single. -/
theorem isSingle_encD (neg : Bool) {v : ℚ} (h : MagS v) : IsSingle (encD neg v) := by
  refine Or.inl ⟨encS neg v, finiteS_encS neg h, ?_⟩
  rw [negS_encS neg h, absS_encS neg h]

theorem magS_greatest : MagS (greatest sgl) := by
  have hval : greatest sgl = ((2 ^ 24 - 1 : ℤ) : ℚ) * 2 ^ (104 : ℤ) := by
    rw [show greatest sgl = 2 ^ (128 : ℤ) - 2 ^ (104 : ℤ) from rfl]
    norm_num
  have hlt : greatest sgl < 2 ^ (128 : ℤ) := by
    rw [show greatest sgl = 2 ^ (128 : ℤ) - 2 ^ (104 : ℤ) from rfl]
    linarith [two_zpow_pos (K := ℚ) 104]
  have hnn : 0 ≤ greatest sgl := by
    rw [hval]
    positivity
  refine ⟨?_, hnn, hlt⟩
  refine Format.rep_of_grid (k := 104) ⟨2 ^ 24 - 1, hval⟩ (by decide) ?_
  rw [abs_of_nonneg hnn]
  exact hlt.le

/-- Nothing overflows from below the normal range. -/
theorem not_overflows_of_tiny {t : Tgt} {rn : U32} {x : ℚ} (h : |x| < 2 ^ t.format.emin) :
    ¬ Overflows t rn x := by
  have hemin := t.format.emin_lt
  have hrep : Format.Rep t.format ((2 : ℚ) ^ t.format.emin) := by
    have := t.format.three_le
    have := t.format.qmin_eq
    exact Format.rep_two_zpow (by omega)
  unfold Overflows
  rw [abs_rounded, not_le]
  exact lt_of_le_of_lt (Format.round_le_of_le hrep h.le) (two_zpow_lt (by omega))

/-- The overflow default meets the requirement. -/
theorem rounded_overflow {t : Tgt} {rn : U32} {x : ℚ} (ho : Overflows t rn x) :
    Rounded t rn x (encode t rn (decide (x < 0)) .overflow) := by
  have htiny : ¬ (|x| < 2 ^ t.format.emin ∧ rounded t rn x ≠ x) :=
    fun h => not_overflows_of_tiny h.1 ho
  unfold encode
  dsimp only
  by_cases hi : ToInfinity rn (decide (x < 0))
  · rw [if_pos (show magMode rn (decide (x < 0)) = .nearest ∨ magMode rn (decide (x < 0)) = .up from hi)]
    refine ⟨?_, iff_of_true (show (kOx ||| kXx ||| kFr) &&& kOx ≠ 0#32 by decide) ho,
      iff_of_true (show (kOx ||| kXx ||| kFr) &&& kXx ≠ 0#32 by decide) (Or.inr ho),
      iff_of_false (show ¬ (kOx ||| kXx ||| kFr) &&& kUx ≠ 0#32 by decide) htiny, ?_,
      fun _ => Or.inr ⟨decide (x < 0), rfl⟩⟩
    · rw [if_pos ho, if_pos hi]
      simp only [decide_eq_true_eq]
    · rw [if_pos ho]
      exact iff_of_true (show (kOx ||| kXx ||| kFr) &&& kFr ≠ 0#32 by decide) hi
  · rw [if_neg (show ¬ (magMode rn (decide (x < 0)) = .nearest ∨ magMode rn (decide (x < 0)) = .up) from hi)]
    refine ⟨?_, iff_of_true (show (kOx ||| kXx) &&& kOx ≠ 0#32 by decide) ho,
      iff_of_true (show (kOx ||| kXx) &&& kXx ≠ 0#32 by decide) (Or.inr ho),
      iff_of_false (show ¬ (kOx ||| kXx) &&& kUx ≠ 0#32 by decide) htiny, ?_, ?_⟩
    · rw [if_pos ho, if_neg hi]
    · rw [if_pos ho]
      exact iff_of_false (show ¬ (kOx ||| kXx) &&& kFr ≠ 0#32 by decide) hi
    · rintro rfl
      exact isSingle_encD _ magS_greatest

/-- A number in range meets it. -/
theorem rounded_finite {t : Tgt} {rn : U32} {x : ℚ} (ho : ¬ Overflows t rn x) :
    Rounded t rn x (encode t rn (decide (x < 0))
      (.finite |rounded t rn x| (decide (|rounded t rn x| ≠ |x|)) (decide (|x| < |rounded t rn x|))
        (decide (|x| < 2 ^ t.format.emin ∧ |rounded t rn x| ≠ |x|)))) := by
  obtain ⟨h₁, h₂, h₃, h₄⟩ := rounded_flags (decide (|rounded t rn x| ≠ |x|))
    (decide (|x| < |rounded t rn x|)) (decide (|x| < 2 ^ t.format.emin ∧ |rounded t rn x| ≠ |x|)) _ rfl
  have hne := abs_rounded_ne_iff t rn x
  refine ⟨?_, iff_of_false h₁ ho, ?_, ?_, ?_, ?_⟩
  · rw [if_neg ho]
    rfl
  · rw [or_iff_left ho, ← hne]
    exact h₂.trans decide_eq_true_iff
  · rw [← hne]
    exact h₃.trans decide_eq_true_iff
  · rw [if_neg ho]
    exact h₄.trans decide_eq_true_iff
  · rintro rfl
    refine isSingle_encD _ ⟨?_, abs_nonneg _, not_le.mp ho⟩
    rw [abs_rounded]
    exact Format.round_rep (f := sgl) _ _

/-- **What `ieee` delivers** meets the requirement. -/
theorem rounded_ieee {t : Tgt} {rn : U32} {zneg : Bool} {x : ℚ} (hx : x ≠ 0) :
    Rounded t rn x (ieee t rn zneg x) := by
  rw [ieee_of_ne_zero hx]
  unfold Format.deliver
  dsimp only
  rw [← abs_rounded]
  by_cases ho : Overflows t rn x
  · rw [if_pos (show 2 ^ (t.format.emax + 1) ≤ |rounded t rn x| from ho)]
    exact rounded_overflow ho
  · rw [if_neg (show ¬ 2 ^ (t.format.emax + 1) ≤ |rounded t rn x| from ho)]
    exact rounded_finite ho

/-! ## The quotient -/

/-- The digits so far and the remainder. -/
structure Quotient (a m : U64) (k : ℕ) (p : U64 × U64) : Prop where
  split : p.1.toNat * m.toNat + p.2.toNat = a.toNat * 2 ^ k
  rest : p.2.toNat < m.toNat
  room : p.1.toNat < 2 ^ (k + 1)

/-- **One step** brings down one digit: the remainder's top bit, which the shift drops, says that
the divisor goes in, and the difference fits a word again. -/
theorem Quotient.step {a m : U64} {k : ℕ} {p : U64 × U64} (hk : k < 62) (h : Quotient a m k p) :
    Quotient a m (k + 1) (divStep m p) := by
  obtain ⟨q, r⟩ := p
  obtain ⟨hsplit, hrest, hroom⟩ := h
  dsimp only at hsplit hrest hroom
  have hm := m.isLt
  have hpow : 2 ^ (k + 1) ≤ 2 ^ 62 := Nat.pow_le_pow_right (by norm_num) (by omega)
  have hq : (q <<< 1).toNat = 2 * q.toNat := by
    rw [shiftLeft_toNat, pow_one, Nat.mod_eq_of_lt (by omega), Nat.mul_comm]
  have hr : (r <<< 1).toNat = 2 * r.toNat % 2 ^ 64 := by
    rw [shiftLeft_toNat, pow_one, Nat.mul_comm]
  have hodd : (q <<< 1 ||| 1#64).toNat = 2 * q.toNat + 1 := by
    rw [BitVec.toNat_or, hq]
    exact (Nat.two_pow_add_eq_or_of_lt (i := 1) (b := 1) (by decide) q.toNat).symm
  have htop : (r >>> 63 != 0#64) = true ↔ 2 ^ 63 ≤ r.toNat := by
    rw [bne_zero, shiftRight_toNat, bne_iff_ne]
    omega
  -- where the shift drops the top bit the digit goes in, whatever the rest compares
  have hgoes : (r >>> 63 != 0#64) = true ∨ r <<< 1 ≥ m ↔ m.toNat ≤ 2 * r.toNat := by
    rw [htop, ge_iff_le, BitVec.le_def, hr]
    omega
  have hdouble : 2 * (q.toNat * m.toNat) + 2 * r.toNat = a.toNat * 2 ^ (k + 1) := by
    calc 2 * (q.toNat * m.toNat) + 2 * r.toNat = 2 * (q.toNat * m.toNat + r.toNat) := by ring
      _ = 2 * (a.toNat * 2 ^ k) := by rw [hsplit]
      _ = a.toNat * 2 ^ (k + 1) := by ring
  unfold divStep
  dsimp only
  by_cases hle : m.toNat ≤ 2 * r.toNat
  · rw [if_pos (hgoes.mpr hle)]
    have hsub : (r <<< 1 - m).toNat = 2 * r.toNat - m.toNat := by
      rw [BitVec.toNat_sub, hr]
      omega
    refine ⟨?_, ?_, ?_⟩
    · dsimp only
      rw [hodd, hsub, add_mul, one_mul, mul_assoc]
      omega
    · dsimp only
      rw [hsub]
      omega
    · dsimp only
      rw [hodd, pow_succ]
      omega
  · rw [if_neg (hgoes.not.mpr hle)]
    refine ⟨?_, ?_, ?_⟩
    · dsimp only
      rw [hq, hr, mul_assoc, Nat.mod_eq_of_lt (by omega)]
      exact hdouble
    · dsimp only
      rw [hr]
      omega
    · dsimp only
      rw [hq, pow_succ]
      omega

theorem Quotient.steps {a m : U64} {p : U64 × U64} (h : Quotient a m 0 p) {n : ℕ} (hn : n ≤ 62) :
    Quotient a m n ((divStep m)^[n] p) := by
  induction n with
  | zero => exact h
  | succ n ih =>
      rw [Function.iterate_succ_apply']
      exact (ih (by omega)).step (by omega)

/-- The first digit. -/
theorem quotient_start {a m : U64} (hm : 2 ^ 63 ≤ m.toNat) :
    Quotient a m 0 (if a ≥ m then (1#64, a - m) else (0#64, a)) := by
  have ha := a.isLt
  split_ifs with h
  · rw [ge_iff_le, BitVec.le_def] at h
    have hsub : (a - m).toNat = a.toNat - m.toNat := by
      rw [BitVec.toNat_sub]
      omega
    refine ⟨?_, ?_, show (1#64).toNat < 2 ^ 1 by decide⟩
    · dsimp only
      rw [hsub, BitVec.toNat_ofNat]
      omega
    · dsimp only
      rw [hsub]
      omega
  · rw [ge_iff_le, BitVec.le_def] at h
    refine ⟨?_, ?_, show (0#64).toNat < 2 ^ 1 by decide⟩
    · dsimp only
      rw [BitVec.toNat_ofNat]
      omega
    · dsimp only
      omega

/-- **The digits hold the quotient.** -/
theorem divDigits_held {a m : U64} (ha : 2 ^ 63 ≤ a.toNat) (hm : 2 ^ 63 ≤ m.toNat) :
    Held (divDigits a m).1.toNat ((divDigits a m).2 != 0#64) ((a.toNat * 2 ^ 55 : ℕ) / m.toNat : ℚ)
      ∧ 2 ^ 54 ≤ (divDigits a m).1.toNat := by
  obtain ⟨hsplit, hrest, -⟩ : Quotient a m 55 (divDigits a m) := (quotient_start hm).steps (by decide)
  obtain ⟨q, hq⟩ : ∃ q, (divDigits a m).1.toNat = q := ⟨_, rfl⟩
  obtain ⟨r, hr⟩ : ∃ r, (divDigits a m).2.toNat = r := ⟨_, rfl⟩
  rw [hq, hr] at hsplit
  rw [hr] at hrest
  have hm0 : (0 : ℚ) < m.toNat := by exact_mod_cast (by omega : 0 < m.toNat)
  have hcast : (q * m.toNat + r : ℚ) = (a.toNat * 2 ^ 55 : ℕ) := by exact_mod_cast hsplit
  have hrest' : (r : ℚ) < m.toNat := by exact_mod_cast hrest
  have hr0 : (0 : ℚ) ≤ r := Nat.cast_nonneg r
  rw [hq, bne_zero, hr]
  refine ⟨⟨?_, ?_, ?_⟩, ?_⟩
  · rw [le_div_iff₀ hm0]
    linarith
  · rw [div_lt_iff₀ hm0]
    linarith
  · rw [bne_eq_false_iff_eq, div_eq_iff hm0.ne', ← hcast, add_eq_left]
    exact_mod_cast Iff.rfl
  · by_contra hlt
    have hmul := Nat.mul_le_mul_right m.toNat (show q + 1 ≤ 2 ^ 54 by omega)
    have hlt64 := m.isLt
    rw [add_mul, one_mul] at hmul
    omega

/-- **Digits moved up** deliver what they held before. -/
theorem roundPack_normalized {neg : Bool} {E : ℤ} {q : U64} {sticky : Bool} {env : Env} (henv : env.Std)
    {t : Tgt} {x : ℚ} (hq : 2 ^ 54 ≤ q.toNat)
    (hx : Held q.toNat sticky (x / 2 ^ (E - 63 + clz64 q))) :
    roundPack neg E (q <<< clz64 q) sticky env t 0#32
      = encode t env.rn neg (t.format.deliver (magMode env.rn neg) x) := by
  have hq0 : q ≠ 0#64 := by
    rw [ne_zero_iff]
    omega
  obtain ⟨hval, htop⟩ := shiftLeft_clz64 hq0
  obtain ⟨z, hz⟩ : ∃ z, clz64 q = z := ⟨_, rfl⟩
  rw [hz] at hx hval htop ⊢
  have hpos := two_zpow_pos (K := ℚ) (E - 63)
  have hunit : (2 : ℚ) ^ (E - 63 + z) = 2 ^ z * 2 ^ (E - 63) := by
    rw [two_zpow_add, zpow_natCast, mul_comm]
  have hpos' := two_zpow_pos (K := ℚ) (E - 63 + z)
  cases sticky with
  | false =>
      refine roundPack_eq henv htop ?_
      have hexact : x / 2 ^ (E - 63) = ((q <<< z).toNat : ℚ) := by
        have h := hx.exact_iff.mp rfl
        rw [div_eq_iff hpos'.ne', hunit] at h
        rw [h, hval, div_eq_iff hpos.ne']
        push_cast
        ring
      rw [hexact]
      exact Held.natCast _
  | true =>
      -- any magnitude just above the digits stands for all up to the next
      have hone : (1 : ℚ) ≤ 2 ^ z := one_le_pow₀ one_le_two
      have hbetween : Held (q <<< z).toNat true
          ((((q <<< z).toNat : ℚ) + 1 / 2) * 2 ^ (E - 63) / 2 ^ (E - 63)) := by
        rw [mul_div_cancel_right₀ _ hpos.ne']
        exact Held.of_lt (by linarith) (by linarith)
      rw [roundPack_eq henv htop hbetween]
      have hfine : (2 : ℚ) ^ (E - 63 + z + 1 + t.format.prec) ≤ ((q.toNat : ℤ) : ℚ) * 2 ^ (E - 63 + z) := by
        have hdigits : (2 : ℚ) ^ (1 + t.format.prec) ≤ q.toNat := by
          have hprec : 1 + t.format.prec ≤ 54 := by
            rw [t.format_prec]
            cases t <;> decide
          calc (2 : ℚ) ^ (1 + t.format.prec) ≤ 2 ^ 54 := pow_le_pow_right₀ one_le_two hprec
            _ ≤ q.toNat := by exact_mod_cast hq
        rw [add_assoc, two_zpow_add, mul_comm]
        exact mul_le_mul_of_nonneg_right (by exact_mod_cast hdigits) hpos'.le
      have hlt := hx.lt_of_sticky
      have hlt' := hx.lt
      rw [lt_div_iff₀ hpos'] at hlt
      rw [div_lt_iff₀ hpos'] at hlt'
      have hinside : Format.Inside t.format (E - 63 + z) q.toNat x :=
        ⟨hfine, by exact_mod_cast hlt, by exact_mod_cast hlt'⟩
      refine congrArg _ (Format.Inside.deliver_eq ⟨hfine, ?_, ?_⟩ hinside _)
      · rw [hval, hunit]
        push_cast
        nlinarith
      · rw [hval, hunit]
        push_cast
        nlinarith

/-- The quotient of two magnitudes, in units of the last digit. -/
theorem quotient_scale (m : ℕ) {n : ℕ} (hn : 2 ^ 63 ≤ n) (d e : ℤ) :
    (m * 2 ^ (d - 63) / (n * 2 ^ (e - 63)) / 2 ^ (d - e - 55) : ℚ) = ((m * 2 ^ 55 : ℕ) : ℚ) / n := by
  have hn0 : (n : ℚ) ≠ 0 := by exact_mod_cast (by omega : n ≠ 0)
  have he := (two_zpow_pos (K := ℚ) (e - 63)).ne'
  have hd := (two_zpow_pos (K := ℚ) (d - e - 55)).ne'
  have hsplit : (2 : ℚ) ^ (d - 63) = 2 ^ (d - e - 55) * 2 ^ (e - 63) * 2 ^ 55 := by
    rw [← two_zpow_add, ← zpow_natCast, ← two_zpow_add]
    congr 1
    push_cast
    ring
  rw [hsplit]
  push_cast
  field_simp
  norm_num

/-- **The quotient is delivered.** -/
theorem div_eq {fa fb : U64} (ha : FiniteD fa) (hb : FiniteD fb) (ha0 : absD fa ≠ 0)
    (hb0 : absD fb ≠ 0) {env : Env} (henv : env.Std) (t : Tgt) :
    div fa fb env t = encode t env.rn (negD fa != negD fb)
      (t.format.deliver (magMode env.rn (negD fa != negD fb)) (absD fa / absD fb)) := by
  have hua := unpack_holds ha ha0
  have hub := unpack_holds hb hb0
  obtain ⟨hheld, hq⟩ := divDigits_held hua.m hub.m
  unfold div
  dsimp only
  simp only [hua.c, hub.c, Cls.nan, hua.s, hub.s, reduceCtorEq, decide_false, Bool.or_self,
    Bool.false_eq_true, if_false, or_self]
  refine roundPack_normalized henv hq ?_
  obtain ⟨z, hz⟩ : ∃ z, clz64 (divDigits (unpack fa).m (unpack fb).m).1 = z := ⟨_, rfl⟩
  rw [hz, show (unpack fa).e - (unpack fb).e + (8 - z) - 63 + z = (unpack fa).e - (unpack fb).e - 55 by ring,
    hua.x, hub.x, quotient_scale _ hub.m]
  exact hheld

/-! ## The three operations -/

section Operations

variable {h : Host} {off : U32} {env : Env} {fa fb : U64}

/-- The product. -/
theorem mul_eq (hs : off &&& kFastOffSgl ≠ 0#32) (hd : off &&& kFastOffDbl ≠ 0#32) (henv : env.Std)
    (ha : FiniteD fa) (hb : FiniteD fb) (t : Tgt) :
    mul h off fa fb env t = ieee t env.rn (negD fa != negD fb) (valD fa * valD fb) := by
  have hplain : plainD off env t = false := by
    unfold plainD
    rw [beq_eq_false_iff_ne.mpr hd, Bool.and_false]
  have hexact : fusedExact fa fb 0#64 false = valD fa * valD fb := add_zero _
  have hmodel : fmaModel fa fb 0#64 false false false env t
      = ieee t env.rn (negD fa != negD fb) (valD fa * valD fb) := by
    rw [fmaModel_of_exact ha hb (by decide) henv]
    · unfold fusedSpec fusedZero
      rw [hexact, Bool.false_and, if_neg Bool.false_ne_true, Bool.bne_false]
      rfl
    · rw [hexact]
      exact accumulated_zero_right _
  unfold mul
  dsimp only
  rw [hplain, if_neg Bool.false_ne_true]
  unfold fmaCore
  dsimp only
  rw [if_neg fun h => hs h.2.2, Bool.false_and, if_neg Bool.false_ne_true]
  exact hmodel

/-- The quotient. -/
theorem div_ieee (ha : FiniteD fa) (hb : FiniteD fb) (ha0 : valD fa ≠ 0) (hb0 : valD fb ≠ 0)
    (henv : env.Std) (t : Tgt) (zneg : Bool) :
    div fa fb env t = ieee t env.rn zneg (valD fa / valD fb) := by
  have hquot : valD fa / valD fb = signed (negD fa != negD fb) (absD fa / absD fb) := by
    rw [valD_eq, valD_eq]
    unfold signed
    cases negD fa <;> cases negD fb <;> simp [neg_div, div_neg]
  have ha0' := (valD_eq_zero_iff fa).not.mp ha0
  have hb0' := (valD_eq_zero_iff fb).not.mp hb0
  have hpos : 0 < absD fa / absD fb :=
    div_pos (unpack_holds ha ha0').pos (unpack_holds hb hb0').pos
  rw [ieee_of_ne_zero (div_ne_zero ha0 hb0), hquot, signed_neg_iff _ hpos, abs_signed _ hpos.le]
  exact div_eq ha hb ha0' hb0' henv t

/-- The single nearest in the direction, on the slow arm. -/
theorem rspModel_eq (ha : FiniteD fa) (ha0 : valD fa ≠ 0) (henv : env.Std) (zneg : Bool) :
    rspModel fa env = ieee .Sgl env.rn zneg (valD fa) := by
  have ha0' := (valD_eq_zero_iff fa).not.mp ha0
  have hu := unpack_holds ha ha0'
  have hheld : Held (unpack fa).m.toNat false (absD fa / 2 ^ ((unpack fa).e - 63)) := by
    rw [hu.x, mul_div_cancel_right₀ _ (two_zpow_pos (K := ℚ) _).ne']
    exact Held.natCast _
  rw [ieee_of_ne_zero ha0, valD_eq, signed_neg_iff _ hu.pos, abs_signed _ hu.pos.le]
  unfold rspModel
  dsimp only
  simp only [hu.c, hu.s, reduceCtorEq, or_self, if_false]
  exact roundPack_eq henv hu.m hheld

theorem rsp_eq (hd : off &&& kFastOffDbl ≠ 0#32) (ha : FiniteD fa) (ha0 : valD fa ≠ 0)
    (henv : env.Std) (zneg : Bool) : rsp h off fa env = ieee .Sgl env.rn zneg (valD fa) := by
  have hfast : (env.plain && off &&& kFastOffDbl == 0#32) = false := by
    rw [beq_eq_false_iff_ne.mpr hd, Bool.and_false]
  unfold rsp
  rw [hfast, if_neg Bool.false_ne_true]
  exact rspModel_eq ha ha0 henv zneg

/-- **Multiplication, division and rounding to single are correctly rounded**, with exact
flags. -/
theorem mul_div_rsp_rounded (hs : off &&& kFastOffSgl ≠ 0#32) (hd : off &&& kFastOffDbl ≠ 0#32)
    (henv : env.Std) (ha : FiniteD fa) (hb : FiniteD fb) (ha0 : valD fa ≠ 0) (hb0 : valD fb ≠ 0)
    (t : Tgt) :
    Rounded t env.rn (valD fa * valD fb) (mul h off fa fb env t)
      ∧ Rounded t env.rn (valD fa / valD fb) (div fa fb env t)
      ∧ Rounded .Sgl env.rn (valD fa) (rsp h off fa env) := by
  refine ⟨?_, ?_, ?_⟩
  · rw [mul_eq hs hd henv ha hb]
    exact rounded_ieee (mul_ne_zero ha0 hb0)
  · rw [div_ieee ha hb ha0 hb0 henv t false]
    exact rounded_ieee (div_ne_zero ha0 hb0)
  · rw [rsp_eq hd ha ha0 henv false]
    exact rounded_ieee ha0

end Operations

/-- One and three. -/
theorem mul_div_rsp_rounded_third :
    Rounded .Dbl 0#32 (valD kOne * valD 0x4008000000000000#64)
        (mul softHost 3#32 kOne 0x4008000000000000#64 Env.nearest .Dbl)
      ∧ Rounded .Dbl 0#32 (valD kOne / valD 0x4008000000000000#64)
        (div kOne 0x4008000000000000#64 Env.nearest .Dbl)
      ∧ Rounded .Sgl 0#32 (valD kOne) (rsp softHost 3#32 kOne Env.nearest) := by
  have hone : valD kOne ≠ 0 := by
    rw [ne_eq, valD_eq_zero_iff, absD_eq_zero_iff]
    decide
  have hthree : valD 0x4008000000000000#64 ≠ 0 := by
    rw [ne_eq, valD_eq_zero_iff, absD_eq_zero_iff]
    decide
  exact mul_div_rsp_rounded (by decide) (by decide) Env.nearest_std
    (by decide) (by decide) hone hthree .Dbl

end Sf

end OpenPowerMac
