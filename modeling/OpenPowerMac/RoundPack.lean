/-
Rounding and packing.

`ieee` is what the software floating point is to deliver for an exact result: the
IEEE-754 number in the mode of `RN`, the default on overflow, and the flags.
`roundPack_eq` is the one fact the rest uses: from a significand that holds a
magnitude, sticky bit and all, `roundPack` delivers just that.
-/
import OpenPowerMac.Softfp
import OpenPowerMac.Boundary
import OpenPowerMac.Sticky

set_option autoImplicit false

namespace OpenPowerMac

open Rounding

namespace Sf

/-! ## What is to be delivered -/

/-- The format of a target. -/
def Tgt.format : Tgt → Format
  | Dbl => dbl
  | Sgl => sgl

/-- The direction `FPSCR[RN]` names. -/
def roundMode (rn : U32) : Mode :=
  match rn with
  | 0#32 => .nearest
  | 1#32 => .zero
  | 2#32 => .up
  | _ => .down

/-- The direction, seen from a magnitude. -/
def magMode (rn : U32) (neg : Bool) : Mode :=
  if neg then (roundMode rn).flip else roundMode rn

/-- The greatest number of a format. -/
def greatest (f : Format) : ℚ := 2 ^ (f.emax + 1) - 2 ^ (f.emax - f.prec + 1)

/-- An outcome, as a double with its flags. On overflow the default is an infinity
unless the direction stops short of it. -/
def encode (t : Tgt) (rn : U32) (neg : Bool) : Outcome ℚ → R
  | .overflow =>
      if magMode rn neg = .nearest ∨ magMode rn neg = .up then
        { bits := (if neg then kSignBit else 0#64) ||| kInf, fl := kOx ||| kXx ||| kFr }
      else { bits := encD neg (greatest t.format), fl := kOx ||| kXx }
  | .finite v inexact up under =>
      { bits := encD neg v
        fl := (if inexact then kXx else 0#32) ||| (if up then kFr else 0#32)
          ||| (if under then kUx else 0#32) }

/-- The IEEE-754 result of an exact value: `zneg` is the sign a zero takes. -/
def ieee (t : Tgt) (rn : U32) (zneg : Bool) (x : ℚ) : R :=
  if x = 0 then { bits := packZero zneg, fl := 0#32 }
  else encode t rn (decide (x < 0)) (t.format.deliver (magMode rn (decide (x < 0))) |x|)

/-- The four directions. -/
theorem rn_cases {rn : U32} (hrn : rn.toNat < 4) : rn = 0#32 ∨ rn = 1#32 ∨ rn = 2#32 ∨ rn = 3#32 := by
  simp only [← BitVec.toNat_inj]
  have hnat : ∀ n : ℕ, n < 4 → n = 0 ∨ n = 1 ∨ n = 2 ∨ n = 3 := by omega
  exact hnat _ hrn

/-- No enabled exceptions, no flush to zero, and a direction. -/
structure Env.Std (env : Env) : Prop where
  rn : env.rn.toNat < 4
  oe : env.oe = false
  ue : env.ue = false
  ni : env.ni = false

/-- To nearest, and nothing enabled. -/
def Env.nearest : Env := ⟨0#32, false, false, false⟩

theorem Env.nearest_std : Env.nearest.Std := ⟨by decide, rfl, rfl, rfl⟩

theorem Tgt.format_prec (t : Tgt) : t.format.prec = t.p := by cases t <;> rfl

theorem Tgt.format_emin (t : Tgt) : t.format.emin = t.emin := by cases t <;> rfl

theorem Tgt.format_emax (t : Tgt) : t.format.emax = t.emax := by cases t <;> rfl

/-! ## Digits of a word -/

theorem bit_eq (x : U64) (n : ℕ) :
    ((x >>> n) &&& 1#64 != 0#64) = (x.toNat / 2 ^ n % 2 == 1) := by
  have h : ((x >>> n) &&& 1#64).toNat = x.toNat / 2 ^ n % 2 := by
    rw [BitVec.toNat_and, BitVec.toNat_ushiftRight, Nat.shiftRight_eq_div_pow]
    exact Nat.and_one_is_mod _
  rw [Bool.eq_iff_iff, bne_iff_ne, beq_iff_eq, ne_eq, ← BitVec.toNat_inj, h]
  show ¬ x.toNat / 2 ^ n % 2 = 0 ↔ _
  omega

theorem low_eq (x : U64) {n : ℕ} (hn : n < 64) :
    (x &&& ((1#64 <<< n) - 1#64) != 0#64) = (x.toNat % 2 ^ n != 0) := by
  have hpow : 2 ^ n < 2 ^ 64 := Nat.pow_lt_pow_right (by norm_num) hn
  have hpos := Nat.two_pow_pos n
  have hone : (1#64 <<< n).toNat = 2 ^ n := by
    rw [BitVec.toNat_shiftLeft, Nat.shiftLeft_eq]
    exact (congrArg (· % _) (one_mul _)).trans (Nat.mod_eq_of_lt hpow)
  have hmask : ((1#64 <<< n) - 1#64).toNat = 2 ^ n - 1 := by
    rw [BitVec.toNat_sub_of_le (by rw [BitVec.le_def, hone]; exact hpos), hone]
    rfl
  have h : (x &&& ((1#64 <<< n) - 1#64)).toNat = x.toNat % 2 ^ n := by
    rw [BitVec.toNat_and, hmask, Nat.and_two_pow_sub_one_eq_mod]
  rw [Bool.eq_iff_iff, bne_iff_ne, bne_iff_ne, ne_eq, ne_eq, ← BitVec.toNat_inj, h]
  rfl

theorem shiftRight_toNat (x : U64) (n : ℕ) : (x >>> n).toNat = x.toNat / 2 ^ n := by
  rw [BitVec.toNat_ushiftRight, Nat.shiftRight_eq_div_pow]

/-- What a left shift keeps, of what a right shift drops. -/
theorem shiftLeft_ne_zero (x : U64) {n : ℕ} (h0 : 0 < n) (hn : n < 64) :
    (x <<< (64 - n) != 0#64) = (x.toNat % 2 ^ n != 0) := by
  have hsplit : 2 ^ 64 = 2 ^ n * 2 ^ (64 - n) := by
    rw [← pow_add]
    congr 1
    omega
  have h : (x <<< (64 - n)).toNat = x.toNat % 2 ^ n * 2 ^ (64 - n) := by
    rw [BitVec.toNat_shiftLeft, Nat.shiftLeft_eq]
    conv_lhs => rw [hsplit]
    exact Nat.mul_mod_mul_right _ _ _
  rw [Bool.eq_iff_iff, bne_iff_ne, bne_iff_ne, ne_eq, ne_eq, ← BitVec.toNat_inj, h]
  show ¬ x.toNat % 2 ^ n * 2 ^ (64 - n) = 0 ↔ _
  rw [Nat.mul_eq_zero]
  have := Nat.two_pow_pos (64 - n)
  omega

theorem clz64_eq {x : U64} (hx : x ≠ 0#64) : clz64 x = 63 - x.toNat.log2 := if_neg hx

theorem log2_lt (x : U64) : x.toNat.log2 < 64 := by
  by_cases h : x.toNat = 0
  · rw [h]
    decide
  · exact (Nat.log2_lt h).mpr x.isLt

/-! ## Packing -/

theorem ofNat_or_sign {neg : Bool} (n : ℕ) (a : U64) (h : a.toNat = n) :
    (if neg then kSignBit else 0#64) ||| a
      = (if neg then kSignBit else 0#64) ||| BitVec.ofNat 64 n := by
  rw [← h, BitVec.ofNat_toNat, BitVec.setWidth_eq]

/-- The bits of a digit string, in double. -/
theorem dbl_magBits {m : ℕ} {k : ℤ} (hk : -1074 ≤ k) (hm : m < 2 ^ 53)
    (hfull : k = -1074 ∨ 2 ^ 52 ≤ m) :
    dbl.magBits ((m : ℚ) * 2 ^ k) = m + (k + 1074).toNat * 2 ^ 52 :=
  Format.magBits_natMul (f := dbl) hk hm hfull

/-- The leading zeros, shifted out. -/
theorem shiftLeft_clz64 {q : U64} (hq : q ≠ 0#64) :
    (q <<< clz64 q).toNat = q.toNat * 2 ^ clz64 q ∧ 2 ^ 63 ≤ (q <<< clz64 q).toNat := by
  have hq0 : q.toNat ≠ 0 := fun h => hq (BitVec.eq_of_toNat_eq h)
  have hlo := Nat.log2_self_le hq0
  have hhi := Nat.lt_log2_self (n := q.toNat)
  have hlog := log2_lt q
  rw [clz64_eq hq]
  obtain ⟨L, hL⟩ : ∃ L, q.toNat.log2 = L := ⟨_, rfl⟩
  rw [hL] at hlo hhi hlog ⊢
  have hval : (q <<< (63 - L)).toNat = q.toNat * 2 ^ (63 - L) := by
    rw [BitVec.toNat_shiftLeft, Nat.shiftLeft_eq, Nat.mod_eq_of_lt]
    calc q.toNat * 2 ^ (63 - L) < 2 ^ (L + 1) * 2 ^ (63 - L) :=
          Nat.mul_lt_mul_of_pos_right hhi (Nat.two_pow_pos _)
      _ = 2 ^ 64 := by
          rw [← pow_add]
          congr 1
          omega
  refine ⟨hval, ?_⟩
  rw [hval]
  calc 2 ^ 63 = 2 ^ L * 2 ^ (63 - L) := by
        rw [← pow_add]
        congr 1
        omega
    _ ≤ _ := Nat.mul_le_mul_right _ hlo

/-- A subnormal: the digits, down to the least quantum. -/
theorem magBits_subnormal {m : U64} {k : ℤ} (hm0 : m ≠ 0#64) (hk : -1074 ≤ k)
    (hsub : k + m.toNat.log2 < -1022) :
    ((m <<< clz64 m) >>> (-1011 - (k + m.toNat.log2)).toNat).toNat
      = dbl.magBits ((m.toNat : ℚ) * 2 ^ k) := by
  obtain ⟨hn, -⟩ := shiftLeft_clz64 hm0
  rw [clz64_eq hm0] at hn ⊢
  have hlog := Nat.lt_log2_self (n := m.toNat)
  obtain ⟨L, hL⟩ : ∃ L, m.toNat.log2 = L := ⟨_, rfl⟩
  rw [hL] at hn hlog hsub ⊢
  obtain ⟨d, hd⟩ : ∃ d : ℕ, k = -1074 + d := ⟨(k + 1074).toNat, by omega⟩
  have hsh : (-1011 - (k + (L : ℤ))).toNat = 63 - L - d := by omega
  have hval : (m.toNat : ℚ) * 2 ^ k = ((m.toNat * 2 ^ d : ℕ) : ℚ) * 2 ^ (-1074 : ℤ) := by
    rw [hd, two_zpow_add, zpow_natCast, mul_comm ((2 : ℚ) ^ (-1074 : ℤ)), ← mul_assoc]
    norm_cast
  have hlt : m.toNat * 2 ^ d < 2 ^ 52 := by
    calc m.toNat * 2 ^ d < 2 ^ (L + 1) * 2 ^ d :=
          Nat.mul_lt_mul_of_pos_right hlog (Nat.two_pow_pos _)
      _ = 2 ^ (L + 1 + d) := (pow_add _ _ _).symm
      _ ≤ 2 ^ 52 := Nat.pow_le_pow_right (by norm_num) (by omega)
  have hbits : dbl.magBits ((m.toNat : ℚ) * 2 ^ k) = m.toNat * 2 ^ d := by
    rw [hval, dbl_magBits (le_refl _) (by omega) (Or.inl rfl)]
    simp only [neg_add_cancel, Int.toNat_zero, zero_mul, add_zero]
  rw [hbits, hsh, shiftRight_toNat, hn, show 63 - L = d + (63 - L - d) by omega, pow_add,
    ← Nat.mul_assoc, show d + (63 - L - d) - d = 63 - L - d by omega]
  exact Nat.mul_div_cancel _ (Nat.two_pow_pos _)

/-- A normal: the exponent field, and the digits without the leading one. -/
theorem magBits_normal {m : U64} {k : ℤ} (hm0 : m ≠ 0#64) (hm : m.toNat < 2 ^ 53)
    (htop : k + m.toNat.log2 ≤ 1023) (hnormal : ¬ k + m.toNat.log2 < -1022) :
    (BitVec.ofInt 64 (k + m.toNat.log2 + 1023) <<< 52
        ||| (m <<< clz64 m <<< 1) >>> 12).toNat = dbl.magBits ((m.toNat : ℚ) * 2 ^ k) := by
  have hpos : m.toNat ≠ 0 := fun h => hm0 (BitVec.eq_of_toNat_eq h)
  obtain ⟨hn, -⟩ := shiftLeft_clz64 hm0
  rw [clz64_eq hm0] at hn ⊢
  have hlog := Nat.log2_self_le hpos
  have hlog' := Nat.lt_log2_self (n := m.toNat)
  have hL53 : m.toNat.log2 < 53 := (Nat.log2_lt hpos).mpr hm
  obtain ⟨L, hL⟩ : ∃ L, m.toNat.log2 = L := ⟨_, rfl⟩
  rw [hL] at hn hlog hlog' hL53 htop hnormal ⊢
  obtain ⟨e, he⟩ : ∃ e : ℕ, k + L = -1022 + e := ⟨(k + L + 1022).toNat, by omega⟩
  have hval : (m.toNat : ℚ) * 2 ^ k
      = ((m.toNat * 2 ^ (52 - L) : ℕ) : ℚ) * 2 ^ (-1074 + e : ℤ) := by
    have hk' : (-1074 + e : ℤ) = k - (52 - L : ℕ) := by omega
    rw [hk', zpow_sub₀ two_ne_zero, zpow_natCast]
    push_cast
    field_simp
  have hge : 2 ^ 52 ≤ m.toNat * 2 ^ (52 - L) := by
    calc 2 ^ 52 = 2 ^ L * 2 ^ (52 - L) := by rw [← pow_add]; congr 1; omega
      _ ≤ m.toNat * 2 ^ (52 - L) := Nat.mul_le_mul_right _ hlog
  have hlt : m.toNat * 2 ^ (52 - L) < 2 ^ 53 := by
    calc m.toNat * 2 ^ (52 - L) < 2 ^ (L + 1) * 2 ^ (52 - L) :=
          Nat.mul_lt_mul_of_pos_right hlog' (Nat.two_pow_pos _)
      _ = 2 ^ 53 := by rw [← pow_add]; congr 1; omega
  obtain ⟨d, hd⟩ : ∃ d, m.toNat * 2 ^ (52 - L) = d := ⟨_, rfl⟩
  rw [hd] at hval hge hlt
  have hbits : dbl.magBits ((m.toNat : ℚ) * 2 ^ k) = d + e * 2 ^ 52 := by
    rw [hval, dbl_magBits (by omega) hlt (Or.inr hge)]
    omega
  have hnd : m.toNat * 2 ^ (63 - L) = d * 2 ^ 11 := by
    rw [← hd, Nat.mul_assoc, ← pow_add]
    congr 2
    omega
  have hexp : (BitVec.ofInt 64 (k + L + 1023)).toNat = e + 1 := by
    rw [BitVec.toNat_ofInt, he]
    omega
  have hfield : (BitVec.ofInt 64 (k + L + 1023) <<< 52).toNat = (e + 1) * 2 ^ 52 := by
    rw [BitVec.toNat_shiftLeft, Nat.shiftLeft_eq, hexp, Nat.mod_eq_of_lt]
    have : e + 1 ≤ 2046 := by omega
    calc (e + 1) * 2 ^ 52 ≤ 2046 * 2 ^ 52 := Nat.mul_le_mul_right _ this
      _ < 2 ^ 64 := by norm_num
  -- the shift by one drops the leading one
  have hfrac : ((m <<< (63 - L) <<< 1) >>> 12).toNat = d - 2 ^ 52 := by
    rw [shiftRight_toNat, BitVec.toNat_shiftLeft, Nat.shiftLeft_eq, hn, hnd]
    omega
  rw [hbits, BitVec.toNat_or, hfield, hfrac, Nat.mul_comm,
    ← Nat.two_pow_add_eq_or_of_lt (by omega)]
  omega

/-- **Packing is encoding**: digits of at most the double's precision, no finer
than its least quantum and below its overflow threshold. -/
theorem packExact_eq {neg : Bool} {m : U64} {k : ℤ} (hm0 : m ≠ 0#64) (hm : m.toNat < 2 ^ 53)
    (hk : -1074 ≤ k) (htop : k + m.toNat.log2 ≤ 1023) :
    packExact neg (k + m.toNat.log2) (m <<< clz64 m) = encD neg (m.toNat * 2 ^ k) := by
  unfold packExact encD
  dsimp only
  by_cases hsub : k + m.toNat.log2 < -1022
  · have hsh : ¬ (-1011 - (k + (m.toNat.log2 : ℤ))).toNat ≥ 64 := by
      have := log2_lt m
      omega
    rw [if_pos hsub, if_neg hsh]
    exact ofNat_or_sign _ _ (magBits_subnormal hm0 hk hsub)
  · rw [if_neg hsub, BitVec.or_assoc]
    exact ofNat_or_sign _ _ (magBits_normal hm0 hm htop hsub)

/-- The kept digits, delivered. -/
theorem packKept_eq {neg : Bool} {env : Env} (henv : env.Std) {t : Tgt} {m : U64} {E : ℤ}
    (hm : m.toNat < 2 ^ t.p) (hE : t.emin ≤ E) (htop : E ≤ t.emax) :
    packKept neg E m env t = encD neg (m.toNat * 2 ^ (E - (t.p - 1))) := by
  unfold packKept
  by_cases hm0 : m = 0#64
  · rw [if_pos hm0, hm0]
    unfold packZero encD
    rw [show (0#64).toNat = 0 from rfl, Nat.cast_zero, zero_mul, Format.magBits_zero]
    exact (BitVec.or_zero).symm
  · have hpos : m.toNat ≠ 0 := fun h => hm0 (BitVec.eq_of_toNat_eq h)
    have hL : m.toNat.log2 < t.p := (Nat.log2_lt hpos).mpr hm
    have hbd : t.p ≤ 53 ∧ -1074 ≤ t.emin - (t.p - 1) ∧ t.emax ≤ 1023 := by
      cases t <;> simp only [Tgt.p, Tgt.emin, Tgt.emax] <;> omega
    have hexp : E - (t.p - 1) + ((63 : ℤ) - clz64 m) = E - (t.p - 1) + (m.toNat.log2 : ℤ) := by
      have := log2_lt m
      rw [clz64_eq hm0]
      omega
    rw [if_neg hm0]
    dsimp only
    rw [henv.ni, if_neg (by rintro ⟨h, -⟩; exact Bool.noConfusion h), hexp]
    exact packExact_eq hm0 (lt_of_lt_of_le hm (Nat.pow_le_pow_right (by norm_num) hbd.1))
      (by omega) (by omega)

/-! ## The increment -/

/-- **The increment is the rounding model's**: from the guard, round, sticky and
lowest kept digit, the integer the direction picks. -/
theorem roundInc_eq {rn : U32} (hrn : rn.toNat < 4) (neg : Bool) {g r x lsb s : Bool} {m : ℕ} {z : ℚ}
    (h : Held m s z) (hg : g = (m % 2 == 1)) (hs : (r || x) = s) (hl : lsb = (m / 2 % 2 == 1)) :
    (magMode rn neg).toInt (z / 2)
      = (m / 2 : ℕ) + (roundInc rn neg g r x lsb (g || r || x)).toNat := by
  have hhalf := h.shift 1
  rw [pow_one, pow_one] at hhalf
  have hin : (g || r || x) = (s || m % 2 != 0) := by
    rw [hg, ← hs]
    rcases Nat.mod_two_eq_zero_or_one m with h | h <;> rw [h] <;> cases r <;> cases x <;> rfl
  have hz := hhalf.toInt_zero
  have hfl := hhalf.floor_eq
  have hce := hhalf.ceil_eq
  rw [← hin] at hce
  have hne : Mode.nearest.toInt (z / 2) = (m / 2 : ℕ) + (g && (r || x || lsb)).toNat := by
    rw [hs, hg, hl]
    exact_mod_cast h.nearestEven_half
  rcases rn_cases hrn with rfl | rfl | rfl | rfl <;> cases neg
  · exact hne
  · exact hne
  · exact hz.trans (by simp [roundInc])
  · exact hz.trans (by simp [roundInc])
  · exact hce
  · exact hfl.trans (by simp [roundInc])
  · exact hfl.trans (by simp [roundInc])
  · exact hce

/-- The round and sticky digits together are all that lies below the guard. -/
theorem below_guard (sig : U64) (sticky : Bool) {n : ℕ} (hn : n < 63) :
    (((sig >>> n) &&& 1#64 != 0#64) || (sticky || sig &&& ((1#64 <<< n) - 1#64) != 0#64))
      = (sticky || sig.toNat % 2 ^ (n + 1) != 0) := by
  rw [bit_eq, low_eq sig (by omega), Nat.mod_pow_succ]
  rcases Nat.mod_two_eq_zero_or_one (sig.toNat / 2 ^ n) with h | h <;> rw [h]
  · simp
  · rw [Bool.eq_iff_iff]
    simp

/-- The magnitude a significand holds, in units of what the target keeps. -/
theorem quant_held {t : Tgt} {E : ℤ} {n : ℕ} {s : Bool} {x : ℚ} (hx : Held n s (x / 2 ^ (E - 63)))
    (hn : n < 2 ^ 64) (hE : t.emin ≤ E) (hfull : E = t.emin ∨ 2 ^ 63 ≤ n) :
    t.format.quant x = E - (t.p - 1) := by
  have hpos := two_zpow_pos (K := ℚ) (E - 63)
  have hx0 : 0 ≤ x := by
    have h := mul_nonneg hx.nonneg hpos.le
    rwa [div_mul_cancel₀ _ hpos.ne'] at h
  have hq : t.format.qmin = t.emin - (t.p - 1) := by
    rw [Format.qmin, t.format_emin, t.format_prec]
  have htop : x < 2 ^ (E + 1) := by
    have h : x / 2 ^ (E - 63) < 2 ^ 64 := hx.lt.trans_le (by exact_mod_cast hn)
    rw [div_lt_iff₀ hpos] at h
    calc x < 2 ^ (64 : ℕ) * 2 ^ (E - 63) := h
      _ = 2 ^ (E + 1) := by
        rw [← zpow_natCast, ← two_zpow_add]
        congr 1
        omega
  refine Format.quant_eq (by omega) ?_ (hfull.imp (fun h => by omega) fun h => ?_)
  · rw [abs_of_nonneg hx0, t.format_prec, show E - ((t.p : ℤ) - 1) + t.p = E + 1 by ring]
    exact htop
  · rw [abs_of_nonneg hx0, t.format_prec, show E - ((t.p : ℤ) - 1) + t.p - 1 = E by ring]
    have hge : (2 : ℚ) ^ (63 : ℕ) ≤ x / 2 ^ (E - 63) := le_trans (by exact_mod_cast h) hx.le
    rw [le_div_iff₀ hpos] at hge
    calc (2 : ℚ) ^ E = 2 ^ (63 : ℕ) * 2 ^ (E - 63) := by
          rw [← zpow_natCast, ← two_zpow_add]
          congr 1
          omega
      _ ≤ x := hge

/-- The greatest number's bits. -/
theorem encD_greatest (neg : Bool) (t : Tgt) :
    encD neg (greatest t.format) = (if neg then kSignBit else 0#64)
      ||| (match t with | .Sgl => kMaxSglAsDbl | .Dbl => kMaxDbl) := by
  have hg : greatest t.format = ((2 ^ t.p - 1 : ℕ) : ℚ) * 2 ^ (t.emax - t.p + 1) := by
    have hone : 1 ≤ 2 ^ t.p := Nat.one_le_two_pow
    unfold greatest
    rw [t.format_emax, t.format_prec, Nat.cast_sub hone, sub_mul,
      show t.emax + 1 = (t.p : ℤ) + (t.emax - t.p + 1) by ring, two_zpow_add, zpow_natCast]
    push_cast
    ring
  unfold encD
  cases t with
  | Dbl =>
      rw [hg, dbl_magBits (by decide) (by decide) (Or.inr (by decide))]
      rfl
  | Sgl =>
      have hs : ((2 ^ 24 - 1 : ℕ) : ℚ) * 2 ^ (104 : ℤ) = ((2 ^ 53 - 2 ^ 29 : ℕ) : ℚ) * 2 ^ (75 : ℤ) := by
        norm_num
      rw [hg]
      show _ ||| BitVec.ofNat 64 (dbl.magBits (((2 ^ 24 - 1 : ℕ) : ℚ) * 2 ^ (104 : ℤ))) = _
      rw [hs, dbl_magBits (by decide) (by decide) (Or.inr (by decide))]
      rfl

theorem roundInc_inx {rn : U32} {neg g r x lsb : Bool}
    (h : roundInc rn neg g r x lsb (g || r || x) = true) : (g || r || x) = true := by
  unfold roundInc at h
  revert h
  split <;> cases g <;> cases r <;> cases x <;> simp

/-- The default on overflow. -/
theorem overflowDefault_eq {rn : U32} (hrn : rn.toNat < 4) (neg : Bool) (t : Tgt) {fl : U32}
    (hfl : fl = 0#32 ∨ fl = kXx ∨ fl = kXx ||| kFr) :
    overflowDefault neg rn t (fl ||| kOx) = encode t rn neg .overflow := by
  unfold overflowDefault encode packInf
  dsimp only
  rw [encD_greatest]
  rcases rn_cases hrn with rfl | rfl | rfl | rfl <;> cases neg <;> rcases hfl with rfl | rfl | rfl <;>
    cases t <;> decide

/-- The flags of a finite outcome, set one after the other. -/
theorem flags_eq (inx inc tiny : Bool) :
    (if tiny = true ∧ inx = true then
        (if inc then (if inx then 0#32 ||| kXx else 0#32) ||| kFr
          else if inx then 0#32 ||| kXx else 0#32) ||| kUx
      else if inc then (if inx then 0#32 ||| kXx else 0#32) ||| kFr
        else if inx then 0#32 ||| kXx else 0#32)
      = (if inx then kXx else 0#32) ||| (if inc then kFr else 0#32)
        ||| (if tiny && inx then kUx else 0#32) := by
  cases inx <;> cases inc <;> cases tiny <;> decide

/-- What is kept, and its exponent, after the carry. -/
theorem carry_eq {p : ℕ} (hp0 : 0 < p) (hp : p < 64) {kept : U64} (h : kept.toNat ≤ 2 ^ p) (E : ℤ) :
    let carry : Bool := kept >>> p != 0#64
    let E' := if carry then E + 1 else E
    let kept' := if carry then kept >>> 1 else kept
    kept'.toNat < 2 ^ p ∧ (E ≤ E' ∧ E' ≤ E + 1)
      ∧ (kept'.toNat : ℚ) * 2 ^ (E' - (p - 1)) = kept.toNat * 2 ^ (E - (p - 1))
      ∧ (2 ^ (p - 1) ≤ kept.toNat → 2 ^ (p - 1) ≤ kept'.toNat) := by
  have hpow : 2 ^ p = 2 * 2 ^ (p - 1) := by
    rw [← pow_succ']
    congr 1
    omega
  have hcarry : (kept >>> p != 0#64) = decide (kept.toNat = 2 ^ p) := by
    have hd : (kept >>> p).toNat = kept.toNat / 2 ^ p := shiftRight_toNat _ _
    rw [Bool.eq_iff_iff, bne_iff_ne, decide_eq_true_iff, ne_eq, ← BitVec.toNat_inj, hd]
    show ¬ kept.toNat / 2 ^ p = 0 ↔ _
    rw [Nat.div_eq_zero_iff]
    have := Nat.two_pow_pos p
    omega
  dsimp only
  rw [hcarry]
  by_cases hk : kept.toNat = 2 ^ p
  · simp only [hk, decide_true, if_true]
    rw [shiftRight_toNat, hk, pow_one, hpow, Nat.mul_div_cancel_left _ (by norm_num)]
    have hpos := Nat.two_pow_pos (p - 1)
    refine ⟨by omega, by omega, ?_, fun _ => le_refl _⟩
    rw [show E + 1 - ((p : ℤ) - 1) = E - (p - 1) + 1 by ring, two_zpow_succ]
    push_cast
    ring
  · simp only [hk, decide_false, Bool.false_eq_true, if_false]
    exact ⟨lt_of_le_of_ne h hk, by omega, trivial, fun h => h⟩

/-- Full digits reach the threshold by their exponent. -/
theorem threshold_le_iff {p k : ℕ} {E T : ℤ} (hp : 0 < p) (hk : 2 ^ (p - 1) ≤ k) (hk' : k < 2 ^ p) :
    (2 : ℚ) ^ (T + 1) ≤ k * 2 ^ (E - (p - 1)) ↔ T < E := by
  have hpos := two_zpow_pos (K := ℚ) (E - (p - 1))
  have hlo : (2 : ℚ) ^ E ≤ k * 2 ^ (E - (p - 1)) := by
    calc (2 : ℚ) ^ E = 2 ^ (p - 1) * 2 ^ (E - ((p : ℤ) - 1)) := by
          rw [← zpow_natCast, ← two_zpow_add]
          congr 1
          omega
      _ ≤ k * 2 ^ (E - ((p : ℤ) - 1)) := mul_le_mul_of_nonneg_right (by exact_mod_cast hk) hpos.le
  have hhi : (k : ℚ) * 2 ^ (E - (p - 1)) < 2 ^ (E + 1) := by
    calc (k : ℚ) * 2 ^ (E - (p - 1)) < 2 ^ p * 2 ^ (E - ((p : ℤ) - 1)) :=
          mul_lt_mul_of_pos_right (by exact_mod_cast hk') hpos
      _ = 2 ^ (E + 1) := by
          rw [← zpow_natCast, ← two_zpow_add]
          congr 1
          omega
  constructor
  · intro h
    by_contra hle
    exact absurd ((h.trans_lt hhi).trans_le (two_zpow_le (by omega))) (lt_irrefl _)
  · intro h
    exact (two_zpow_le (by omega)).trans hlo

/-- A significand as it comes to be rounded: moved down to the least exponent, or full. -/
def Prepared (t : Tgt) (tiny : Bool) (E : ℤ) (sig : U64) : Prop :=
  tiny = true ∧ E = t.emin ∧ sig.toNat < 2 ^ 63 ∨ tiny = false ∧ t.emin ≤ E ∧ 2 ^ 63 ≤ sig.toNat

section Digits

variable {tiny sticky : Bool} {E : ℤ} {sig : U64} {t : Tgt} {x : ℚ}

/-- Two places below the guard is one quantum of what is kept. -/
theorem half_guard (t : Tgt) (E : ℤ) (x : ℚ) :
    x / 2 ^ (E - 63) / 2 ^ (63 - t.p) / 2 = x / 2 ^ (E - (t.p - 1) : ℤ) := by
  have hp : t.p ≤ 53 := by cases t <;> decide
  rw [div_div, div_div, ← pow_succ, ← zpow_natCast, ← two_zpow_add]
  congr 2
  omega

/-- It is tiny just where its magnitude is. -/
theorem Prepared.decide_tiny (hfull : Prepared t tiny E sig)
    (hx : Held sig.toNat sticky (x / 2 ^ (E - 63))) : decide (x < 2 ^ t.emin) = tiny := by
  have hpos := two_zpow_pos (K := ℚ) (E - 63)
  have hE63 : (2 : ℚ) ^ E = 2 ^ 63 * 2 ^ (E - 63) := by
    rw [← zpow_natCast, ← two_zpow_add]
    congr 1
    omega
  rcases hfull with ⟨rfl, rfl, hs⟩ | ⟨rfl, hE', hs⟩
  · rw [decide_eq_true_iff, hE63, ← div_lt_iff₀ hpos]
    exact hx.lt.trans_le (by exact_mod_cast hs)
  · rw [decide_eq_false_iff_not, not_lt]
    refine (two_zpow_le hE').trans ?_
    rw [hE63, ← le_div_iff₀ hpos]
    exact le_trans (by exact_mod_cast hs) hx.le

/-- The kept digits with the increment, which does not wrap. -/
theorem kept_toNat (t : Tgt) (sig : U64) (inc : Bool) :
    ((sig >>> (64 - t.p)) + (if inc then 1#64 else 0#64)).toNat
        = sig.toNat / 2 ^ (64 - t.p) + inc.toNat
      ∧ sig.toNat / 2 ^ (64 - t.p) + inc.toNat ≤ 2 ^ t.p := by
  have hp : t.p ≤ 53 := by cases t <;> decide
  have hp64 : 2 ^ t.p ≤ 2 ^ 53 := Nat.pow_le_pow_right (by norm_num) hp
  have hi : (if inc then 1#64 else 0#64).toNat = inc.toNat := by cases inc <;> rfl
  have hi1 := Bool.toNat_le inc
  have htop : sig.toNat / 2 ^ (64 - t.p) < 2 ^ t.p := by
    rw [Nat.div_lt_iff_lt_mul (Nat.two_pow_pos _), ← pow_add, show t.p + (64 - t.p) = 64 by omega]
    exact sig.isLt
  refine ⟨?_, by omega⟩
  rw [BitVec.toNat_add, shiftRight_toNat, hi]
  exact Nat.mod_eq_of_lt (by linarith)

/-- What is kept reaches the threshold where the code looks at the exponent for it. -/
theorem Prepared.over_iff (hfull : Prepared t tiny E sig) {n : ℕ} {inc : Bool} {k' : ℕ} {E' : ℤ}
    (hn : n = sig.toNat / 2 ^ (64 - t.p) + inc.toNat) (hlt : k' < 2 ^ t.p)
    (hval : (k' : ℚ) * 2 ^ (E' - (t.p - 1)) = n * 2 ^ (E - (t.p - 1)))
    (hkeeps : 2 ^ (t.p - 1) ≤ n → 2 ^ (t.p - 1) ≤ k') :
    (2 : ℚ) ^ (t.emax + 1) ≤ k' * 2 ^ (E' - (t.p - 1)) ↔ (!tiny) = true ∧ E' > t.emax := by
  have hp : 2 ≤ t.p ∧ t.p ≤ 53 ∧ t.emin < t.emax := by cases t <;> decide
  have hhalf : 2 ^ (t.p - 1) * 2 ^ (64 - t.p) = 2 ^ 63 := by
    rw [← pow_add, show t.p - 1 + (64 - t.p) = 63 by omega]
  rcases hfull with ⟨rfl, rfl, hs⟩ | ⟨rfl, -, hs⟩
  · -- a denormalized significand rounds to the least normal number at most
    refine iff_of_false ?_ (by simp)
    have hk : n ≤ 2 ^ (t.p - 1) := by
      have hi1 := Bool.toNat_le inc
      have : sig.toNat / 2 ^ (64 - t.p) < 2 ^ (t.p - 1) := by
        rwa [Nat.div_lt_iff_lt_mul (Nat.two_pow_pos _), hhalf]
      omega
    rw [hval, not_le]
    calc (n : ℚ) * 2 ^ (t.emin - ((t.p : ℤ) - 1))
        ≤ 2 ^ (t.p - 1) * 2 ^ (t.emin - ((t.p : ℤ) - 1)) :=
          mul_le_mul_of_nonneg_right (by exact_mod_cast hk) (two_zpow_pos _).le
      _ = 2 ^ t.emin := by
          rw [← zpow_natCast, ← two_zpow_add]
          congr 1
          omega
      _ < 2 ^ (t.emax + 1) := two_zpow_lt (by omega)
  · have hk : 2 ^ (t.p - 1) ≤ k' := by
      refine hkeeps ?_
      have : 2 ^ (t.p - 1) ≤ sig.toNat / 2 ^ (64 - t.p) := by
        rwa [Nat.le_div_iff_mul_le (Nat.two_pow_pos _), hhalf]
      omega
    rw [threshold_le_iff (by omega) hk hlt]
    simp

end Digits

/-- **The rounding step**: from the digits of a denormalized significand. -/
theorem roundDigits_eq {neg tiny : Bool} {E : ℤ} {sig : U64} {sticky : Bool} {env : Env}
    (henv : env.Std) {t : Tgt} {x : ℚ} (hx : Held sig.toNat sticky (x / 2 ^ (E - 63)))
    (hfull : Prepared t tiny E sig) :
    roundDigits neg tiny E sig sticky env t 0#32
      = encode t env.rn neg (t.format.deliver (magMode env.rn neg) x) := by
  have hp : 2 ≤ t.p ∧ t.p ≤ 53 ∧ t.emin < t.emax := by cases t <;> decide
  have hE : t.emin ≤ E := by
    rcases hfull with ⟨-, h, -⟩ | ⟨-, h, -⟩ <;> omega
  have hq : t.format.quant x = E - (t.p - 1) :=
    quant_held hx sig.isLt hE (hfull.imp (fun h => h.2.1) fun h => h.2.2)
  -- the guard and what is below it, in units of half the kept quantum
  have hguard := hx.shift (63 - t.p)
  have hkept := hguard.shift 1
  rw [pow_one, pow_one, half_guard, ← hq] at hkept
  have hdd : sig.toNat / 2 ^ (63 - t.p) / 2 = sig.toNat / 2 ^ (64 - t.p) := by
    rw [Nat.div_div_eq_div_mul, ← pow_succ]
    congr 2
    omega
  -- the digits, by name
  obtain ⟨g, hg⟩ : ∃ g, ((sig >>> (63 - t.p)) &&& 1#64 != 0#64) = g := ⟨_, rfl⟩
  obtain ⟨r, hr⟩ : ∃ r, ((sig >>> (62 - t.p)) &&& 1#64 != 0#64) = r := ⟨_, rfl⟩
  obtain ⟨l, hl⟩ : ∃ l, ((sig >>> (64 - t.p)) &&& 1#64 != 0#64) = l := ⟨_, rfl⟩
  obtain ⟨d, hd⟩ : ∃ d, (sticky || sig &&& ((1#64 <<< (62 - t.p)) - 1#64) != 0#64) = d := ⟨_, rfl⟩
  have hbelow : (r || d) = (sticky || sig.toNat % 2 ^ (63 - t.p) != 0) := by
    rw [← hr, ← hd, below_guard _ _ (by omega), show 62 - t.p + 1 = 63 - t.p by omega]
  have hg' : g = (sig.toNat / 2 ^ (63 - t.p) % 2 == 1) := by rw [← hg, bit_eq]
  have hl' : l = (sig.toNat / 2 ^ (63 - t.p) / 2 % 2 == 1) := by rw [← hl, bit_eq, hdd]
  have hinc := roundInc_eq henv.rn neg hguard hg' hbelow hl'
  have hinx : (g || r || d)
      = (sticky || sig.toNat % 2 ^ (63 - t.p) != 0 || sig.toNat / 2 ^ (63 - t.p) % 2 != 0) := by
    rw [Bool.or_assoc, hbelow, hg', Bool.or_comm]
    congr 1
    rcases Nat.mod_two_eq_zero_or_one (sig.toNat / 2 ^ (63 - t.p)) with h | h <;> rw [h] <;> rfl
  obtain ⟨inc, hincd⟩ : ∃ i, roundInc env.rn neg g r d l (g || r || d) = i := ⟨_, rfl⟩
  have himp : inc = true → (g || r || d) = true := fun h => roundInc_inx (hincd.trans h)
  rw [hincd, half_guard, ← hq, hdd] at hinc
  rw [hdd, ← hinx] at hkept
  rw [hkept.deliver (by exact_mod_cast hinc) himp, t.format_emax, t.format_emin, hq]
  -- the same digits in the code
  unfold roundDigits
  dsimp only
  rw [hg, hr, hl, hd, hincd, henv.ue, henv.oe]
  obtain ⟨hkn, hkle⟩ := kept_toNat t sig inc
  obtain ⟨kept, hkd⟩ : ∃ k, (sig >>> (64 - t.p)) + (if inc then 1#64 else 0#64) = k := ⟨_, rfl⟩
  rw [hkd] at hkn
  rw [hkd, ← hkn]
  obtain ⟨hlt, hEle, hval, hkeeps⟩ := carry_eq (by omega) (by omega) (hkn.trans_le hkle) E
  obtain ⟨E', hE'⟩ : ∃ E', (if kept >>> t.p != 0#64 then E + 1 else E) = E' := ⟨_, rfl⟩
  obtain ⟨k', hk'⟩ : ∃ k', (if kept >>> t.p != 0#64 then kept >>> 1 else kept) = k' := ⟨_, rfl⟩
  rw [hE'] at hEle hval
  rw [hk'] at hlt hval hkeeps
  rw [hE', hk', ← hval, hfull.decide_tiny hx]
  have hover := hfull.over_iff hkn hlt hval hkeeps
  by_cases ho : (!tiny) = true ∧ E' > t.emax
  · have ht : tiny = false := by simpa using ho.1
    rw [if_pos ho, if_pos (hover.mpr ho), if_neg (by simp), ht, if_neg (by simp)]
    refine overflowDefault_eq henv.rn neg t ?_
    cases inc with
    | true =>
        rw [himp rfl]
        exact Or.inr (Or.inr (by decide))
    | false =>
        cases hi : g || r || d
        · exact Or.inl rfl
        · exact Or.inr (Or.inl (by decide))
  · rw [if_neg ho, if_neg (fun h => ho (hover.mp h))]
    have htop : E' ≤ t.emax := by
      rcases hfull with ⟨rfl, rfl, -⟩ | ⟨rfl, -, -⟩
      · omega
      · simpa using ho
    have hfl := flags_eq (g || r || d) inc tiny
    unfold encode
    dsimp only
    rw [packKept_eq henv hlt (hE.trans hEle.1) htop, ← hfl]
    simp

/-- Denormalizing holds the magnitude still, its digits moved down. -/
theorem denormShift_eq {sig : U64} {sticky : Bool} {y : ℚ} (h : Held sig.toNat sticky y) (sh : ℕ)
    {v : U64 × Bool} (hv : denormShift sig sticky sh = v) :
    Held v.1.toNat v.2 (y / 2 ^ sh) ∧ v.1.toNat = sig.toNat / 2 ^ sh := by
  have hs := h.shift sh
  have hlt := sig.isLt
  unfold denormShift at hv
  subst hv
  by_cases h64 : sh ≥ 64
  · rw [if_pos h64]
    have hpow : sig.toNat < 2 ^ sh := hlt.trans_le (Nat.pow_le_pow_right (by norm_num) h64)
    rw [Nat.div_eq_of_lt hpow, Nat.mod_eq_of_lt hpow] at hs
    have hne : (sig != 0#64) = (sig.toNat != 0) := by
      rw [Bool.eq_iff_iff, bne_iff_ne, bne_iff_ne, ne_eq, ← BitVec.toNat_inj]
      rfl
    dsimp only
    rw [hne, Nat.div_eq_of_lt hpow]
    exact ⟨hs, rfl⟩
  · rw [if_neg h64]
    by_cases h0 : sh ≠ 0
    · rw [if_pos h0]
      dsimp only
      rw [shiftRight_toNat, shiftLeft_ne_zero _ (Nat.pos_of_ne_zero h0) (by omega)]
      exact ⟨hs, rfl⟩
    · rw [if_neg h0]
      obtain rfl : sh = 0 := by omega
      simpa using h

/-- **`roundPack` delivers** the magnitude its significand and sticky bit hold. -/
theorem roundPack_eq {neg : Bool} {E : ℤ} {sig : U64} {sticky : Bool} {env : Env} (henv : env.Std)
    {t : Tgt} {x : ℚ} (hsig : 2 ^ 63 ≤ sig.toNat)
    (hx : Held sig.toNat sticky (x / 2 ^ (E - 63))) :
    roundPack neg E sig sticky env t 0#32
      = encode t env.rn neg (t.format.deliver (magMode env.rn neg) x) := by
  unfold roundPack
  dsimp only
  rw [henv.ue]
  by_cases htiny : E < t.emin
  · obtain ⟨d, hd⟩ : ∃ d : ℕ, t.emin - E = d := ⟨(t.emin - E).toNat, by omega⟩
    obtain ⟨v, hv⟩ : ∃ v, denormShift sig sticky d = v := ⟨_, rfl⟩
    obtain ⟨hheld, hnat⟩ := denormShift_eq hx d hv
    have hscale : x / 2 ^ (E - 63) / 2 ^ d = x / 2 ^ (t.emin - 63) := by
      rw [div_div, ← zpow_natCast, ← two_zpow_add]
      congr 2
      omega
    have hlt : v.1.toNat < 2 ^ 63 := by
      rw [hnat, Nat.div_lt_iff_lt_mul (Nat.two_pow_pos _)]
      have hone : 2 ^ 1 ≤ 2 ^ d := Nat.pow_le_pow_right (by norm_num) (by omega)
      have := sig.isLt
      omega
    rw [hscale] at hheld
    simp only [htiny, decide_true, Bool.not_false, and_self, if_true, Bool.false_eq_true,
      and_false, if_false, hd, Int.toNat_natCast, hv]
    exact roundDigits_eq henv hheld (Or.inl ⟨rfl, rfl, hlt⟩)
  · simp only [htiny, decide_false, Bool.false_eq_true, false_and, if_false]
    exact roundDigits_eq henv hx (Or.inr ⟨rfl, by omega, hsig⟩)

end Sf

end OpenPowerMac
