/-
The vector unit's conversions and integral rounds are exact.

A conversion from an integer is one rounding of an exact double. One to an integer cuts the digits
of the lane's double where the scale puts the point, and from `2^63` on any magnitude will do, since
a word has no room for it (`ctxMag_eq`). An integral round reads the digit behind the point and
whether there are others, which is what nearest rounding needs (`splitDigits_held`).
-/
import OpenPowerMac.AltiVecExact
import OpenPowerMac.AltiVecOrder
import OpenPowerMac.AltiVecSingle
import OpenPowerMac.Convert
import Mathlib.Algebra.Order.Floor.Semifield

set_option autoImplicit false

namespace OpenPowerMac

open Rounding Sf

namespace Vec

variable {β : Type}

/-! ## From an integer -/

/-- An integer of a word's magnitude over a power of two, in double and in single. -/
theorem magD_fixed {n s : ℕ} (hn : n < 2 ^ 53) (hs : s ≤ 1000) : MagD ((n : ℚ) / 2 ^ s) := by
  have hval : (n : ℚ) / 2 ^ s = n * 2 ^ (-(s : ℤ)) := by rw [zpow_neg, zpow_natCast, div_eq_mul_inv]
  refine ⟨?_, by positivity, ?_⟩
  · rw [hval]
    exact Format.rep_natMul (f := dbl) (by change -1074 ≤ _; omega) hn
  · have hle : (n : ℚ) / 2 ^ s ≤ n := div_le_self (Nat.cast_nonneg n) (one_le_pow₀ one_le_two)
    have hlt : (n : ℚ) < 2 ^ (53 : ℤ) := by exact_mod_cast hn
    exact (hle.trans_lt hlt).trans_le (two_zpow_le (by norm_num))

/-- Between `2^-31` and `2^32` there is neither underflow nor overflow. -/
theorem fixed_range {n s : ℕ} (h0 : n ≠ 0) (hn : n ≤ 2 ^ 32) (hs : s ≤ 31) :
    2 ^ (-126 : ℤ) ≤ (n : ℚ) / 2 ^ s ∧ sgl.round .nearest ((n : ℚ) / 2 ^ s) < 2 ^ (128 : ℤ) := by
  have hone : (1 : ℚ) ≤ n := by exact_mod_cast Nat.pos_of_ne_zero h0
  have htop : (n : ℚ) ≤ 2 ^ (32 : ℤ) := by exact_mod_cast hn
  have hpow : (2 : ℚ) ^ s ≤ 2 ^ 31 := pow_le_pow_right₀ one_le_two hs
  constructor
  · rw [le_div_iff₀ (by positivity)]
    calc (2 : ℚ) ^ (-126 : ℤ) * 2 ^ s ≤ 2 ^ (-126 : ℤ) * 2 ^ 31 :=
          mul_le_mul_of_nonneg_left hpow (two_zpow_pos _).le
      _ ≤ 1 := by norm_num
      _ ≤ n := hone
  · have hle : (n : ℚ) / 2 ^ s ≤ 2 ^ (32 : ℤ) :=
      (div_le_self (Nat.cast_nonneg n) (one_le_pow₀ one_le_two)).trans htop
    have hround := Format.round_le_of_le (f := sgl) (m := .nearest) (Format.rep_two_zpow (by decide)) hle
    exact hround.trans_lt (two_zpow_lt (by norm_num))

/-- **An integer's magnitude over a power of two, rounded into a lane.** -/
theorem dn_fixed (h : Cpu.Fast) (neg : Bool) (mag : U64) {s : ℕ} (h0 : mag.toNat ≠ 0)
    (hmag : mag.toNat ≤ 2 ^ 32) (hs : s ≤ 31) :
    dn (rsp h.host h.off ((if neg then kSignBit else 0#64) ||| fixedBits mag mag.toNat.log2 s) vecEnv).bits
      = ieeeS false (signed neg ((mag.toNat : ℚ) / 2 ^ s)) := by
  have hd := magD_fixed (n := mag.toNat) (s := s) (by omega) (by omega)
  have hval : valD (encD neg ((mag.toNat : ℚ) / 2 ^ s)) = signed neg ((mag.toNat : ℚ) / 2 ^ s) := by
    rw [valD_eq, negD_encD neg hd, absD_encD neg hd]
  obtain ⟨hlow, hhigh⟩ := fixed_range (s := s) h0 hmag hs
  have habs := abs_signed neg hd.nonneg
  rw [fixedBits_eq neg s h0 (by omega) (by omega), dn_rsp h.host h.off false (finiteD_encD neg hd), hval]
  · rw [hval, habs]
    exact hlow
  · rw [hval, habs]
    exact hhigh

theorem ieeeS_zero : ieeeS false 0 = 0#32 := by
  unfold ieeeS encS
  rw [if_pos rfl, Format.magBits_zero]
  rfl

/-- **`vcfux`**: the integer over the power of two, to nearest. -/
theorem cfux_eq (h : Cpu.Fast) {s : ℕ} (hs : s ≤ 31) (w : U32) :
    cfux h s w = ieeeS false ((w.toNat : ℚ) / 2 ^ s) := by
  unfold cfux
  by_cases h0 : w = 0#32
  · rw [if_pos h0, h0, show (0#32).toNat = 0 from rfl, Nat.cast_zero, zero_div, ieeeS_zero]
  · have hw := w.isLt
    have hwide : (w.setWidth 64).toNat = w.toNat := by
      rw [BitVec.toNat_setWidth, Nat.mod_eq_of_lt (by omega)]
    have hne : w.toNat ≠ 0 := fun h => h0 (BitVec.eq_of_toNat_eq h)
    have hfixed := dn_fixed h false (w.setWidth 64) (by omega) (by omega) hs
    rw [if_neg Bool.false_ne_true, BitVec.zero_or, hwide] at hfixed
    rw [if_neg h0]
    exact hfixed

/-- **`vcfsx`.** -/
theorem cfsx_eq (h : Cpu.Fast) {s : ℕ} (hs : s ≤ 31) (w : U32) :
    cfsx h s w = ieeeS false ((w.toInt : ℚ) / 2 ^ s) := by
  unfold cfsx
  by_cases h0 : w = 0#32
  · rw [if_pos h0, h0, show (0#32).toInt = 0 from rfl, Int.cast_zero, zero_div, ieeeS_zero]
  · have hw := w.isLt
    have hne : w.toNat ≠ 0 := fun h => h0 (BitVec.eq_of_toNat_eq h)
    obtain ⟨mag, hmag⟩ : ∃ mag, (if w.msb then 0#32 - w else w) = mag := ⟨_, rfl⟩
    -- the magnitude, with its sign, is the integer
    have hnat : (w.toInt : ℚ) = signed w.msb mag.toNat ∧ mag.toNat ≠ 0 ∧ mag.toNat ≤ 2 ^ 32 := by
      cases hneg : w.msb with
      | false =>
          rw [hneg, if_neg Bool.false_ne_true] at hmag
          rw [← hmag, BitVec.toInt_eq_toNat_of_msb hneg]
          exact ⟨rfl, hne, hw.le⟩
      | true =>
          rw [hneg, if_pos rfl] at hmag
          have hsub : mag.toNat = 2 ^ 32 - w.toNat := by
            rw [← hmag, BitVec.toNat_sub]
            change (2 ^ 32 - w.toNat + 0) % 2 ^ 32 = _
            omega
          have htwo : 2 * w.toNat ≥ 2 ^ 32 := by
            rw [BitVec.msb_eq_decide, decide_eq_true_iff] at hneg
            omega
          have hint : w.toInt = -(mag.toNat : ℤ) := by
            rw [BitVec.toInt_eq_toNat_cond, if_neg (by omega)]
            omega
          refine ⟨?_, by omega, by omega⟩
          rw [hint]
          push_cast
          rfl
    obtain ⟨hint, hmag0, hmagle⟩ := hnat
    have hwide : (mag.setWidth 64).toNat = mag.toNat := by
      rw [BitVec.toNat_setWidth, Nat.mod_eq_of_lt (by omega)]
    have hfixed := dn_fixed h w.msb (mag.setWidth 64) (by omega) (by omega) hs
    have hsigned : signed w.msb ((mag.toNat : ℚ) / 2 ^ s) = (w.toInt : ℚ) / 2 ^ s := by
      rw [hint]
      unfold signed
      cases w.msb with
      | false => rfl
      | true => exact (neg_div _ _).symm
    rw [hwide, hsigned] at hfixed
    rw [if_neg h0]
    dsimp only
    rw [hmag, ← hfixed]
    cases w.msb with
    | false => rw [if_neg Bool.false_ne_true, if_neg Bool.false_ne_true, BitVec.zero_or]
    | true => rw [if_pos rfl, if_pos rfl, BitVec.or_comm]; rfl

/-! ## To an integer -/

/-- The digits of a lane's double. -/
theorem digits_toNat (d : U64) :
    (digits d).toNat = d.toNat % 2 ^ 52 + (if bexp d ≠ 0 then 2 ^ 52 else 0) := by
  have hlow : (d &&& 0x000FFFFFFFFFFFFF#64).toNat = d.toNat % 2 ^ 52 := by
    rw [BitVec.toNat_and, show (0x000FFFFFFFFFFFFF#64).toNat = 2 ^ 52 - 1 from rfl,
      Nat.and_two_pow_sub_one_eq_mod]
  unfold digits
  split
  · rw [BitVec.or_comm, or_toNat (k := 52) (a := 1) _ _ rfl hlow (Nat.mod_lt _ (by decide))]
    omega
  · rw [BitVec.or_zero, hlow, add_zero]

theorem bexp_eq (d : U64) : bexp d = d.toNat % 2 ^ 63 / 2 ^ 52 := by
  unfold bexp
  rw [BitVec.toNat_and, show (0x7FF#32).toNat = 2 ^ 11 - 1 from rfl, Nat.and_two_pow_sub_one_eq_mod,
    BitVec.toNat_setWidth, BitVec.toNat_ushiftRight, Nat.shiftRight_eq_div_pow]
  have := d.isLt
  omega

/-- What `up` makes of a finite lane: its digits and exponent give its magnitude. -/
structure Opened (w : U32) (D B : ℕ) : Prop where
  digits : (digits (up w)).toNat = D
  bexp : bexp (up w) = B
  sign : (up w).msb = negS w
  value : absS w = D * 2 ^ ((B : ℤ) - 1075)
  range : D = 0 ∧ B = 0 ∨ 2 ^ 52 ≤ D ∧ D < 2 ^ 53 ∧ 1 ≤ B ∧ B < 2047

theorem magS_absS {w : U32} (h : FiniteS w) : MagS (absS w) := by
  refine ⟨Format.rep_magValue _, Format.magValue_nonneg _, ?_⟩
  have hlt := Format.magValue_lt (f := sgl) (K := ℚ) (e := 255) (by norm_num) h
  exact hlt

theorem exists_opened {w : U32} (h : FiniteS w) : ∃ D B, Opened w D B := by
  have hmag := magS_absS h
  have hfin : FiniteD (up w) := by
    rw [up_eq h]
    exact finiteD_encD _ hmag.magD
  have hneg : negD (up w) = negS w := by
    rw [up_eq h]
    exact negD_encD _ hmag.magD
  have habs : absD (up w) = absS w := by
    rw [up_eq h]
    exact absD_encD _ hmag.magD
  have hval := absD_eq (up w)
  have hfrac : (up w).toNat % 2 ^ 63 % 2 ^ 52 = (up w).toNat % 2 ^ 52 := by omega
  rw [expField_toNat, fracField_toNat, ← bexp_eq, hfrac, habs] at hval
  have hdig := digits_toNat (up w)
  unfold FiniteD at hfin
  rw [← bexp_eq] at hfin
  obtain ⟨B, hB⟩ : ∃ B, bexp (up w) = B := ⟨_, rfl⟩
  obtain ⟨f, hf⟩ : ∃ f, (up w).toNat % 2 ^ 52 = f := ⟨_, rfl⟩
  have hf52 : f < 2 ^ 52 := hf ▸ Nat.mod_lt _ (by decide)
  rw [hB] at hval hdig hfin
  rw [hf] at hval hdig
  by_cases hB0 : B = 0
  · -- too small for a single, so nothing at all
    rw [if_pos hB0] at hval
    have hzero : absS w = 0 := by
      by_contra hne
      have hgrid := Grid.le_abs (Format.Rep.grid hmag.rep) hne
      rw [abs_of_nonneg hmag.nonneg] at hgrid
      have hlt : (f : ℚ) < 2 ^ (52 : ℤ) := by exact_mod_cast hf52
      have hsmall := mul_lt_mul_of_pos_right hlt (two_zpow_pos (K := ℚ) (-1074))
      rw [← hval, ← two_zpow_add] at hsmall
      have hpow : (2 : ℚ) ^ (52 + -1074 : ℤ) ≤ 2 ^ sgl.qmin := two_zpow_le (by decide)
      linarith
    have hf0 : f = 0 := by
      rw [hzero] at hval
      have hz := (mul_eq_zero.mp hval.symm).resolve_right (two_zpow_pos _).ne'
      exact_mod_cast hz
    refine ⟨0, B, ?_, hB, hneg, ?_, Or.inl ⟨rfl, hB0⟩⟩
    · rw [hdig, hf0, hB0]
      rfl
    · rw [hzero, Nat.cast_zero, zero_mul]
  · rw [if_neg hB0] at hval
    rw [if_pos hB0] at hdig
    exact ⟨f + 2 ^ 52, B, hdig, hB, hneg, hval, Or.inr ⟨by omega, by omega, by omega, hfin⟩⟩

/-- What it makes of an infinity. -/
theorem up_inf {w : U32} (h : |key w| = kTop) :
    (up w).msb = negS w ∧ bexp (up w) = 2047 ∧ (digits (up w)).toNat = 2 ^ 52 := by
  rw [abs_key, kTop] at h
  have hexp : (w >>> 23) &&& 0xFF#32 = 255#32 := by
    apply BitVec.eq_of_toNat_eq
    rw [exponent_up]
    change _ = 255
    omega
  have hfrac : w &&& 0x7FFFFF#32 = 0#32 := by
    apply BitVec.eq_of_toNat_eq
    rw [fraction_up]
    change _ = 0
    omega
  have hup : up w = (if negS w then kSignBit else 0#64) ||| kInf := by
    unfold up loadSingle
    dsimp only
    rw [sign_up, if_pos hexp, hfrac]
    exact BitVec.or_zero
  rw [hup]
  cases negS w <;> exact ⟨rfl, rfl, rfl⟩

/-- The magnitude in `ctx` of a finite lane, whole where a word could have room for it. -/
theorem ctxMag_eq {w : U32} {D B : ℕ} (h : Opened w D B) (s : ℕ) :
    (ctxMag (up w) s).toNat = ⌊absS w * 2 ^ s⌋₊
      ∨ 2 ^ 63 ≤ (ctxMag (up w) s).toNat ∧ 2 ^ 63 ≤ ⌊absS w * 2 ^ s⌋₊ := by
  have hval : absS w * 2 ^ s = D * 2 ^ (((B : ℤ) - 1023 + s) - 52) := by
    rw [h.value, mul_assoc, ← zpow_natCast, ← two_zpow_add]
    congr 2
    ring
  obtain ⟨exp, hexp⟩ : ∃ exp : ℤ, (B : ℤ) - 1023 + s = exp := ⟨_, rfl⟩
  rw [hexp] at hval
  have hpos := two_zpow_pos (K := ℚ) (exp - 52)
  unfold ctxMag
  dsimp only
  rw [h.bexp, hexp]
  rcases h.range with ⟨hD, hB⟩ | ⟨hD, hD', hB, -⟩
  · have hzero : digits (up w) = 0#64 := BitVec.eq_of_toNat_eq (h.digits.trans hD)
    rw [if_pos ⟨hB, hzero⟩, hval, hD, Nat.cast_zero, zero_mul, Nat.floor_zero]
    exact Or.inl rfl
  · rw [if_neg fun h0 => absurd h0.1 (by omega)]
    have hDq : (2 : ℚ) ^ (52 : ℤ) ≤ D := by exact_mod_cast hD
    have hDq' : (D : ℚ) < 2 ^ (53 : ℤ) := by exact_mod_cast hD'
    by_cases hneg : exp < 0
    · -- below one
      have hlt := mul_lt_mul_of_pos_right hDq' hpos
      rw [← two_zpow_add] at hlt
      have hone : (2 : ℚ) ^ (53 + (exp - 52)) ≤ 2 ^ (0 : ℤ) := two_zpow_le (by omega)
      rw [zpow_zero] at hone
      rw [if_pos hneg, hval, Nat.floor_eq_zero.mpr (hlt.trans_le hone)]
      exact Or.inl rfl
    · rw [if_neg hneg]
      by_cases hbig : 62 < exp
      · rw [if_pos hbig]
        right
        refine ⟨by decide, Nat.le_floor ?_⟩
        have hge := mul_le_mul_of_nonneg_right hDq hpos.le
        rw [← two_zpow_add] at hge
        have hpow : (2 : ℚ) ^ (63 : ℤ) ≤ 2 ^ (52 + (exp - 52)) := two_zpow_le (by omega)
        rw [hval]
        exact_mod_cast hpow.trans hge
      · rw [if_neg hbig]
        left
        by_cases hup : 52 ≤ exp
        · obtain ⟨k, hk⟩ : ∃ k : ℕ, exp - 52 = k := ⟨(exp - 52).toNat, by omega⟩
          have hlt : D * 2 ^ k < 2 ^ 64 := by
            calc D * 2 ^ k < 2 ^ 53 * 2 ^ k := Nat.mul_lt_mul_of_pos_right hD' (Nat.two_pow_pos _)
              _ = 2 ^ (53 + k) := (pow_add _ _ _).symm
              _ ≤ 2 ^ 64 := Nat.pow_le_pow_right (by norm_num) (by omega)
          have hnat : (D : ℚ) * 2 ^ (k : ℤ) = ((D * 2 ^ k : ℕ) : ℚ) := by
            rw [zpow_natCast]
            push_cast
            rfl
          rw [if_pos hup, hval, hk, Int.toNat_natCast, BitVec.toNat_shiftLeft, Nat.shiftLeft_eq, h.digits,
            Nat.mod_eq_of_lt hlt, hnat, Nat.floor_natCast]
        · obtain ⟨k, hk⟩ : ∃ k : ℕ, 52 - exp = k := ⟨(52 - exp).toNat, by omega⟩
          have hnat : (D : ℚ) * 2 ^ (exp - 52) = (D : ℚ) / ((2 ^ k : ℕ) : ℚ) := by
            rw [show exp - 52 = -(k : ℤ) by omega, zpow_neg, zpow_natCast, div_eq_mul_inv]
            push_cast
            rfl
          rw [if_neg hup, hval, hk, Int.toNat_natCast, shiftRight_toNat, h.digits, hnat,
            Nat.floor_div_eq_div]

/-- The truncation of a lane's value times a power of two. -/
def truncated (w : U32) (s : ℕ) : ℤ := Mode.zero.toInt (valS w * 2 ^ s)

theorem truncated_eq (w : U32) (s : ℕ) :
    truncated w s = if negS w then -(⌊absS w * 2 ^ s⌋₊ : ℤ) else (⌊absS w * 2 ^ s⌋₊ : ℤ) := by
  have hnn : 0 ≤ absS w * 2 ^ s := mul_nonneg (Format.magValue_nonneg _) (by positivity)
  have hfloor : Mode.zero.toInt (absS w * 2 ^ s) = (⌊absS w * 2 ^ s⌋₊ : ℤ) := by
    rw [Mode.toInt, if_pos hnn, Int.natCast_floor_eq_floor hnn]
  unfold truncated valS
  cases negS w with
  | false => rw [if_neg Bool.false_ne_true, if_neg Bool.false_ne_true, hfloor]
  | true =>
      have hflip := Mode.toInt_neg .zero (absS w * 2 ^ s)
      rw [if_pos rfl, if_pos rfl, neg_mul, hflip]
      exact congrArg Neg.neg hfloor

/-- A lane after the truncation `z`: clamped, and SAT is set where it had to be. -/
def Delivers (sgn : Bool) (vscr : U32) (z : ℤ) (r : U32 × U32) : Prop :=
  r = (BitVec.ofInt 32 (clamped sgn 32 z), if Fits sgn 32 z then vscr else sat vscr)

/-- The clamp in `ctx`, on a magnitude and its sign. -/
def ctxClamp (sgn neg : Bool) (mag : U64) : Lane 32 := fun vscr =>
  if sgn then
    if !neg then
      if mag > 0x7FFFFFFF#64 then (0x7FFFFFFF#32, sat vscr) else (mag.setWidth 32, vscr)
    else
      if mag > 0x80000000#64 then (0x80000000#32, sat vscr) else (0#32 - mag.setWidth 32, vscr)
  else
    if neg then
      if mag ≠ 0#64 then (0#32, sat vscr) else (0#32, vscr)
    else
      if mag > 0xFFFFFFFF#64 then (0xFFFFFFFF#32, sat vscr) else (mag.setWidth 32, vscr)

theorem ctxLane_eq (sgn : Bool) (s : ℕ) (b vscr : U32) :
    ctxLane sgn s b vscr = if sglNan (flushIn vscr b) then (0#32, vscr)
      else ctxClamp sgn (up (flushIn vscr b)).msb (ctxMag (up (flushIn vscr b)) s) vscr := rfl

section Delivers

variable {sgn : Bool} {vscr : U32} {z : ℤ}

theorem delivers_high (h : highest sgn 32 < z) :
    Delivers sgn vscr z (BitVec.ofInt 32 (highest sgn 32), sat vscr) := by
  have hle := (bounds_fit sgn (w := 32) (by decide) (by decide)).2.2
  rw [Delivers, clamped, min_eq_left h.le, max_eq_right hle,
    if_neg fun hf : Fits sgn 32 z => absurd hf.2 (not_le.mpr h)]

theorem delivers_low (h : z < lowest sgn 32) :
    Delivers sgn vscr z (BitVec.ofInt 32 (lowest sgn 32), sat vscr) := by
  have hle := (bounds_fit sgn (w := 32) (by decide) (by decide)).2.2
  rw [Delivers, clamped, min_eq_right (h.le.trans hle), max_eq_left h.le,
    if_neg fun hf : Fits sgn 32 z => absurd hf.1 (not_le.mpr h)]

theorem delivers_in (h : Fits sgn 32 z) : Delivers sgn vscr z (BitVec.ofInt 32 z, vscr) := by
  rw [Delivers, clamped_of_fits h, if_pos h]

end Delivers

/-- What is taken from a magnitude is the same for all that a word has no room for. -/
theorem ctxClamp_delivers (sgn neg : Bool) {mag : U64} {n : ℕ} (vscr : U32)
    (h : mag.toNat = n ∨ 2 ^ 63 ≤ mag.toNat ∧ 2 ^ 63 ≤ n) :
    Delivers sgn vscr (if neg then -(n : ℤ) else n) (ctxClamp sgn neg mag vscr) := by
  have hcut : mag.toNat = n → mag.setWidth 32 = BitVec.ofInt 32 (n : ℤ) := by
    intro hn
    rw [BitVec.ofInt_natCast, ← hn, BitVec.ofNat_toNat]
  have hhigh : highest true 32 = 0x7FFFFFFF := rfl
  have hlow : lowest true 32 = -0x80000000 := rfl
  have huhigh : highest false 32 = 0xFFFFFFFF := rfl
  have hulow : lowest false 32 = 0 := rfl
  unfold ctxClamp
  -- the four bounds of the source: 2^32-1 and 0, then 2^31-1 and 2^31
  cases sgn <;> cases neg
  case false.false =>
    rw [if_neg Bool.false_ne_true, if_neg Bool.false_ne_true, if_neg Bool.false_ne_true]
    by_cases hbig : mag > 0xFFFFFFFF#64
    · have hnat : 0xFFFFFFFF < mag.toNat := hbig
      rw [if_pos hbig]
      exact delivers_high (by omega)
    · have hnat : ¬ 0xFFFFFFFF < mag.toNat := hbig
      rw [if_neg hbig, hcut (by omega)]
      exact delivers_in ⟨by omega, by omega⟩
  case false.true =>
    rw [if_neg Bool.false_ne_true, if_pos rfl, if_pos rfl]
    by_cases hsome : mag ≠ 0#64
    · have hnat : mag.toNat ≠ 0 := fun h0 => hsome (BitVec.eq_of_toNat_eq h0)
      rw [if_pos hsome]
      exact delivers_low (by omega)
    · have hnat : mag.toNat = 0 := by
        rw [not_not.mp hsome]
        rfl
      have hz : -(n : ℤ) = 0 := by omega
      rw [if_neg hsome, hz]
      exact delivers_in fits_zero
  case true.false =>
    rw [if_pos rfl, if_neg Bool.false_ne_true, Bool.not_false, if_pos rfl]
    by_cases hbig : mag > 0x7FFFFFFF#64
    · have hnat : 0x7FFFFFFF < mag.toNat := hbig
      rw [if_pos hbig]
      exact delivers_high (by omega)
    · have hnat : ¬ 0x7FFFFFFF < mag.toNat := hbig
      rw [if_neg hbig, hcut (by omega)]
      exact delivers_in ⟨by omega, by omega⟩
  case true.true =>
    rw [if_pos rfl, if_pos rfl, Bool.not_true, if_neg Bool.false_ne_true]
    by_cases hbig : mag > 0x80000000#64
    · have hnat : 0x80000000 < mag.toNat := hbig
      rw [if_pos hbig]
      exact delivers_low (by omega)
    · have hnat : ¬ 0x80000000 < mag.toNat := hbig
      have hneg : 0#32 - BitVec.ofInt 32 (n : ℤ) = BitVec.ofInt 32 (-(n : ℤ)) := by
        rw [← zero_sub, ofInt_sub]
        rfl
      rw [if_neg hbig, hcut (by omega), hneg]
      exact delivers_in ⟨by omega, by omega⟩

/-- **`vctuxs` and `vctsxs`** on a finite lane. -/
theorem ctxLane_finite (sgn : Bool) (s : ℕ) {b vscr : U32} (h : FiniteS (flushIn vscr b)) :
    Delivers sgn vscr (truncated (flushIn vscr b) s) (ctxLane sgn s b vscr) := by
  obtain ⟨D, B, hopen⟩ := exists_opened h
  have hnan : sglNan (flushIn vscr b) = false := by
    rw [Bool.eq_false_iff, ne_eq, sglNan_iff]
    exact not_lt.mpr ((finite_iff _).mp h).le
  rw [ctxLane_eq, hnan, if_neg Bool.false_ne_true, hopen.sign, truncated_eq]
  exact ctxClamp_delivers sgn _ vscr (ctxMag_eq hopen s)

/-- On an infinity they deliver the bound. -/
theorem ctxLane_inf (sgn : Bool) (s : ℕ) {b vscr : U32} (h : |key (flushIn vscr b)| = kTop) :
    ctxLane sgn s b vscr
      = (BitVec.ofInt 32 (if negS (flushIn vscr b) then lowest sgn 32 else highest sgn 32), sat vscr) := by
  obtain ⟨hsign, hexp, hdig⟩ := up_inf h
  have hnan : sglNan (flushIn vscr b) = false := by
    rw [Bool.eq_false_iff, ne_eq, sglNan_iff]
    exact not_lt.mpr h.le
  have hmag : ctxMag (up (flushIn vscr b)) s = ~~~0#64 := by
    unfold ctxMag
    dsimp only
    rw [hexp, if_neg (by rintro ⟨⟨⟩, -⟩), if_neg (by omega), if_pos (by omega)]
  rw [ctxLane_eq, hnan, if_neg Bool.false_ne_true, hsign, hmag]
  cases sgn <;> cases negS (flushIn vscr b) <;> rfl

/-! ## To an integral single -/

/-- The digits before the point and those behind it. -/
theorem splitDigits_held {w : U32} {D B : ℕ} (h : Opened w D B) (hB : B < 1046) :
    ∃ n : ℕ, Held n (splitDigits (up w)).2.2 (2 * absS w)
      ∧ n / 2 = (splitDigits (up w)).1.toNat ∧ (splitDigits (up w)).2.1 = (n % 2 == 1)
      ∧ (splitDigits (up w)).1.toNat < 2 ^ 23 := by
  have hD : D < 2 ^ 53 := by
    rcases h.range with ⟨hD, -⟩ | ⟨-, hD, -⟩ <;> omega
  have hDq : (D : ℚ) < 2 ^ (53 : ℤ) := by exact_mod_cast hD
  unfold splitDigits
  dsimp only
  rw [h.bexp]
  -- below a half every digit is sticky; from there on the shift keeps the digits apart
  by_cases hsmall : (B : ℤ) - 1023 < -1
  · rw [if_pos hsmall]
    have hlt : 2 * absS w < 1 := by
      have hmul := mul_lt_mul_of_pos_right hDq (two_zpow_pos (K := ℚ) ((B : ℤ) - 1075))
      rw [← h.value, ← two_zpow_add] at hmul
      have hpow : (2 : ℚ) ^ (53 + ((B : ℤ) - 1075)) ≤ 2 ^ (-1 : ℤ) := two_zpow_le (by omega)
      have hhalf : (2 : ℚ) ^ (-1 : ℤ) = 1 / 2 := by norm_num
      have hlt := (hmul.trans_le hpow).trans_eq hhalf
      linarith
    refine ⟨0, ?_, rfl, rfl, Nat.two_pow_pos 23⟩
    by_cases hD0 : D = 0
    · have hzero : digits (up w) = 0#64 := BitVec.eq_of_toNat_eq (h.digits.trans hD0)
      have habs : absS w = 0 := by rw [h.value, hD0, Nat.cast_zero, zero_mul]
      rw [hzero, habs, mul_zero]
      exact Held.natCast (K := ℚ) 0
    · have hsome : (digits (up w) != 0#64) = true := by
        rw [bne_iff_ne]
        intro hz
        have hdig := h.digits
        rw [hz] at hdig
        exact hD0 hdig.symm
      have hpos : (0 : ℚ) < D := by exact_mod_cast Nat.pos_of_ne_zero hD0
      have hval : 0 < absS w := by
        rw [h.value]
        exact mul_pos hpos (two_zpow_pos _)
      rw [hsome]
      apply Held.of_lt
      · push_cast
        linarith
      · push_cast
        linarith
  · rw [if_neg hsmall]
    obtain ⟨k, hk⟩ : ∃ k : ℕ, 52 - ((B : ℤ) - 1023) = k + 1 := ⟨(51 - ((B : ℤ) - 1023)).toNat, by omega⟩
    have hkb : k < 53 ∧ 29 ≤ k := by omega
    have hbits : (52 - ((B : ℤ) - 1023)).toNat = k + 1 := by omega
    have hval : 2 * absS w = (D : ℚ) / 2 ^ k := by
      have hexp : (B : ℤ) - 1075 = -(k : ℤ) - 1 := by omega
      rw [h.value, hexp, zpow_sub₀ two_ne_zero, zpow_neg, zpow_natCast, zpow_one]
      field_simp
    have hheld := (Held.natCast (K := ℚ) D).shift k
    rw [Bool.false_or, ← hval] at hheld
    rw [hbits, rest_bits _ (by omega), guard_bit _ (by omega), shiftRight_toNat, h.digits]
    refine ⟨D / 2 ^ k, hheld, ?_, rfl, ?_⟩
    · rw [Nat.div_div_eq_div_mul, ← pow_succ]
    · rw [Nat.div_lt_iff_lt_mul (Nat.two_pow_pos _)]
      calc D < 2 ^ 53 := hD
        _ = 2 ^ 23 * 2 ^ 30 := by norm_num
        _ ≤ 2 ^ 23 * 2 ^ (k + 1) := Nat.mul_le_mul_left _ (Nat.pow_le_pow_right (by norm_num) (by omega))

theorem roundsUp_eq (rn : U32) (sign g x odd : Bool) (hrn : rn.toNat < 4) :
    roundsUp rn sign g x odd = roundInc rn sign g false x odd (g || false || x) := by
  rcases rn_cases hrn with rfl | rfl | rfl | rfl <;> revert sign g x odd <;> decide

/-- A whole number of few digits is a single. -/
theorem magS_natCast {n : ℕ} (h : n ≤ 2 ^ 23) : MagS (n : ℚ) := by
  refine ⟨?_, Nat.cast_nonneg n, ?_⟩
  · have hrep := Format.rep_natMul (f := sgl) (K := ℚ) (m := n) (k := 0) (by decide)
      (by change n < 2 * 2 ^ 23; omega)
    rwa [zpow_zero, mul_one] at hrep
  · have hle : (n : ℚ) ≤ 2 ^ (23 : ℤ) := by exact_mod_cast h
    exact hle.trans_lt (two_zpow_lt (by norm_num))

theorem sign_only (w : U32) : w &&& 0x80000000#32 = if negS w then kSignBitS else 0#32 := by
  apply BitVec.eq_of_toNat_eq
  have hw := w.isLt
  have hbits : (w &&& 0x80000000#32).toNat = w.toNat / 2 ^ 31 % 2 ^ 1 * 2 ^ 31 := by
    rw [BitVec.toNat_and, ← and_field]
    rfl
  rw [hbits, negS, BitVec.msb_eq_decide]
  by_cases h : 2 ^ 31 ≤ w.toNat
  · rw [if_pos (decide_eq_true h), kSignBitS_toNat]
    omega
  · rw [if_neg (by rw [decide_eq_true_iff]; exact h)]
    change _ = 0
    omega

/-- A lane of `vrfi` below the point where all singles are integral. -/
theorem rfi_small {rn : U32} (hrn : rn.toNat < 4) {vscr b : U32} {D B : ℕ}
    (h : Opened (flushIn vscr b) D B) (hfin : FiniteS (flushIn vscr b)) (hB : B < 1046) :
    ∃ M : ℕ, (magMode rn (negS (flushIn vscr b))).toInt (absS (flushIn vscr b)) = M ∧ M ≤ 2 ^ 23
      ∧ rfi rn vscr b = encS (negS (flushIn vscr b)) M := by
  obtain ⟨w, hw⟩ : ∃ w, flushIn vscr b = w := ⟨_, rfl⟩
  unfold rfi
  rw [hw] at h hfin ⊢
  have hnan : sglNan w = false := by
    rw [Bool.eq_false_iff, ne_eq, sglNan_iff]
    exact not_lt.mpr ((finite_iff _).mp hfin).le
  obtain ⟨n, hheld, hip, hhalf, hlt⟩ := splitDigits_held h hB
  obtain ⟨⟨ip, half, rest⟩, hsplit⟩ : ∃ t, splitDigits (up w) = t := ⟨_, rfl⟩
  rw [hsplit] at hheld hip hhalf hlt
  dsimp only at hheld hip hhalf hlt ⊢
  obtain ⟨inc, hinc⟩ : ∃ inc, roundsUp rn (negS w) half rest (ip &&& 1#64 != 0#64) = inc := ⟨_, rfl⟩
  -- `n` counts the halves, so the integer part's last bit, which decides a tie, is its second
  have hodd : (ip &&& 1#64 != 0#64) = (n / 2 % 2 == 1) := by
    have hbit := bit_eq ip 0
    rw [BitVec.ushiftRight_zero, pow_zero, Nat.div_one] at hbit
    rw [hbit, hip]
  have hround := roundInc_eq hrn (negS w) hheld hhalf (r := false) (x := rest) (Bool.false_or _) hodd
  rw [← roundsUp_eq rn _ half rest _ hrn, hinc, mul_div_cancel_left₀ _ two_ne_zero, hip] at hround
  have hsum : (ip + (if inc then 1#64 else 0#64)).toNat = ip.toNat + inc.toNat := by
    rw [BitVec.toNat_add]
    cases inc with
    | false => exact Nat.mod_eq_of_lt (by change ip.toNat + 0 < 2 ^ 64; omega)
    | true => exact Nat.mod_eq_of_lt (by change ip.toNat + 1 < 2 ^ 64; omega)
  have hM : ip.toNat + inc.toNat ≤ 2 ^ 23 := by
    have := Bool.toNat_le inc
    omega
  refine ⟨ip.toNat + inc.toNat, by rw [hround]; push_cast; rfl, hM, ?_⟩
  rw [hnan, if_neg Bool.false_ne_true, h.bexp, if_neg (by omega), hsplit, h.sign]
  dsimp only
  rw [hinc]
  obtain ⟨m, hm⟩ : ∃ m, ip + (if inc then 1#64 else 0#64) = m := ⟨_, rfl⟩
  rw [hm] at hsum ⊢
  rw [← hsum] at hM ⊢
  -- a zero keeps the lane's sign
  by_cases h0 : m = 0#64
  · rw [if_pos h0, h0, sign_only]
    unfold encS
    rw [show ((0#64).toNat : ℚ) = 0 from rfl, Format.magBits_zero]
    exact BitVec.or_zero.symm
  · have hne : m.toNat ≠ 0 := fun h => h0 (BitVec.eq_of_toNat_eq h)
    have hfixed := fixedBits_eq (negS w) 0 hne (by omega) (by decide)
    have hmag := magS_natCast hM
    rw [if_neg h0]
    rw [pow_zero, div_one] at hfixed
    have hdn := dn_encD (negS w) hmag (by
      have hone : (1 : ℚ) ≤ m.toNat := by exact_mod_cast Nat.pos_of_ne_zero hne
      exact le_trans (by norm_num) hone)
    rw [← hdn, ← hfixed]
    cases negS w with
    | false => rw [if_neg Bool.false_ne_true, if_neg Bool.false_ne_true, BitVec.zero_or]
    | true => rw [if_pos rfl, if_pos rfl, BitVec.or_comm]; rfl

/-- From `2^23` on every single is integral. -/
theorem integral_of_large {w : U32} {D B : ℕ} (h : Opened w D B) (hfin : FiniteS w) (hB : 1046 ≤ B) :
    ∃ n : ℤ, absS w = n := by
  have hrep := (magS_absS hfin).rep
  have hD : (2 : ℚ) ^ (52 : ℤ) ≤ D := by
    rcases h.range with ⟨-, hB0⟩ | ⟨hD, -⟩
    · omega
    · exact_mod_cast hD
  have hge : (2 : ℚ) ^ (23 : ℤ) ≤ absS w := by
    rw [h.value]
    have hmul := mul_le_mul_of_nonneg_right hD (two_zpow_pos (K := ℚ) ((B : ℤ) - 1075)).le
    rw [← two_zpow_add] at hmul
    exact (two_zpow_le (by omega)).trans hmul
  have hquant : 0 ≤ sgl.quant (absS w) := by
    by_contra hneg
    have hlt := Format.abs_lt_of_quant (f := sgl) (absS w)
    rw [abs_of_nonneg (Format.magValue_nonneg _)] at hlt
    have hpow : (2 : ℚ) ^ (sgl.quant (absS w) + sgl.prec) ≤ 2 ^ (23 : ℤ) :=
      two_zpow_le (by change _ + (24 : ℤ) ≤ 23; omega)
    exact absurd (hlt.trans_le hpow) (not_lt.mpr hge)
  obtain ⟨n, hn⟩ := Grid.mono hquant hrep
  refine ⟨n, ?_⟩
  rw [hn, zpow_zero, mul_one]

/-- What is asked of an integral round: the integer that the direction picks, with the sign of what
was rounded. -/
structure Integral (rn w out : U32) : Prop where
  finite : FiniteS out
  value : valS out = (roundMode rn).toInt (valS w)
  sign : negS out = negS w

theorem roundMode_signed (rn : U32) (neg : Bool) (x : ℚ) :
    (((roundMode rn).toInt (signed neg x) : ℤ) : ℚ) = signed neg ((magMode rn neg).toInt x) := by
  unfold signed magMode
  cases neg with
  | false => rfl
  | true =>
      rw [if_pos rfl, if_pos rfl, if_pos rfl, Mode.toInt_neg]
      exact Int.cast_neg _

/-- **`vrfin`, `vrfiz`, `vrfip` and `vrfim`** on a finite lane. -/
theorem rfi_finite {rn : U32} (hrn : rn.toNat < 4) {vscr b : U32} (h : FiniteS (flushIn vscr b)) :
    Integral rn (flushIn vscr b) (rfi rn vscr b) := by
  have hval : valS (flushIn vscr b) = signed (negS (flushIn vscr b)) (absS (flushIn vscr b)) := rfl
  obtain ⟨D, B, hopen⟩ := exists_opened h
  by_cases hB : B < 1046
  · obtain ⟨M, hM, hle, hout⟩ := rfi_small hrn hopen h hB
    have hmag := magS_natCast hle
    rw [hout]
    refine ⟨finiteS_encS _ hmag, ?_, negS_encS _ hmag⟩
    rw [hval, roundMode_signed, hM, valS, negS_encS _ hmag, absS_encS _ hmag]
    rfl
  · have hnan : sglNan (flushIn vscr b) = false := by
      rw [Bool.eq_false_iff, ne_eq, sglNan_iff]
      exact not_lt.mpr ((finite_iff _).mp h).le
    have hout : rfi rn vscr b = flushIn vscr b := by
      unfold rfi
      dsimp only
      rw [hnan, if_neg Bool.false_ne_true, hopen.bexp, if_pos (by omega)]
    obtain ⟨n, hn⟩ := integral_of_large hopen h (by omega)
    rw [hout]
    refine ⟨h, ?_, rfl⟩
    rw [hval, roundMode_signed, hn, Mode.toInt_intCast]

/-- An infinity stays. -/
theorem rfi_inf (rn : U32) {vscr b : U32} (h : |key (flushIn vscr b)| = kTop) :
    rfi rn vscr b = flushIn vscr b := by
  have hnan : sglNan (flushIn vscr b) = false := by
    rw [Bool.eq_false_iff, ne_eq, sglNan_iff]
    exact not_lt.mpr h.le
  unfold rfi
  dsimp only
  rw [hnan, if_neg Bool.false_ne_true, (up_inf h).2.1, if_pos (by decide)]

/-! ## There and back -/

/-- A single that is no denormal is not flushed. -/
theorem flushIn_of_normal (vscr : U32) {w : U32} (h : absS w = 0 ∨ 2 ^ (-126 : ℤ) ≤ absS w) : flushIn vscr w = w := by
  rcases flushIn_cases vscr w with hsame | ⟨-, hden⟩
  · exact hsame
  · exfalso
    obtain ⟨hpos, hlt⟩ := (sglDenorm_iff w).mp hden
    rw [abs_key] at hpos hlt
    rcases h with h0 | hle
    · have hbits := (Format.magValue_eq_zero_iff (f := sgl) (K := ℚ) _).mp h0
      omega
    · have hdiv : w.toNat % 2 ^ 31 / sgl.lead < 1 := by
        rw [Nat.div_lt_iff_lt_mul sgl.lead_pos, one_mul]
        change _ < 2 ^ 23
        omega
      exact absurd (Format.magValue_lt (K := ℚ) le_rfl hdiv) (not_lt.mpr hle)

/-- An integer of 24 digits over a power of two is a single. -/
theorem cfsx_exact (h : Cpu.Fast) {s : ℕ} (hs : s ≤ 31) {n : ℤ} (hn : |n| < 2 ^ 24) :
    FiniteS (cfsx h s (BitVec.ofInt 32 n)) ∧ valS (cfsx h s (BitVec.ofInt 32 n)) = n / 2 ^ s
      ∧ (absS (cfsx h s (BitVec.ofInt 32 n)) = 0
        ∨ 2 ^ (-126 : ℤ) ≤ absS (cfsx h s (BitVec.ofInt 32 n))) := by
  obtain ⟨hlo, hhi⟩ := abs_lt.mp hn
  have hint : (BitVec.ofInt 32 n).toInt = n :=
    toInt_ofInt (by decide) (fits32 (hn.trans (by norm_num)))
  rw [cfsx_eq h hs, hint]
  by_cases h0 : n = 0
  · rw [h0, Int.cast_zero, zero_div, ieeeS_zero]
    have habs : absS 0#32 = 0 := (Format.magValue_eq_zero_iff _).mpr rfl
    exact ⟨by decide, by rw [valS, habs, neg_zero, ite_self], Or.inl habs⟩
  · obtain ⟨m, hm⟩ : ∃ m : ℕ, |n| = m := ⟨n.natAbs, Int.abs_eq_natAbs n⟩
    have hm0 : m ≠ 0 := by
      intro hm0
      rw [hm0] at hm
      exact h0 (abs_eq_zero.mp hm)
    have habs : |(n : ℚ) / 2 ^ s| = (m : ℚ) / 2 ^ s := by
      rw [abs_div, abs_of_pos (show (0 : ℚ) < 2 ^ s by positivity), ← Int.cast_abs, hm, Int.cast_natCast]
    have hne : (n : ℚ) / 2 ^ s ≠ 0 := div_ne_zero (Int.cast_ne_zero.mpr h0) (by positivity)
    -- it is its own nearest single
    have hrep : Format.Rep sgl ((m : ℚ) / 2 ^ s) := by
      have hval : (m : ℚ) / 2 ^ s = m * 2 ^ (-(s : ℤ)) := by
        rw [zpow_neg, zpow_natCast, div_eq_mul_inv]
      rw [hval]
      exact Format.rep_natMul (by change -149 ≤ _; omega) (by change m < 2 * 2 ^ 23; omega)
    obtain ⟨hlow, hhigh⟩ := fixed_range (s := s) hm0 (by omega) hs
    have hround : sgl.round .nearest |(n : ℚ) / 2 ^ s| = (m : ℚ) / 2 ^ s := by
      rw [habs, Format.round_of_rep _ hrep]
    have hmag : MagS ((m : ℚ) / 2 ^ s) := by
      have hlt := hhigh
      rw [Format.round_of_rep _ hrep] at hlt
      exact ⟨hrep, by positivity, hlt⟩
    rw [ieeeS_eq false hne (by rw [habs]; exact hhigh), hround]
    refine ⟨finiteS_encS _ hmag, ?_, Or.inr ?_⟩
    · rw [valS, negS_encS _ hmag, absS_encS _ hmag, ← habs]
      by_cases hneg : (n : ℚ) / 2 ^ s < 0
      · rw [if_pos (decide_eq_true hneg), abs_of_neg hneg, neg_neg]
      · rw [if_neg (by rw [decide_eq_true_iff]; exact hneg), abs_of_nonneg (not_lt.mp hneg)]
    · rw [absS_encS _ hmag]
      exact hlow

/-- **An integer of 24 digits comes back** from its conversion, whatever the scale. -/
theorem ctsx_cfsx (h : Cpu.Fast) {s : ℕ} (hs : s ≤ 31) (vscr : U32) {n : ℤ} (hn : |n| < 2 ^ 24) :
    ctxLane true s (cfsx h s (BitVec.ofInt 32 n)) vscr = (BitVec.ofInt 32 n, vscr) := by
  obtain ⟨hfin, hval, hnormal⟩ := cfsx_exact h hs hn
  have hflush := flushIn_of_normal vscr hnormal
  have hfits : Fits true 32 n := fits32 (hn.trans (by norm_num))
  have htrunc : truncated (cfsx h s (BitVec.ofInt 32 n)) s = n := by
    rw [truncated, hval, div_mul_cancel₀ _ (by positivity), Mode.toInt_intCast]
  have hlane := @ctxLane_finite true s (cfsx h s (BitVec.ofInt 32 n)) vscr (by rw [hflush]; exact hfin)
  rw [hflush, htrunc, Delivers, clamped_of_fits hfits, if_pos hfits] at hlane
  exact hlane

/-! ## The handlers -/

/-- What a lane is converted to: its truncation clamped, a bound for an infinity, nothing for a NaN. -/
def ctxWord (sgn : Bool) (s : ℕ) (w : U32) : ℤ :=
  if sglNan w then 0
  else if FiniteS w then clamped sgn 32 (truncated w s)
  else if negS w then lowest sgn 32
  else highest sgn 32

/-- It had to be clamped. -/
def Clipped (sgn : Bool) (s : ℕ) (w : U32) : Prop :=
  sglNan w = false ∧ ¬ (FiniteS w ∧ Fits sgn 32 (truncated w s))

instance (sgn : Bool) (s : ℕ) (w : U32) : Decidable (Clipped sgn s w) :=
  inferInstanceAs (Decidable (_ ∧ _))

theorem ctxLane_spec (sgn : Bool) (s : ℕ) (b vscr : U32) :
    ctxLane sgn s b vscr = (BitVec.ofInt 32 (ctxWord sgn s (flushIn vscr b)),
      if Clipped sgn s (flushIn vscr b) then sat vscr else vscr) := by
  by_cases hnan : sglNan (flushIn vscr b) = true
  · have hno : ¬ Clipped sgn s (flushIn vscr b) := fun h => Bool.noConfusion (hnan.symm.trans h.1)
    rw [if_neg hno, ctxWord, if_pos hnan, ctxLane_eq, if_pos hnan]
    rfl
  · have hnan' : sglNan (flushIn vscr b) = false := Bool.eq_false_iff.mpr hnan
    rw [ctxWord, if_neg hnan]
    by_cases hfin : FiniteS (flushIn vscr b)
    · rw [ctxLane_finite sgn s hfin, if_pos hfin]
      by_cases hfits : Fits sgn 32 (truncated (flushIn vscr b) s)
      · have hno : ¬ Clipped sgn s (flushIn vscr b) := fun h => h.2 ⟨hfin, hfits⟩
        rw [if_pos hfits, if_neg hno]
      · have hclip : Clipped sgn s (flushIn vscr b) := ⟨hnan', fun h => hfits h.2⟩
        rw [if_neg hfits, if_pos hclip]
    · have hinf : |key (flushIn vscr b)| = kTop :=
        le_antisymm (abs_key_le hnan') (not_lt.mp ((finite_iff _).not.mp hfin))
      have hclip : Clipped sgn s (flushIn vscr b) := ⟨hnan', fun h => hfin h.1⟩
      rw [ctxLane_inf sgn s hinf, if_neg hfin, if_pos hclip]

theorem ctxWord_fits (sgn : Bool) (s : ℕ) (w : U32) : Fits sgn 32 (ctxWord sgn s w) := by
  have hle := (bounds_fit sgn (w := 32) (by decide) (by decide)).2.2
  unfold ctxWord
  split
  · exact fits_zero
  · split
    · exact clamped_fits _
    · split
      · exact ⟨le_rfl, hle⟩
      · exact ⟨hle, le_rfl⟩

/-- The flush reads NJ only. -/
theorem flushIn_congr {v v' : U32} (h : v &&& vNJ = v' &&& vNJ) (w : U32) : flushIn v w = flushIn v' w := by
  unfold flushIn
  rw [h]

theorem sat_vNJ (vscr : U32) : sat vscr &&& vNJ = vscr &&& vNJ := by
  rw [sat, BitVec.and_or_distrib_right, show vSAT &&& vNJ = 0#32 from rfl, BitVec.or_zero]

/-- What `vctuxs` and `vctsxs` leave: each lane converted, SAT as it was or some lane was clamped, the
other bits of VSCR as they were. -/
structure Fixed (sgn : Bool) (c : Cpu β) (i : U32) (d : Cpu β) : Prop where
  lane : ∀ k < 4, laneInt sgn (gw (d.st.vr (f_rt i)) k)
    = ctxWord sgn (uim i) (flushIn c.st.vscr (gw (c.st.user.VB i) k))
  sat : d.st.vscr &&& vSAT ≠ 0#32 ↔ c.st.vscr &&& vSAT ≠ 0#32
    ∨ ∃ k < 4, Clipped sgn (uim i) (flushIn c.st.vscr (gw (c.st.user.VB i) k))
  nj : d.st.vscr &&& ~~~vSAT = c.st.vscr &&& ~~~vSAT
  only : WritesOnly c i d

theorem ctx_fixed (sgn : Bool) (c : Cpu β) (i : U32) : Fixed sgn c i (ctx sgn c i) := by
  obtain ⟨honly, hvr, hvscr⟩ := vecOp_writes
    (fun _ b _ => words.each fun k => ctxLane sgn (uim i) (gw b k)) c i
  obtain ⟨d, hd⟩ : ∃ d, d = ctx sgn c i := ⟨_, rfl⟩
  change WritesOnly c i (ctx sgn c i) at honly
  change (ctx sgn c i).st.vr _ = _ at hvr
  change (ctx sgn c i).st.vscr = _ at hvscr
  rw [← hd] at honly hvr hvscr ⊢
  -- the lanes rely on NJ, which none of them touches
  obtain ⟨hget, hsat⟩ := foldl_store words
    (y := fun k => BitVec.ofInt 32 (ctxWord sgn (uim i) (flushIn c.st.vscr (gw (c.st.user.VB i) k))))
    (p := fun k => Clipped sgn (uim i) (flushIn c.st.vscr (gw (c.st.user.VB i) k)))
    (Q := fun vscr => vscr &&& vNJ = c.st.vscr &&& vNJ)
    ((List.range 4).map fun k => (k, ctxLane sgn (uim i) (gw (c.st.user.VB i) k)))
    (fun x hx => by
      obtain ⟨k, hk, rfl⟩ := List.mem_map.mp hx
      exact List.mem_range.mp hk)
    (fun vscr h => (sat_vNJ vscr).trans h)
    (fun x hx vscr h => by
      obtain ⟨k, -, rfl⟩ := List.mem_map.mp hx
      dsimp only
      rw [ctxLane_spec, flushIn_congr h])
    (zero, c.st.vscr) rfl
  have hsome : (∃ x ∈ (List.range 4).map fun k => (k, ctxLane sgn (uim i) (gw (c.st.user.VB i) k)),
      Clipped sgn (uim i) (flushIn c.st.vscr (gw (c.st.user.VB i) x.1)))
      ↔ ∃ k < 4, Clipped sgn (uim i) (flushIn c.st.vscr (gw (c.st.user.VB i) k)) := by
    constructor
    · rintro ⟨x, hx, hclip⟩
      obtain ⟨k, hk, rfl⟩ := List.mem_map.mp hx
      exact ⟨k, List.mem_range.mp hk, hclip⟩
    · rintro ⟨k, hk, hclip⟩
      exact ⟨_, List.mem_map.mpr ⟨k, List.mem_range.mpr hk, rfl⟩, hclip⟩
  simp only [hsome] at hsat
  have hvscr := hvscr.trans hsat
  refine ⟨fun k hk => ?_, ?_, ?_, honly⟩
  · have hmem : k ∈ ((List.range 4).map fun k => (k, ctxLane sgn (uim i) (gw (c.st.user.VB i) k))).map
        Prod.fst := by
      rw [List.map_map]
      exact List.mem_map.mpr ⟨k, List.mem_range.mpr hk, rfl⟩
    have hword := (hget k hk).trans (if_pos hmem)
    rw [hvr]
    exact (congrArg (laneInt sgn) hword).trans (laneInt_ofInt (by decide) (ctxWord_fits sgn _ _))
  · rw [hvscr]
    split
    next hclip => exact iff_of_true (sat_vSAT _) (Or.inr hclip)
    next hclip => exact (or_iff_left hclip).symm
  · rw [hvscr]
    split
    next => exact sat_nj _
    next => rfl

/-- A handler that fills the lanes of its destination and leaves VSCR alone. -/
structure Fills (f : ℕ → U32) (c : Cpu β) (i : U32) (d : Cpu β) : Prop where
  lane : ∀ k < 4, gw (d.st.vr (f_rt i)) k = f k
  vscr : d.st.vscr = c.st.vscr
  only : WritesOnly c i d

theorem vecOp_fills (f : V128 → U32 → ℕ → U32) (c : Cpu β) (i : U32) :
    Fills (f (c.st.user.VB i) c.st.vscr) c i
      (vecOp (fun _ b _ vscr => words.each (fun k => modulo (f b vscr k)) vscr) c i) := by
  obtain ⟨honly, hvr, hvscr⟩ := vecOp_writes
    (fun _ b _ vscr => words.each (fun k => modulo (f b vscr k)) vscr) c i
  obtain ⟨hlane, hsame⟩ := each_modulo words (f (c.st.user.VB i) c.st.vscr) c.st.vscr
  refine ⟨fun k hk => ?_, hvscr.trans hsame, honly⟩
  rw [hvr]
  exact hlane k hk

/-- What an integral round is to give. -/
structure Rounds (rn w out : U32) : Prop where
  nan : sglNan w = true → out = sglQuiet w
  inf : |key w| = kTop → out = w
  finite : FiniteS w → Integral rn w out

theorem rfi_rounds {rn : U32} (hrn : rn.toNat < 4) (vscr b : U32) :
    Rounds rn (flushIn vscr b) (rfi rn vscr b) := by
  refine ⟨fun hnan => ?_, rfi_inf rn, rfi_finite hrn⟩
  unfold rfi
  dsimp only
  rw [if_pos hnan]

/-- What is asked of the conversions and the integral rounds, in a state and an instruction. -/
structure Converts (h : Cpu.Fast) (c : Cpu β) (i : U32) : Prop where
  ctuxs : Fixed false c i (h_vctuxs c i)
  ctsxs : Fixed true c i (h_vctsxs c i)
  cfux : Fills (fun k => ieeeS false (((gw (c.st.user.VB i) k).toNat : ℚ) / 2 ^ uim i)) c i (h_vcfux h c i)
  cfsx : Fills (fun k => ieeeS false (((gw (c.st.user.VB i) k).toInt : ℚ) / 2 ^ uim i)) c i (h_vcfsx h c i)
  rfin : ∃ f, Fills f c i (h_vrfin c i)
    ∧ ∀ k < 4, Rounds 0#32 (flushIn c.st.vscr (gw (c.st.user.VB i) k)) (f k)
  rfiz : ∃ f, Fills f c i (h_vrfiz c i)
    ∧ ∀ k < 4, Rounds 1#32 (flushIn c.st.vscr (gw (c.st.user.VB i) k)) (f k)
  rfip : ∃ f, Fills f c i (h_vrfip c i)
    ∧ ∀ k < 4, Rounds 2#32 (flushIn c.st.vscr (gw (c.st.user.VB i) k)) (f k)
  rfim : ∃ f, Fills f c i (h_vrfim c i)
    ∧ ∀ k < 4, Rounds 3#32 (flushIn c.st.vscr (gw (c.st.user.VB i) k)) (f k)

theorem uim_le (i : U32) : uim i ≤ 31 := by
  have := (f_ra i).isLt
  unfold uim
  omega

theorem converts (h : Cpu.Fast) (c : Cpu β) (i : U32) : Converts h c i := by
  have hrfi : ∀ rn : U32, rn.toNat < 4 → ∃ f, Fills f c i (vrfi rn c i)
      ∧ ∀ k < 4, Rounds rn (flushIn c.st.vscr (gw (c.st.user.VB i) k)) (f k) := fun rn hrn =>
    ⟨_, vecOp_fills (fun b vscr k => rfi rn vscr (gw b k)) c i, fun k _ => rfi_rounds hrn _ _⟩
  refine ⟨ctx_fixed false c i, ctx_fixed true c i, ?_, ?_, hrfi 0#32 (by decide), hrfi 1#32 (by decide),
    hrfi 2#32 (by decide), hrfi 3#32 (by decide)⟩
  · have hfill := vecOp_fills (fun b _ k => Vec.cfux h (uim i) (gw b k)) c i
    exact ⟨fun k hk => (hfill.lane k hk).trans (cfux_eq h (uim_le i) _), hfill.vscr, hfill.only⟩
  · have hfill := vecOp_fills (fun b _ k => Vec.cfsx h (uim i) (gw b k)) c i
    exact ⟨fun k hk => (hfill.lane k hk).trans (cfsx_eq h (uim_le i) _), hfill.vscr, hfill.only⟩

/-- **Conversions and integral rounds are exact**, in every lane, at every scale and with either NJ;
and an integer of 24 digits converted there and back is the same. -/
theorem conversions_exact (h : Cpu.Fast) :
    (∀ (c : Cpu β) (i : U32), Converts h c i)
      ∧ ∀ (s : ℕ) (vscr : U32) (n : ℤ), s ≤ 31 → |n| < 2 ^ 24 →
        ctxLane true s (Vec.cfsx h s (BitVec.ofInt 32 n)) vscr = (BitVec.ofInt 32 n, vscr) :=
  ⟨converts h, fun _ vscr _ hs hn => ctsx_cfsx h hs vscr hn⟩

/-- Minus three quarters as a fixed-point number. -/
theorem conversions_exact_three :
    ctxLane true 2 (Vec.cfsx ⟨softHost, 0#32⟩ 2 (BitVec.ofInt 32 (-3))) vNJ = (BitVec.ofInt 32 (-3), vNJ) :=
  (@conversions_exact Unit ⟨softHost, 0#32⟩).2 2 vNJ (-3) (by decide) (by decide)

end Vec

end OpenPowerMac
