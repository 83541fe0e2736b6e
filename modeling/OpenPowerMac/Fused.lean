/-
The fused path.

The product and the addend are aligned on the larger of the two, in a window
whose last digit stands 127 places below its leading one (`windowUnit`), and added
or subtracted there. What ends up in the accumulator is held, in the sense of
`Held`, and `Acc.Holds` names the magnitude it is held for. For a sum, and for a
difference that reaches no further down than the window, that is the exact result.
A difference that does is cut off from below, where the digits shifted out of the
smaller operand make the true one less: `seen` is the magnitude the accumulator
then stands for.
-/
import OpenPowerMac.Window

set_option autoImplicit false

namespace OpenPowerMac

open Rounding

namespace Sf

/-! ## The window -/

/-- The place of the accumulator's last digit. -/
def windowUnit (p b : ℚ) : ℤ := max (Int.log 2 |p|) (Int.log 2 |b|) - 127

/-- The magnitude the accumulator stands for after a subtraction: anything between
its own number and the next, once digits are lost. -/
def seen (p b : ℚ) : ℚ :=
  if |p + b| = ⌈|p + b| / 2 ^ windowUnit p b⌉ * 2 ^ windowUnit p b then |p + b|
  else (⌈|p + b| / 2 ^ windowUnit p b⌉ + 1 / 4) * 2 ^ windowUnit p b

/-- The magnitude the accumulator stands for. -/
def accumulated (p b : ℚ) : ℚ := if p * b < 0 then seen p b else |p + b|

/-- An accumulator holds a magnitude. -/
structure Acc.Holds (v : Acc) (x : ℚ) : Prop where
  top : 2 ^ 127 ≤ v.acc.val
  held : Held v.acc.val v.jam (x / 2 ^ (v.exp - 127))

/-- **What is held is delivered.** -/
theorem Acc.Holds.roundPack {v : Acc} {x : ℚ} (h : v.Holds x) {env : Env} (henv : env.Std) (t : Tgt)
    (neg : Bool) :
    roundPack neg v.exp v.acc.hi (v.jam || v.acc.lo != 0#64) env t 0#32
      = encode t env.rn neg (t.format.deliver (magMode env.rn neg) x) := by
  have htop := h.top
  have hheld := h.held.shift 64
  rw [v.acc.val_div, v.acc.val_mod, ← bne_zero] at hheld
  refine roundPack_eq henv ?_ ?_
  · have hlo := v.acc.lo.isLt
    unfold U128.val at htop
    omega
  · have hx : x / 2 ^ (v.exp - 127) / 2 ^ 64 = x / 2 ^ (v.exp - 63) := by
      rw [div_div, ← zpow_natCast, ← two_zpow_add]
      congr 2
      omega
    rwa [hx] at hheld

/-! ## The product -/

/-- **The product is exact**, its leading one on top and its last digits as many
zeros as both significands end in. -/
theorem prodAcc_eq {a c : Un} {na nc : Bool} {x y : ℚ} (ha : a.Holds na x) (hc : c.Holds nc y)
    {acc : U128} {exp : ℤ} (h : prodAcc a c = (acc, exp)) :
    2 ^ 127 ≤ acc.val ∧ x * y = acc.val * 2 ^ (exp - 127)
      ∧ ∀ i j, 2 ^ i ∣ a.m.toNat → 2 ^ j ∣ c.m.toNat → 2 ^ (i + j) ∣ acc.val := by
  have ham := ha.m
  have hcm := hc.m
  have hval := mul64to128_val a.m c.m
  have hlow : 2 ^ 126 ≤ a.m.toNat * c.m.toNat := by
    calc 2 ^ 126 = 2 ^ 63 * 2 ^ 63 := by norm_num
      _ ≤ _ := Nat.mul_le_mul ham hcm
  have hdvd : ∀ i j, 2 ^ i ∣ a.m.toNat → 2 ^ j ∣ c.m.toNat → 2 ^ (i + j) ∣ a.m.toNat * c.m.toNat :=
    fun i j hi hj => by
      rw [pow_add]
      exact Nat.mul_dvd_mul hi hj
  have hxy : x * y = (a.m.toNat * c.m.toNat : ℕ) * 2 ^ (a.e + c.e - 126) := by
    rw [ha.x, hc.x, show a.e + c.e - 126 = (a.e - 63) + (c.e - 63) by ring, two_zpow_add]
    push_cast
    ring
  unfold prodAcc at h
  dsimp only at h
  obtain ⟨p, hp⟩ : ∃ p, mul64to128 a.m c.m = p := ⟨_, rfl⟩
  rw [hp] at h hval
  have hhi : p.hi >>> 63 = 0#64 ↔ p.val < 2 ^ 127 := by
    have := p.lo.isLt
    rw [← BitVec.toNat_inj, shiftRight_toNat]
    unfold U128.val
    show _ = 0 ↔ _
    omega
  by_cases h0 : p.hi >>> 63 = 0#64
  · -- one digit short of the top
    rw [if_pos h0, Prod.mk.injEq] at h
    obtain ⟨rfl, rfl⟩ := h
    have hlt := hhi.mp h0
    rw [shl128_val (by omega) (by norm_num), hval, pow_one]
    refine ⟨by omega, ?_, fun i j hi hj => Dvd.dvd.mul_right (hdvd i j hi hj) 2⟩
    rw [hxy, Nat.cast_mul _ 2, mul_assoc, Nat.cast_ofNat, ← two_zpow_succ]
    congr 2
    omega
  · rw [if_neg h0, Prod.mk.injEq] at h
    obtain ⟨rfl, rfl⟩ := h
    have hge := mt hhi.mpr h0
    rw [hval]
    refine ⟨by omega, ?_, hdvd⟩
    rw [hxy]
    congr 2
    omega

/-! ## The sum -/

/-- **A sum is held**; a carry moves it down one digit. -/
theorem addAligned_holds {acc bacc : U128} {E : ℤ} {n jam : Bool} {x : ℚ}
    (hb : bacc.hi.toNat < 2 ^ 64 - 1) (htop : 2 ^ 127 ≤ acc.val + bacc.val)
    (hx : Held (acc.val + bacc.val) jam (x / 2 ^ (E - 127))) :
    (addAligned acc bacc E n jam).Holds x ∧ (addAligned acc bacc E n jam).sign = n := by
  have hsum := add128_val (a := acc) hb
  obtain ⟨s, hs⟩ : ∃ s, add128 acc bacc = s := ⟨_, rfl⟩
  rw [hs] at hsum
  unfold addAligned
  rw [hs]
  obtain ⟨sum, carry⟩ := s
  dsimp only at hsum ⊢
  cases carry with
  | false =>
      rw [if_neg Bool.false_ne_true, add_zero] at hsum
      rw [if_neg Bool.false_ne_true]
      rw [← hsum] at hx htop
      exact ⟨⟨htop, hx⟩, rfl⟩
  | true =>
      rw [if_pos rfl] at hsum ⊢
      have hjam := shr128jam_eq sum 1 jam
      obtain ⟨w, hw⟩ : ∃ w, shr128jam sum 1 jam = w := ⟨_, rfl⟩
      rw [hw] at hjam ⊢
      obtain ⟨v, j⟩ := w
      obtain ⟨hv, hj⟩ := hjam
      dsimp only at hv hj ⊢
      -- the carry comes back as the leading one
      have hlt := sum.val_lt
      have hvhi : v.hi.toNat < 2 ^ 63 := by
        have := v.lo.isLt
        unfold U128.val at hv hlt
        omega
      have hor : (v.hi ||| (1#64 <<< 63)).toNat = 2 ^ 63 + v.hi.toNat := by
        rw [BitVec.or_comm, or_eq_add (n := 63) (by decide) hvhi]
        rfl
      have hval : ({ v with hi := v.hi ||| (1#64 <<< 63) } : U128).val
          = (acc.val + bacc.val) / 2 ^ 1 := by
        have hset : ({ v with hi := v.hi ||| (1#64 <<< 63) } : U128).val = v.val + 2 ^ 127 := by
          unfold U128.val
          dsimp only
          rw [hor]
          ring
        rw [hset, hv, ← hsum, pow_one, show (2 : ℕ) ^ 128 = 2 ^ 127 * 2 from pow_succ 2 127,
          Nat.add_mul_div_right _ _ two_pos]
      have hmod : (jam || sum.val % 2 ^ 1 != 0) = (jam || (acc.val + bacc.val) % 2 ^ 1 != 0) := by
        rw [← hsum, pow_one, show (2 : ℕ) ^ 128 = 2 ^ 127 * 2 from pow_succ 2 127,
          Nat.add_mul_mod_self_right]
      have hshift := hx.shift 1
      rw [← hval, ← hmod, ← hj] at hshift
      refine ⟨⟨?_, ?_⟩, rfl⟩
      · dsimp only
        rw [hval]
        omega
      · dsimp only
        have hxe : x / 2 ^ (E - 127) / 2 ^ 1 = x / 2 ^ (E + 1 - 127) := by
          rw [div_div, ← zpow_natCast, ← two_zpow_add]
          congr 2
          omega
        rwa [hxe] at hshift

/-! ## The difference -/

/-- What the accumulator stands for when a subtraction leaves `D` in it. -/
def cutOff (D : ℕ) (jam : Bool) : ℚ := D + if jam then 1 / 4 else 0

/-- **A difference is held**, moved up to the top; with digits lost, as anything
above the number left. -/
theorem subAligned_holds {acc bacc : U128} {E : ℤ} {n m jam : Bool} {D : ℕ}
    (hD : D = if acc.val ≤ bacc.val then bacc.val - acc.val else acc.val - bacc.val) (h0 : D ≠ 0)
    (hjam : jam = true → 2 ^ 126 ≤ D) :
    ∃ v, subAligned acc bacc E n m jam = some v
      ∧ v.sign = (if acc.val ≤ bacc.val then m else n)
      ∧ v.Holds (cutOff D jam * 2 ^ (E - 127)) := by
  obtain ⟨diff, hdiff, hval⟩ : ∃ diff,
      (if ge128 bacc acc then (sub128 bacc acc, m) else (sub128 acc bacc, n))
        = (diff, if acc.val ≤ bacc.val then m else n) ∧ diff.val = D := by
    rw [ge128_eq]
    by_cases hle : acc.val ≤ bacc.val
    · simp only [hle, decide_true, if_true] at hD ⊢
      exact ⟨_, rfl, (sub128_val hle).trans hD.symm⟩
    · simp only [hle, decide_false, if_false, Bool.false_eq_true] at hD ⊢
      exact ⟨_, rfl, (sub128_val (by omega)).trans hD.symm⟩
  have hne : ¬ (diff.hi = 0#64 ∧ diff.lo = 0#64 ∧ (!jam) = true) := by
    rintro ⟨h₁, h₂, -⟩
    rw [← hval] at h0
    apply h0
    unfold U128.val
    rw [h₁, h₂]
    simp
  unfold subAligned
  rw [hdiff]
  dsimp only
  rw [if_neg hne]
  refine ⟨_, rfl, rfl, ?_⟩
  have hD0 : diff.val ≠ 0 := hval ▸ h0
  obtain ⟨hlz, hlo, hhi⟩ := clz128_spec hD0
  obtain ⟨lz, hlzd⟩ : ∃ lz, clz128 diff = lz := ⟨_, rfl⟩
  rw [hlzd] at hlz hlo hhi ⊢
  have hshl : (if lz ≠ 0 then shl128 diff lz else diff).val = D * 2 ^ lz := by
    by_cases hz : lz ≠ 0
    · rw [if_pos hz, shl128_val hhi hlz, hval]
    · rw [if_neg hz, hval, not_not.mp hz]
      simp
  rw [hval] at hlo hhi
  refine ⟨?_, ?_⟩
  · dsimp only
    rw [hshl]
    exact hlo
  · dsimp only
    have hx : cutOff D jam * 2 ^ (E - 127) / 2 ^ (E - lz - 127) = cutOff D jam * 2 ^ lz := by
      rw [mul_div_assoc, ← zpow_sub₀ two_ne_zero, ← zpow_natCast]
      congr 2
      omega
    rw [hshl, hx]
    cases jam with
    | false =>
        have hcut : cutOff D false * 2 ^ lz = ((D * 2 ^ lz : ℕ) : ℚ) := by
          unfold cutOff
          push_cast
          simp
        rw [hcut]
        exact Held.natCast _
    | true =>
        -- at most one place to move up, so what is lost stays below the last digit
        have hlz1 : lz ≤ 1 := by
          have hbig := hjam rfl
          by_contra hgt
          have : 2 ^ 126 * 2 ^ 2 ≤ D * 2 ^ lz :=
            Nat.mul_le_mul hbig (Nat.pow_le_pow_right (by norm_num) (by omega))
          omega
        have hpow : (1 : ℚ) ≤ 2 ^ lz ∧ (2 : ℚ) ^ lz ≤ 2 :=
          ⟨one_le_pow₀ one_le_two, by
            calc (2 : ℚ) ^ lz ≤ 2 ^ 1 := pow_le_pow_right₀ one_le_two hlz1
              _ = 2 := pow_one 2⟩
        have hcut : cutOff D true * 2 ^ lz = ((D * 2 ^ lz : ℕ) : ℚ) + 2 ^ lz / 4 := by
          unfold cutOff
          push_cast
          simp
          ring
        rw [hcut]
        refine Held.of_lt ?_ ?_ <;> linarith [hpow.1, hpow.2]

/-- Nothing left, and nothing lost. -/
theorem subAligned_none {acc bacc : U128} {E : ℤ} {sign bsign : Bool} (h : acc.val = bacc.val) :
    subAligned acc bacc E sign bsign false = none := by
  unfold subAligned
  rw [ge128_eq, decide_eq_true h.le, if_pos rfl]
  dsimp only
  have hval : (sub128 bacc acc).val = 0 := by
    rw [sub128_val h.le, h, Nat.sub_self]
  unfold U128.val at hval
  refine if_pos ⟨?_, ?_, rfl⟩ <;> refine BitVec.eq_of_toNat_eq ?_ <;>
    simp only [BitVec.toNat_ofNat, Nat.zero_mod] <;> omega

/-! ## The alignment -/

/-- Two operands aligned in one window: `y` and `z` are their magnitudes in units of
its last digit. -/
structure Aligned (acc bacc : U128) (jam : Bool) (y z : ℚ) (D : ℕ) : Prop where
  top : 2 ^ 127 ≤ acc.val + bacc.val
  hi : bacc.hi.toNat < 2 ^ 64 - 1
  sum : Held (acc.val + bacc.val) jam (y + z)
  diff : D = if acc.val ≤ bacc.val then bacc.val - acc.val else acc.val - bacc.val
  order : acc.val ≤ bacc.val ↔ y ≤ z
  lt_abs : D - 1 < |y - z|
  abs_le : |y - z| ≤ D
  exact_iff : jam = false ↔ |y - z| = D
  large : jam = true → 2 ^ 126 ≤ D

/-- What is left of an integer when a held number is taken away. -/
theorem Held.sub_from {m n : ℕ} {s : Bool} {z : ℚ} (h : Held m s z) (hlt : m < n) :
    ((n - m : ℕ) : ℚ) - 1 < |n - z| ∧ |n - z| ≤ (n - m : ℕ)
      ∧ (s = false ↔ |n - z| = ((n - m : ℕ) : ℚ)) ∧ z < n := by
  have hle := h.le
  have hlt' := h.lt
  have hn : (m : ℚ) + 1 ≤ n := by exact_mod_cast hlt
  have hcast : ((n - m : ℕ) : ℚ) = n - m := by
    rw [Nat.cast_sub hlt.le]
  rw [hcast, abs_of_pos (by linarith), h.exact_iff]
  refine ⟨by linarith, by linarith, ?_, by linarith⟩
  constructor <;> intro he <;> linarith

/-- What the window is to hold apart: the last digits of the operand moved down. -/
theorem shift_two_of_jam {v : U128} {n k : ℕ} (hdvd : 2 ^ k ∣ v.val) (hk : 2 ≤ k)
    (hjam : v.val % 2 ^ n ≠ 0) : v.val / 2 ^ n ≤ 2 ^ 126 := by
  have hn : k < n := by
    by_contra hle
    exact hjam (Nat.mod_eq_zero_of_dvd ((pow_dvd_pow 2 (not_lt.mp hle)).trans hdvd))
  have hval := v.val_lt
  have hpow : 2 ^ 2 ≤ 2 ^ n := Nat.pow_le_pow_right (by norm_num) (by omega)
  calc v.val / 2 ^ n ≤ v.val / 2 ^ 2 := Nat.div_le_div_left hpow (by norm_num)
    _ ≤ 2 ^ 126 := by omega

theorem natCast_dist (m n : ℕ) :
    |(m : ℚ) - n| = ((if m ≤ n then n - m else m - n : ℕ) : ℚ) := by
  by_cases h : m ≤ n
  · have hc : (m : ℚ) ≤ n := by exact_mod_cast h
    rw [if_pos h, Nat.cast_sub h, abs_of_nonpos (by linarith)]
    ring
  · have hc : (n : ℚ) ≤ m := by exact_mod_cast (not_le.mp h).le
    rw [if_neg h, Nat.cast_sub (not_le.mp h).le, abs_of_nonneg (by linarith)]

/-- An operand that moves down in the window: what is held of it, and that it leaves the window's
upper half to the other where digits are lost. -/
theorem shr128jam_down {v : U128} {j k : ℕ} (hdvd : 2 ^ j ∣ v.val) (hj : 2 ≤ j) (hk : 0 < k) :
    Held (shr128jam v k false).1.val (shr128jam v k false).2 ((v.val : ℚ) / 2 ^ k)
      ∧ (shr128jam v k false).1.val < 2 ^ 127
      ∧ ((shr128jam v k false).2 = true → (shr128jam v k false).1.val ≤ 2 ^ 126) := by
  obtain ⟨hval, hjam⟩ := shr128jam_eq v k false
  refine ⟨shr128jam_held (Held.natCast (K := ℚ) v.val) k, ?_, ?_⟩
  · have hlt := v.val_lt
    have hpow : 2 ^ 1 ≤ 2 ^ k := Nat.pow_le_pow_right (by norm_num) hk
    rw [hval, Nat.div_lt_iff_lt_mul (Nat.two_pow_pos _)]
    omega
  · intro hlost
    rw [hval]
    refine shift_two_of_jam hdvd hj ?_
    rw [hlost] at hjam
    simpa using hjam.symm

/-- The product moved down below the addend. -/
theorem Aligned.product {acc bacc : U128} {jam : Bool} {y : ℚ} (hheld : Held acc.val jam y)
    (hsmall : acc.val < 2 ^ 127) (hjam : jam = true → acc.val ≤ 2 ^ 126)
    (htop : 2 ^ 127 ≤ bacc.val) (hhi : bacc.hi.toNat < 2 ^ 64 - 1) :
    Aligned acc bacc jam y bacc.val (bacc.val - acc.val) := by
  obtain ⟨hlt, hle, hexact, hless⟩ := Held.sub_from hheld (n := bacc.val) (by omega)
  rw [abs_sub_comm] at hlt hle hexact
  refine ⟨by omega, hhi, hheld.add bacc.val, ?_, ?_, hlt, hle, hexact, ?_⟩
  · rw [if_pos (by omega)]
  · exact iff_of_true (by omega) hless.le
  · intro hlost
    have := hjam hlost
    omega

/-- The two on one exponent. -/
theorem Aligned.level {acc bacc : U128} (htop : 2 ^ 127 ≤ acc.val)
    (hhi : bacc.hi.toNat < 2 ^ 64 - 1) :
    Aligned acc bacc false acc.val bacc.val
      (if acc.val ≤ bacc.val then bacc.val - acc.val else acc.val - bacc.val) := by
  refine ⟨by omega, hhi, ?_, rfl, ?_, ?_, ?_, ?_, fun h => absurd h Bool.false_ne_true⟩
  · exact_mod_cast Held.natCast (K := ℚ) (acc.val + bacc.val)
  · exact_mod_cast Iff.rfl
  · rw [natCast_dist]
    linarith
  · rw [natCast_dist]
  · rw [natCast_dist]
    simp

/-- The addend moved down below the product. -/
theorem Aligned.addend {acc bacc : U128} {jam : Bool} {z : ℚ} (hheld : Held bacc.val jam z)
    (hsmall : bacc.val < 2 ^ 127) (hjam : jam = true → bacc.val ≤ 2 ^ 126)
    (htop : 2 ^ 127 ≤ acc.val) : Aligned acc bacc jam acc.val z (acc.val - bacc.val) := by
  obtain ⟨hlt, hle, hexact, hless⟩ := Held.sub_from hheld (n := acc.val) (by omega)
  have hhi : bacc.hi.toNat < 2 ^ 64 - 1 := by
    unfold U128.val at hsmall
    omega
  refine ⟨by omega, hhi, ?_, ?_, ?_, hlt, hle, hexact, ?_⟩
  · rw [add_comm acc.val, add_comm (acc.val : ℚ)]
    exact hheld.add acc.val
  · rw [if_neg (by omega)]
  · exact iff_of_false (by omega) (not_le.mpr hless)
  · intro hlost
    have := hjam hlost
    omega

/-- A number of one exponent in the units of another. -/
theorem window_shift {e f : ℤ} {k : ℕ} (h : f = e + k) (n : ℕ) :
    (n : ℚ) * 2 ^ (e - 127) / 2 ^ (f - 127) = n / 2 ^ k := by
  rw [mul_div_assoc, ← zpow_sub₀ two_ne_zero, div_eq_mul_inv, ← zpow_natCast, ← zpow_neg]
  congr 2
  omega

/-- A number in the units of its own exponent. -/
theorem window_self (e : ℤ) (n : ℕ) : (n : ℚ) * 2 ^ (e - 127) / 2 ^ (e - 127) = n := by
  rw [window_shift (k := 0) (by simp), pow_zero, div_one]

section Fuse

variable {acc : U128} {exp : ℤ} {b : Un} {nb : Bool} {P B : ℚ}

/-- The addend's accumulator. -/
theorem bacc_val (b : Un) : ({ hi := b.m, lo := 0#64 } : U128).val = b.m.toNat * 2 ^ 64 := by
  unfold U128.val
  simp

/-- The addend in its accumulator. -/
theorem bacc_holds (hb : b.Holds nb B) {bacc : U128} (hbacc : { hi := b.m, lo := 0#64 } = bacc) :
    2 ^ 127 ≤ bacc.val ∧ bacc.hi.toNat < 2 ^ 64 - 1 ∧ 2 ^ 2 ∣ bacc.val
      ∧ B = bacc.val * 2 ^ (b.e - 127) := by
  have hm := hb.m
  have hval : bacc.val = b.m.toNat * 2 ^ 64 := by rw [← hbacc, bacc_val]
  refine ⟨by omega, ?_, ?_, ?_⟩
  · have := hb.low
    have := b.m.isLt
    rw [← hbacc]
    dsimp only
    omega
  · rw [hval]
    exact Dvd.dvd.mul_left (pow_dvd_pow 2 (by norm_num)) _
  · rw [hb.x, hval, Nat.cast_mul, Nat.cast_pow, Nat.cast_ofNat, mul_assoc, ← zpow_natCast,
      ← two_zpow_add]
    congr 2
    omega

/-- **The alignment**: whichever operand is the smaller, the window holds both. -/
theorem fuse_aligned (htop : 2 ^ 127 ≤ acc.val) (hlow : 2 ^ 22 ∣ acc.val)
    (hP : P = acc.val * 2 ^ (exp - 127)) (hb : b.Holds nb B) (ps : Bool) :
    ∃ acc' bacc' jam D, Aligned acc' bacc' jam (P / 2 ^ (max exp b.e - 127))
        (B / 2 ^ (max exp b.e - 127)) D
      ∧ fuse acc exp ps b
        = if ps = b.s then some (addAligned acc' bacc' (max exp b.e) ps jam)
          else subAligned acc' bacc' (max exp b.e) ps b.s jam := by
  obtain ⟨bacc, hbacc⟩ : ∃ w : U128, { hi := b.m, lo := 0#64 } = w := ⟨_, rfl⟩
  obtain ⟨hbtop, hbhi, hbdvd, hB⟩ := bacc_holds hb hbacc
  unfold fuse
  rw [hbacc]
  dsimp only
  rcases lt_trichotomy exp b.e with hlt | heq | hgt
  · -- the product moves down
    obtain ⟨k, hk⟩ : ∃ k : ℕ, b.e = exp + k := ⟨(b.e - exp).toNat, by omega⟩
    obtain ⟨hheld, hsmall, hjam⟩ := shr128jam_down (k := k) hlow (by norm_num) (by omega)
    rw [max_eq_right hlt.le, hP, hB, window_shift hk, window_self]
    refine ⟨_, bacc, _, _, .product hheld hsmall hjam hbtop hbhi, ?_⟩
    have h₁ : ¬ exp - b.e > 0 := by omega
    have h₂ : exp - b.e < 0 := by omega
    simp only [h₁, h₂, if_true, if_false, show (-(exp - b.e)).toNat = k by omega]
  · rw [max_eq_right heq.le, hP, hB, heq, window_self, window_self]
    refine ⟨acc, bacc, false, _, .level htop hbhi, ?_⟩
    simp only [sub_self, gt_iff_lt, lt_irrefl, if_false]
  · -- the addend moves down
    obtain ⟨k, hk⟩ : ∃ k : ℕ, exp = b.e + k := ⟨(exp - b.e).toNat, by omega⟩
    obtain ⟨hheld, hsmall, hjam⟩ := shr128jam_down (k := k) hbdvd (le_refl _) (by omega)
    rw [max_eq_left hgt.le, hP, hB, window_shift hk, window_self]
    refine ⟨acc, _, _, _, .addend hheld hsmall hjam htop, ?_⟩
    have h₁ : exp - b.e > 0 := by omega
    have h₂ : ¬ exp - b.e < 0 := by omega
    simp only [h₁, h₂, if_true, if_false, show (exp - b.e).toNat = k by omega]

theorem log_of_top {m : ℕ} {e : ℤ} (h : 2 ^ 127 ≤ m) (h' : m < 2 ^ 128) :
    Int.log 2 ((m : ℚ) * 2 ^ (e - 127)) = e := by
  have hpos := two_zpow_pos (K := ℚ) (e - 127)
  have hm : (0 : ℚ) < m := by exact_mod_cast (by omega : 0 < m)
  have hlo : (2 : ℚ) ^ e ≤ m * 2 ^ (e - 127) := by
    calc (2 : ℚ) ^ e = 2 ^ (127 : ℕ) * 2 ^ (e - 127) := by
          rw [← zpow_natCast, ← two_zpow_add]
          congr 1
          omega
      _ ≤ m * 2 ^ (e - 127) := mul_le_mul_of_nonneg_right (by exact_mod_cast h) hpos.le
  have hhi : (m : ℚ) * 2 ^ (e - 127) < 2 ^ (e + 1) := by
    calc (m : ℚ) * 2 ^ (e - 127) < 2 ^ (128 : ℕ) * 2 ^ (e - 127) :=
          mul_lt_mul_of_pos_right (by exact_mod_cast h') hpos
      _ = 2 ^ (e + 1) := by
          rw [← zpow_natCast, ← two_zpow_add]
          congr 1
          omega
  exact le_antisymm
    (Int.lt_add_one_iff.mp ((Int.lt_zpow_iff_log_lt (by norm_num) (by positivity)).mp hhi))
    ((Int.zpow_le_iff_le_log (by norm_num) (by positivity)).mp hlo)

/-- A magnitude with a sign. -/
def signed (neg : Bool) (x : ℚ) : ℚ := if neg then -x else x

theorem valD_eq (f : U64) : valD f = signed (negD f) (absD f) := rfl

theorem abs_signed (neg : Bool) {x : ℚ} (h : 0 ≤ x) : |signed neg x| = x := by
  unfold signed
  cases neg <;> simp [abs_of_nonneg h]

/-- Two signed magnitudes: of one sign they add up, of two they compete. -/
theorem signed_add_same (neg : Bool) (x y : ℚ) : signed neg x + signed neg y = signed neg (x + y) := by
  unfold signed
  cases neg
  · rfl
  · simp only [if_true]
    ring

theorem signed_add_other {n m : Bool} (h : n ≠ m) (x y : ℚ) :
    signed n x + signed m y = signed n (x - y) ∧ signed n x + signed m y = signed m (y - x) := by
  unfold signed
  cases n <;> cases m
  · exact absurd rfl h
  · simp only [Bool.false_eq_true, if_true, if_false]
    constructor <;> ring
  · simp only [Bool.false_eq_true, if_true, if_false]
    constructor <;> ring
  · exact absurd rfl h

theorem signed_neg_iff (neg : Bool) {x : ℚ} (h : 0 < x) : decide (signed neg x < 0) = neg := by
  unfold signed
  cases neg <;> simp [h, h.le]

theorem signed_mul (n m : Bool) (x y : ℚ) : signed n x * signed m y = signed (n != m) (x * y) := by
  unfold signed
  cases n <;> cases m <;> simp

theorem signed_eq_zero_iff (neg : Bool) {x : ℚ} : signed neg x = 0 ↔ x = 0 := by
  unfold signed
  cases neg <;> simp

theorem Aligned.ceil {acc bacc : U128} {jam : Bool} {y z : ℚ} {D : ℕ}
    (h : Aligned acc bacc jam y z D) : ⌈|y - z|⌉ = D :=
  Int.ceil_eq_iff.mpr ⟨by exact_mod_cast h.lt_abs, by exact_mod_cast h.abs_le⟩

theorem abs_signed_self (neg : Bool) (x : ℚ) : |signed neg x| = |x| := by
  unfold signed
  cases neg
  · rfl
  · exact abs_neg x

/-- A difference of magnitudes, in units of the window. -/
theorem abs_signed_add_div {n m : Bool} (h : n ≠ m) (x y : ℚ) (k : ℤ) :
    |signed n x + signed m y| / 2 ^ k = |x / 2 ^ k - y / 2 ^ k| := by
  rw [← sub_div, abs_div, abs_of_pos (two_zpow_pos (K := ℚ) k), (signed_add_other h x y).1,
    abs_signed_self]

theorem pos_of_top (htop : 2 ^ 127 ≤ acc.val) (hP : P = acc.val * 2 ^ (exp - 127)) : 0 < P := by
  have := two_zpow_pos (K := ℚ) (exp - 127)
  have : (0 : ℚ) < acc.val := by exact_mod_cast (by omega : 0 < acc.val)
  rw [hP]
  positivity

/-- The window's last place, from the two exponents. -/
theorem windowUnit_signed (htop : 2 ^ 127 ≤ acc.val) (hP : P = acc.val * 2 ^ (exp - 127))
    (hb : b.Holds nb B) (ps : Bool) :
    windowUnit (signed ps P) (signed nb B) = max exp b.e - 127 := by
  have hb' : B = ({ hi := b.m, lo := 0#64 } : U128).val * 2 ^ (b.e - 127) := by
    rw [bacc_val, hb.x, Nat.cast_mul, Nat.cast_pow, Nat.cast_ofNat, mul_assoc, ← zpow_natCast,
      ← two_zpow_add]
    congr 2
    omega
  have hbm := hb.m
  unfold windowUnit
  rw [abs_signed _ (pos_of_top htop hP).le, abs_signed _ hb.pos.le, hP, hb',
    log_of_top htop acc.val_lt, log_of_top (by rw [bacc_val]; omega) (U128.val_lt _)]

/-- A difference with digits lost is large in its window. -/
theorem fuse_large (htop : 2 ^ 127 ≤ acc.val) (hlow : 2 ^ 22 ∣ acc.val)
    (hP : P = acc.val * 2 ^ (exp - 127)) (hb : b.Holds nb B) {ps : Bool} (hs : ps ≠ nb)
    (hgrid : ¬ Grid (windowUnit (signed ps P) (signed nb B)) (signed ps P + signed nb B)) :
    2 ^ 126 ≤ ⌈|signed ps P + signed nb B| / 2 ^ windowUnit (signed ps P) (signed nb B)⌉ := by
  obtain ⟨acc', bacc', jam, D, hal, -⟩ := fuse_aligned htop hlow hP hb ps
  rw [windowUnit_signed htop hP hb] at hgrid ⊢
  have habs := abs_signed_add_div hs P B (max exp b.e - 127)
  rw [habs, hal.ceil]
  have hjam : jam = true := by
    by_contra hj
    have hexact := hal.exact_iff.mp (by simpa using hj)
    rw [← habs, div_eq_iff (two_zpow_pos (K := ℚ) _).ne'] at hexact
    exact hgrid (Grid.of_abs ⟨D, by rw [hexact]; push_cast; rfl⟩)
  exact_mod_cast hal.large hjam

/-- Of one sign, the magnitudes add up under it. -/
theorem fuse_same (htop : 2 ^ 127 ≤ acc.val) (hlow : 2 ^ 22 ∣ acc.val)
    (hP : P = acc.val * 2 ^ (exp - 127)) (hb : b.Holds nb B) :
    ∃ v, fuse acc exp nb b = some v ∧ v.sign = nb
      ∧ v.Holds (accumulated (signed nb P) (signed nb B)) := by
  have hP0 := pos_of_top htop hP
  have hB0 := hb.pos
  obtain ⟨acc', bacc', jam, D, hal, hfuse⟩ := fuse_aligned htop hlow hP hb nb
  have hadd := addAligned_holds (E := max exp b.e) (n := nb) (x := P + B) hal.hi hal.top
    (by rw [add_div]; exact hal.sum)
  have hacc : accumulated (signed nb P) (signed nb B) = P + B := by
    unfold accumulated
    rw [signed_mul, signed_add_same, abs_signed _ (by linarith), if_neg]
    simp only [bne_self_eq_false, signed, Bool.false_eq_true, if_false, not_lt]
    positivity
  rw [hfuse, hb.s, if_pos rfl, hacc]
  exact ⟨_, rfl, hadd.2, hadd.1⟩

/-- Two signs whose magnitudes are equal leave nothing: the difference in the window is zero, and
then no digit was lost either. -/
theorem fuse_cancels (htop : 2 ^ 127 ≤ acc.val) (hlow : 2 ^ 22 ∣ acc.val)
    (hP : P = acc.val * 2 ^ (exp - 127)) (hb : b.Holds nb B) {ps : Bool} (hs : ps ≠ nb)
    (h0 : signed ps P + signed nb B = 0) : fuse acc exp ps b = none := by
  obtain ⟨acc', bacc', jam, D, hal, hfuse⟩ := fuse_aligned htop hlow hP hb ps
  have habs := abs_signed_add_div hs P B (max exp b.e - 127)
  rw [h0, abs_zero, zero_div] at habs
  have hlt := hal.lt_abs
  rw [← habs] at hlt
  have hD0 : D = 0 := by
    have : (D : ℚ) < 1 := by linarith
    have : D < 1 := by exact_mod_cast this
    omega
  have hj : jam = false := by
    cases jam with
    | false => rfl
    | true =>
        have := hal.large rfl
        omega
  have hdiff := hal.diff
  rw [hfuse, hb.s, if_neg hs, hj]
  refine subAligned_none ?_
  rw [hD0] at hdiff
  split at hdiff <;> omega

/-- The larger operand gives the difference its sign. -/
theorem Aligned.sign_signed {acc bacc : U128} {jam : Bool} {k : ℤ} {D : ℕ} {ps : Bool}
    (hal : Aligned acc bacc jam (P / 2 ^ k) (B / 2 ^ k) D) (hs : ps ≠ nb)
    (h0 : signed ps P + signed nb B ≠ 0) :
    (if acc.val ≤ bacc.val then nb else ps) = decide (signed ps P + signed nb B < 0) := by
  obtain ⟨hps, hnb⟩ := signed_add_other hs P B
  have hord := hal.order
  rw [div_le_div_iff_of_pos_right (two_zpow_pos (K := ℚ) k)] at hord
  have hne : P ≠ B := by
    intro he
    rw [hps, he, sub_self] at h0
    exact h0 ((signed_eq_zero_iff ps).mpr rfl)
  by_cases hle : acc.val ≤ bacc.val
  · rw [if_pos hle, hnb, signed_neg_iff]
    exact sub_pos.mpr (lt_of_le_of_ne (hord.mp hle) hne)
  · rw [if_neg hle, hps, signed_neg_iff]
    exact sub_pos.mpr (not_le.mp (mt hord.mpr hle))

/-- What is accumulated of two signs is what is left in the window, cut off below its last place. -/
theorem Aligned.accumulated_eq {acc bacc : U128} {jam : Bool} {k : ℤ} {D : ℕ} {ps : Bool}
    (hal : Aligned acc bacc jam (P / 2 ^ k) (B / 2 ^ k) D) (hs : ps ≠ nb) (hP0 : 0 < P)
    (hB0 : 0 < B) (hunit : windowUnit (signed ps P) (signed nb B) = k) :
    accumulated (signed ps P) (signed nb B) = cutOff D jam * 2 ^ k := by
  have habs := abs_signed_add_div hs P B k
  have hneg : signed ps P * signed nb B < 0 := by
    have hxor : (ps != nb) = true := by simpa using hs
    rw [signed_mul, hxor]
    simp only [signed, if_true]
    have := mul_pos hP0 hB0
    linarith
  unfold accumulated seen cutOff
  rw [if_pos hneg, hunit, habs, hal.ceil, Int.cast_natCast]
  have hexact := hal.exact_iff
  rw [← habs, div_eq_iff (two_zpow_pos (K := ℚ) k).ne'] at hexact
  cases jam with
  | false => rw [if_pos (hexact.mp rfl), hexact.mp rfl]; simp
  | true => rw [if_neg (fun he => Bool.false_ne_true (hexact.mpr he).symm)]; simp

/-- Two signs that leave something. -/
theorem fuse_other (htop : 2 ^ 127 ≤ acc.val) (hlow : 2 ^ 22 ∣ acc.val)
    (hP : P = acc.val * 2 ^ (exp - 127)) (hb : b.Holds nb B) {ps : Bool} (hs : ps ≠ nb)
    (h0 : signed ps P + signed nb B ≠ 0) :
    ∃ v, fuse acc exp ps b = some v ∧ v.sign = decide (signed ps P + signed nb B < 0)
      ∧ v.Holds (accumulated (signed ps P) (signed nb B)) := by
  obtain ⟨acc', bacc', jam, D, hal, hfuse⟩ := fuse_aligned htop hlow hP hb ps
  have hunit := windowUnit_signed htop hP hb ps
  have hDpos : D ≠ 0 := by
    have hgt : 0 < |signed ps P + signed nb B| / 2 ^ (max exp b.e - 127) :=
      div_pos (abs_pos.mpr h0) (two_zpow_pos (K := ℚ) _)
    have hle := hal.abs_le
    rw [abs_signed_add_div hs P B] at hgt
    rintro rfl
    rw [Nat.cast_zero] at hle
    linarith
  obtain ⟨v, hv, hsign, hholds⟩ := subAligned_holds (E := max exp b.e) (n := ps) (m := nb) hal.diff
    hDpos hal.large
  rw [hfuse, hb.s, if_neg hs, hal.accumulated_eq hs (pos_of_top htop hP) hb.pos hunit]
  exact ⟨v, hv, hsign.trans (hal.sign_signed hs h0), hholds⟩

/-- **The fused path holds** what it stands for, and its sign; nothing is left just
where the exact result is zero. -/
theorem fuse_holds (htop : 2 ^ 127 ≤ acc.val) (hlow : 2 ^ 22 ∣ acc.val)
    (hP : P = acc.val * 2 ^ (exp - 127)) (hb : b.Holds nb B) (ps : Bool) :
    (signed ps P + signed nb B = 0 → fuse acc exp ps b = none)
      ∧ (signed ps P + signed nb B ≠ 0 → ∃ v, fuse acc exp ps b = some v
        ∧ v.sign = decide (signed ps P + signed nb B < 0)
        ∧ v.Holds (accumulated (signed ps P) (signed nb B))) := by
  by_cases hs : ps = nb
  · subst hs
    have hsum : 0 < P + B := add_pos (pos_of_top htop hP) hb.pos
    rw [signed_add_same, signed_neg_iff _ hsum]
    exact ⟨fun h => absurd h ((signed_eq_zero_iff ps).not.mpr hsum.ne'),
      fun _ => fuse_same htop hlow hP hb⟩
  · exact ⟨fuse_cancels htop hlow hP hb hs, fuse_other htop hlow hP hb hs⟩

end Fuse

end Sf

end OpenPowerMac
