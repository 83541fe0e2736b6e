/-
Which additions and fused operations are rounded correctly.

`Form` lists the operations that add: `add`, `sub` and the four of `madd`. With the
host's fast paths off each of them delivers the IEEE-754 result just when its
operands do not meet `Misrounds`.
-/
import OpenPowerMac.FmaCore
import OpenPowerMac.Encoding

set_option autoImplicit false

namespace OpenPowerMac

open Rounding

namespace Sf

/-! ## Results tell outcomes apart -/

theorem flags_overflow : ∀ a b c : Bool,
    ((if a then kXx else 0#32) ||| (if b then kFr else 0#32) ||| (if c then kUx else 0#32))
        ≠ kOx ||| kXx ||| kFr
      ∧ ((if a then kXx else 0#32) ||| (if b then kFr else 0#32) ||| (if c then kUx else 0#32))
        ≠ kOx ||| kXx := by
  decide

theorem flags_inj : ∀ a b c a' b' c' : Bool,
    ((if a then kXx else 0#32) ||| (if b then kFr else 0#32) ||| (if c then kUx else 0#32))
        = ((if a' then kXx else 0#32) ||| (if b' then kFr else 0#32) ||| (if c' then kUx else 0#32)) →
      a = a' ∧ b = b' ∧ c = c' := by
  decide

/-- What a target rounds to, short of overflow, is a double's magnitude. -/
theorem magD_round {t : Tgt} {m : Mode} {x : ℚ} (hx : 0 ≤ x)
    (h : ¬ 2 ^ (t.format.emax + 1) ≤ t.format.round m x) : MagD (t.format.round m x) := by
  have hrep := Format.round_rep (f := t.format) m x
  have hnn : 0 ≤ t.format.round m x := Format.le_round_of_le Format.rep_zero hx
  cases t with
  | Dbl => exact ⟨hrep, hnn, not_le.mp h⟩
  | Sgl => exact MagS.magD ⟨hrep, hnn, not_le.mp h⟩

theorem encD_inj {neg : Bool} {v w : ℚ} (hv : MagD v) (hw : MagD w) (h : encD neg v = encD neg w) :
    v = w := by
  rw [← absD_encD neg hv, h, absD_encD neg hw]

theorem encode_overflow_fl (t : Tgt) (rn : U32) (neg : Bool) :
    (encode t rn neg .overflow).fl = kOx ||| kXx ||| kFr
      ∨ (encode t rn neg .overflow).fl = kOx ||| kXx := by
  unfold encode
  dsimp only
  split
  · exact Or.inl rfl
  · exact Or.inr rfl

/-- **Encoding loses nothing** of what was delivered. -/
theorem encode_inj {t : Tgt} {rn : U32} {neg : Bool} {m : Mode} {x x' : ℚ} (hx : 0 < x)
    (hx' : 0 < x') :
    encode t rn neg (t.format.deliver m x) = encode t rn neg (t.format.deliver m x')
      ↔ t.format.deliver m x = t.format.deliver m x' := by
  refine ⟨fun h => ?_, fun h => by rw [h]⟩
  have hne : ∀ {v : ℚ} {a b c : Bool},
      encode t rn neg .overflow ≠ encode t rn neg (.finite v a b c) := by
    intro v a b c he
    have hfl := congrArg R.fl he
    obtain ⟨h₁, h₂⟩ := flags_overflow a b c
    rcases encode_overflow_fl t rn neg with ho | ho
    · exact h₁ (hfl.symm.trans ho)
    · exact h₂ (hfl.symm.trans ho)
  unfold Format.deliver at h ⊢
  dsimp only at h ⊢
  split_ifs at h ⊢ with h₁ h₂ h₂
  · rfl
  · exact absurd h hne
  · exact absurd h.symm hne
  · have hfl := congrArg R.fl h
    have hbits := congrArg R.bits h
    obtain ⟨e₁, e₂, e₃⟩ := flags_inj _ _ _ _ _ _ hfl
    rw [encD_inj (magD_round hx.le h₁) (magD_round hx'.le h₂) hbits] at e₁ e₂ e₃ ⊢
    rw [e₁, e₂, e₃]

/-! ## Losing digits -/

/-- A point off a grid, its lower neighbour's step and what is seen instead. -/
theorem sides_of_not_grid {f : Format} {k : ℤ} {x : ℚ} (hx : ¬ Grid k x)
    (hbig : 2 ^ (k + f.prec) < (⌈x / 2 ^ k⌉ * 2 ^ k : ℚ)) :
    Format.Sides f k x (⌈x / 2 ^ k⌉ * 2 ^ k) ((⌈x / 2 ^ k⌉ + 1 / 4) * 2 ^ k) := by
  have hpos := two_zpow_pos (K := ℚ) k
  have hle := Int.le_ceil (x / 2 ^ k)
  have hlt := Int.ceil_lt_add_one (x / 2 ^ k)
  rw [div_le_iff₀ hpos] at hle
  have hlt' : (⌈x / 2 ^ k⌉ - 1 : ℚ) < x / 2 ^ k := by linarith
  rw [lt_div_iff₀ hpos] at hlt'
  refine ⟨Grid.intMul _, hbig, by linarith, ?_, by linarith, by linarith⟩
  exact lt_of_le_of_ne hle fun he => hx ⟨_, he⟩

/-- A difference that loses digits leaves a full window. -/
theorem window_large {fa fc fb : U64} (ha : FiniteD fa) (hc : FiniteD fc) (hb : FiniteD fb)
    {hasAddend : Bool} (hneg : valD fa * valD fc * addend hasAddend fb < 0)
    (hgrid : ¬ Grid (windowUnit (valD fa * valD fc) (addend hasAddend fb))
      (valD fa * valD fc + addend hasAddend fb)) :
    2 ^ 126 ≤ ⌈|valD fa * valD fc + addend hasAddend fb|
      / 2 ^ windowUnit (valD fa * valD fc) (addend hasAddend fb)⌉ := by
  have hne := mul_ne_zero_iff.mp hneg.ne
  have hp := hne.1
  have hadd : addend hasAddend fb = valD fb := by
    have hb0 := hne.2
    unfold addend at hb0 ⊢
    cases hasAddend with
    | false => exact absurd rfl hb0
    | true => rfl
  rw [hadd] at hneg hgrid hne ⊢
  have hac := mul_ne_zero_iff.mp hp
  have hua := unpack_holds ha ((valD_eq_zero_iff fa).not.mp hac.1)
  have huc := unpack_holds hc ((valD_eq_zero_iff fc).not.mp hac.2)
  have hub := unpack_holds hb ((valD_eq_zero_iff fb).not.mp hne.2)
  obtain ⟨w, hw⟩ : ∃ w, prodAcc (unpack fa) (unpack fc) = w := ⟨_, rfl⟩
  obtain ⟨acc, exp⟩ := w
  obtain ⟨htop, hP, hdvd⟩ := prodAcc_eq hua huc hw
  have hlow := hdvd 11 11 (Nat.dvd_of_mod_eq_zero hua.low) (Nat.dvd_of_mod_eq_zero huc.low)
  rw [valD_mul, valD_eq fb] at hneg hgrid ⊢
  refine fuse_large htop hlow hP hub ?_ hgrid
  -- the two signs differ
  intro hs
  rw [hs, signed_mul, bne_self_eq_false] at hneg
  have := mul_pos (mul_pos hua.pos huc.pos) hub.pos
  unfold signed at hneg
  rw [if_neg Bool.false_ne_true] at hneg
  linarith

/-- **When the fused path is right**: what the accumulator stands for and the exact
result deliver the same, but for `Misrounds`. -/
theorem fmaModel_eq_spec_iff {fa fc fb : U64} (ha : FiniteD fa) (hc : FiniteD fc) (hb : FiniteD fb)
    {env : Env} (henv : env.Std) (hasAddend negAdd negResult : Bool) (t : Tgt) :
    fmaModel fa fc fb hasAddend negAdd negResult env t
        = fusedSpec t env.rn fa fc fb hasAddend negResult
      ↔ ¬ Misrounds t env.rn (valD fa * valD fc) (addend hasAddend fb) negResult := by
  obtain ⟨p, hp⟩ : ∃ p, valD fa * valD fc = p := ⟨_, rfl⟩
  obtain ⟨b, hbd⟩ : ∃ b, addend hasAddend fb = b := ⟨_, rfl⟩
  by_cases hlost : p * b < 0 ∧ ¬ Grid (windowUnit p b) (p + b)
  · have hlarge := window_large ha hc hb (by rw [hp, hbd]; exact hlost.1)
      (by rw [hp, hbd]; exact hlost.2)
    rw [hp, hbd] at hlarge
    have hx : fusedExact fa fc fb hasAddend = p + b := by
      unfold fusedExact
      rw [hp, hbd]
    have hx0 : p + b ≠ 0 := fun h => hlost.2 (h ▸ Grid.zero _)
    have habs : ¬ Grid (windowUnit p b) |p + b| := mt Grid.of_abs hlost.2
    have hsides := sides_of_not_grid (f := t.format) habs (by
      refine lt_of_lt_of_le (two_zpow_lt (?_ : _ < windowUnit p b + 126)) ?_
      · rw [t.format_prec]
        cases t <;> simp only [Tgt.p] <;> omega
      · have hcast : (2 : ℚ) ^ (126 : ℕ) ≤ ⌈|p + b| / 2 ^ windowUnit p b⌉ := by exact_mod_cast hlarge
        rw [two_zpow_add, mul_comm]
        exact mul_le_mul_of_nonneg_right (by exact_mod_cast hcast) (two_zpow_pos _).le)
    have hacc : accumulated p b
        = (⌈|p + b| / 2 ^ windowUnit p b⌉ + 1 / 4) * 2 ^ windowUnit p b := by
      unfold accumulated seen
      rw [if_pos hlost.1, if_neg fun he => habs ⟨_, he⟩]
    rw [fmaModel_eq ha hc hb henv, hx, hp, hbd, if_neg hx0]
    unfold fusedSpec
    rw [hx, ieee_of_ne_zero ((signed_eq_zero_iff _).not.mpr hx0), abs_signed_self, hacc,
      encode_inj (hsides.pos_left.trans (hsides.left.trans hsides.right)) hsides.pos_left, eq_comm,
      Format.deliver_eq_iff hsides]
    unfold Misrounds
    constructor
    · exact fun h hm => h hm.2.2
    · exact fun h hb' => h ⟨hlost.1, hlost.2, hb'⟩
  · -- nothing is lost
    refine iff_of_true (fmaModel_of_exact ha hc hb henv _ _ _ _ ?_) fun hm => hlost ?_
    · unfold fusedExact accumulated
      rw [hp, hbd]
      split
      · next hneg =>
          have hg : Grid (windowUnit p b) |p + b| := (not_not.mp fun h => hlost ⟨hneg, h⟩).abs
          obtain ⟨n, hn⟩ := hg
          unfold seen
          rw [if_pos]
          rw [hn, mul_div_cancel_right₀ _ (two_zpow_pos (K := ℚ) _).ne', Int.ceil_intCast]
      · rfl
    · rw [hp, hbd] at hm
      exact ⟨hm.1, hm.2.1⟩

/-! ## The operations that add -/

/-- Addition, subtraction, and the four fused forms. -/
inductive Form where
  | add
  | sub
  | madd (negAdd negResult : Bool)

namespace Form

/-- The operation on its operands; `c` is the multiplier of the fused forms. -/
def run (h : Host) (off : U32) (f : Form) (a c b : U64) (e : Env) (t : Tgt) : R :=
  match f with
  | .add => Sf.add h off a b e t
  | .sub => Sf.sub h off a b e t
  | .madd negAdd negResult => Sf.madd h off a c b e t negAdd negResult

/-- The product the operation adds to. -/
def product : Form → U64 → U64 → ℚ
  | .add, a, _ => valD a
  | .sub, a, _ => valD a
  | .madd _ _, a, c => valD a * valD c

/-- What it adds. -/
def addend : Form → U64 → ℚ
  | .add, b => valD b
  | .sub, b => -valD b
  | .madd negAdd _, b => signed negAdd (valD b)

/-- Whether the sum is negated. -/
def negResult : Form → Bool
  | .add => false
  | .sub => false
  | .madd _ negResult => negResult

/-- **The exact result**: `a + b`, `a - b`, or `±(a * c ± b)`. -/
def exact (f : Form) (a c b : U64) : ℚ := signed f.negResult (f.product a c + f.addend b)

/-- The multiplier, the addend's negation included, as the fused path gets them. -/
def factor : Form → U64 → U64
  | .madd _ _, c => c
  | _, _ => kOne

def negAdd : Form → Bool
  | .add => false
  | .sub => true
  | .madd negAdd _ => negAdd

/-- The sign of an exact zero: the terms' if they agree, else plus, or minus when
rounding down. -/
def zero (f : Form) (rn : U32) (a c b : U64) : Bool :=
  let ps := negD a != negD (f.factor c)
  let bs := negD b != f.negAdd
  (if ps = bs then ps else rn == 3#32) != f.negResult

end Form

namespace Form

theorem valD_kOne : valD kOne = 1 := by
  have h : absD kOne = 1 := by
    rw [absD_eq, show (expField kOne).toNat = 1023 from rfl, show (fracField kOne).toNat = 0 from rfl]
    norm_num
  rw [valD_eq, h]
  rfl

variable (f : Form)

theorem run_eq_fmaCore (h : Host) {off : U32} (hoff : off &&& kFastOffDbl ≠ 0#32) (a c b : U64)
    (e : Env) (t : Tgt) :
    f.run h off a c b e t = fmaCore h off a (f.factor c) b true f.negAdd f.negResult e t := by
  have hplain : plainD off e t = false := by
    unfold plainD
    rw [beq_eq_false_iff_ne.mpr hoff, Bool.and_false]
  cases f <;> simp only [run, Sf.add, Sf.sub, Sf.madd, hplain, Bool.false_eq_true, if_false] <;> rfl

/-- The addend, negated as the operation asks. -/
def term (b : U64) : U64 := if f.negAdd then b ^^^ kSignBit else b

theorem finite_term {b : U64} (h : FiniteD b) : FiniteD (f.term b) := by
  unfold term
  split
  · exact (finiteD_xor b).mpr h
  · exact h

theorem valD_term (b : U64) : Sf.addend true (f.term b) = f.addend b := by
  unfold Sf.addend term
  rw [if_pos rfl]
  cases f with
  | add => rfl
  | sub => exact valD_xor b
  | madd negAdd _ =>
      cases negAdd
      · rfl
      · exact valD_xor b

theorem valD_factor (a c : U64) : valD a * valD (f.factor c) = f.product a c := by
  cases f with
  | add => exact (congrArg _ valD_kOne).trans (mul_one _)
  | sub => exact (congrArg _ valD_kOne).trans (mul_one _)
  | madd _ _ => rfl

theorem finite_factor {c : U64} (h : FiniteD c) : FiniteD (f.factor c) := by
  cases f with
  | add => exact (by decide : FiniteD kOne)
  | sub => exact (by decide : FiniteD kOne)
  | madd _ _ => exact h

/-- The operation's own statement of its result is the fused path's. -/
theorem spec_eq (t : Tgt) (rn : U32) (a c b : U64) :
    fusedSpec t rn a (f.factor c) (f.term b) true f.negResult
      = ieee t rn (f.zero rn a c b) (f.exact a c b) := by
  have hneg : negD (f.term b) = (negD b != f.negAdd) := by
    unfold term
    cases f.negAdd
    · exact (Bool.bne_false _).symm
    · exact (negD_xor b).trans (Bool.bne_true _).symm
  have hz : (fusedZero rn a (f.factor c) (f.term b) true != f.negResult) = f.zero rn a c b := by
    unfold fusedZero zero
    rw [hneg]
    dsimp only
    obtain ⟨ps, hps⟩ : ∃ ps, (negD a != negD (f.factor c)) = ps := ⟨_, rfl⟩
    obtain ⟨bs, hbs⟩ : ∃ bs, (negD b != f.negAdd) = bs := ⟨_, rfl⟩
    rw [hps, hbs]
    cases ps <;> cases bs <;> rfl
  unfold fusedSpec
  rw [hz]
  unfold fusedExact exact
  rw [f.valD_factor, f.valD_term]

/-- **Correct rounding**: with the host's fast paths off, an operation on finite
operands delivers the IEEE-754 result exactly when they do not meet `Misrounds`. -/
theorem run_eq_ieee_iff (h : Host) {off : U32} (hsgl : off &&& kFastOffSgl ≠ 0#32)
    (hdbl : off &&& kFastOffDbl ≠ 0#32) {a c b : U64} (ha : FiniteD a) (hc : FiniteD c)
    (hb : FiniteD b) {env : Env} (henv : env.Std) (t : Tgt) :
    f.run h off a c b env t = ieee t env.rn (f.zero env.rn a c b) (f.exact a c b)
      ↔ ¬ Misrounds t env.rn (f.product a c) (f.addend b) f.negResult := by
  have hcore : fmaCore h off a (f.factor c) b true f.negAdd f.negResult env t
      = fmaModel a (f.factor c) (f.term b) true f.negAdd f.negResult env t := by
    unfold fmaCore
    dsimp only
    rw [if_neg fun hf => hsgl hf.2.2]
    rfl
  rw [f.run_eq_fmaCore h hdbl, hcore, ← f.spec_eq, ← f.valD_factor, ← f.valD_term]
  exact fmaModel_eq_spec_iff ha (f.finite_factor hc) (f.finite_term hb) henv _ _ _ _

set_option maxRecDepth 100000 in
/-- A square of 105 digits less `2 ^ -200`, toward zero: the window loses all of the subtrahend, and
what it is left with is no boundary. -/
theorem run_eq_ieee_iff_lost :
    ¬ Misrounds .Dbl 1#32 ((Form.madd true false).product 0x3FF0000000000001#64 0x3FF0000000000001#64)
        ((Form.madd true false).addend 0x3370000000000000#64) false
      ∧ (Form.madd true false).run softHost 3#32 0x3FF0000000000001#64 0x3FF0000000000001#64
          0x3370000000000000#64 ⟨1#32, false, false, false⟩ .Dbl
        = { bits := 0x3FF0000000000002#64, fl := kXx } := by
  have hsgl : 3#32 &&& kFastOffSgl ≠ 0#32 := by decide
  have hdbl : 3#32 &&& kFastOffDbl ≠ 0#32 := by decide
  have henv : Env.Std ⟨1#32, false, false, false⟩ := ⟨by decide, rfl, rfl, rfl⟩
  have hiff := run_eq_ieee_iff (.madd true false) softHost hsgl hdbl (a := 0x3FF0000000000001#64)
    (c := 0x3FF0000000000001#64) (b := 0x3370000000000000#64) (by decide) (by decide) (by decide)
    henv .Dbl
  exact ⟨hiff.mp (by decide +kernel), by decide +kernel⟩

set_option maxRecDepth 100000 in
/-- One less `2 ^ -200`, rounded toward zero: the window is left with one, all of it,
and one is delivered in place of the number below. -/
theorem run_ne_ieee :
    FiniteD kOne ∧ FiniteD 0x3370000000000000#64
      ∧ Form.sub.run softHost 3#32 kOne 0#64 0x3370000000000000#64 ⟨1#32, false, false, false⟩ .Dbl
        = { bits := kOne, fl := kXx }
      ∧ ieee .Dbl 1#32 (Form.sub.zero 1#32 kOne 0#64 0x3370000000000000#64)
          (Form.sub.exact kOne 0#64 0x3370000000000000#64)
        = { bits := 0x3FEFFFFFFFFFFFFF#64, fl := kXx } := by
  decide +kernel

end Form

end Sf

end OpenPowerMac
