/-
The vector unit's integer arithmetic is exact.

A saturating lane is the exact sum, difference or product over the integers, formed
whole and only then taken into the bounds of the lane, and VSCR[SAT] is set just
where some lane was outside them. A modulo lane is congruent to the exact result.

Every machine word on the way is the residue of the integer it stands for
(`BitVec.ofInt`), whatever its width; the integer itself is needed only where a
word is widened or clamped, and there it fits.
-/
import OpenPowerMac.AltiVec
import Mathlib.Algebra.BigOperators.Intervals
import Mathlib.Data.Int.ModEq

set_option autoImplicit false

namespace OpenPowerMac

namespace Vec

/-! ## Lanes as integers -/

/-- The integer a lane stands for, with or without a sign. -/
def laneInt (signed : Bool) {w : ℕ} (x : BitVec w) : ℤ := if signed then x.toInt else x.toNat

/-- The bounds of a lane. -/
def lowest (signed : Bool) (w : ℕ) : ℤ := if signed then -2 ^ (w - 1) else 0
def highest (signed : Bool) (w : ℕ) : ℤ := if signed then 2 ^ (w - 1) - 1 else 2 ^ w - 1

/-- Clamped to the bounds. -/
def clamped (signed : Bool) (w : ℕ) (z : ℤ) : ℤ := max (lowest signed w) (min (highest signed w) z)

/-- Within the bounds. -/
def Fits (signed : Bool) (w : ℕ) (z : ℤ) : Prop := lowest signed w ≤ z ∧ z ≤ highest signed w

instance (signed : Bool) (w : ℕ) (z : ℤ) : Decidable (Fits signed w z) :=
  inferInstanceAs (Decidable (_ ∧ _))

/-- A lane of a register as an integer. -/
def LaneView.ints {w : ℕ} (L : LaneView w) (signed : Bool) (v : V128) (k : ℕ) : ℤ :=
  laneInt signed (L.get v k)

/-- A lane stands for an integer within its bounds. -/
theorem laneInt_fits (signed : Bool) {w : ℕ} (x : BitVec w) :
    Fits signed w (laneInt signed x) := by
  cases signed with
  | false =>
      have hlt : (x.toNat : ℤ) < 2 ^ w := by exact_mod_cast x.isLt
      refine ⟨Int.natCast_nonneg _, ?_⟩
      change (x.toNat : ℤ) ≤ 2 ^ w - 1
      omega
  | true =>
      have hlt : x.toInt < 2 ^ (w - 1) := BitVec.toInt_lt
      refine ⟨BitVec.le_toInt x, ?_⟩
      change x.toInt ≤ 2 ^ (w - 1) - 1
      omega

/-- The integer names the lane, -/
theorem ofInt_laneInt (signed : Bool) {w : ℕ} (x : BitVec w) :
    BitVec.ofInt w (laneInt signed x) = x := by
  cases signed with
  | false => rw [laneInt, if_neg Bool.false_ne_true, BitVec.ofInt_natCast, BitVec.ofNat_toNat,
      BitVec.setWidth_eq]
  | true => rw [laneInt, if_pos rfl, BitVec.ofInt_toInt]

/-- and within the bounds the lane names the integer. -/
theorem laneInt_ofInt {signed : Bool} {w : ℕ} (hw : 0 < w) {z : ℤ} (hz : Fits signed w z) :
    laneInt signed (BitVec.ofInt w z) = z := by
  obtain ⟨hlo, hhi⟩ := hz
  cases signed with
  | false =>
      change z ≤ 2 ^ w - 1 at hhi
      change 0 ≤ z at hlo
      rw [laneInt, if_neg Bool.false_ne_true, BitVec.toNat_ofInt, Int.toNat_of_nonneg
        (Int.emod_nonneg _ (by positivity))]
      push_cast
      exact Int.emod_eq_of_lt hlo (by omega)
  | true =>
      change z ≤ 2 ^ (w - 1) - 1 at hhi
      exact BitVec.toInt_ofInt_eq_self hw hlo (by omega)

/-- Whatever the integer, the lane stands for one congruent to it. -/
theorem laneInt_modEq (signed : Bool) {w : ℕ} (z : ℤ) :
    laneInt signed (BitVec.ofInt w z) ≡ z [ZMOD 2 ^ w] := by
  cases signed with
  | false =>
      rw [laneInt, if_neg Bool.false_ne_true, BitVec.toNat_ofInt,
        Int.toNat_of_nonneg (Int.emod_nonneg _ (by positivity))]
      push_cast
      exact Int.mod_modEq z _
  | true =>
      rw [laneInt, if_pos rfl, BitVec.toInt_ofInt]
      have h := Int.bmod_emod (x := z) (m := 2 ^ w)
      push_cast at h
      exact h

/-! ## Machine words as residues -/

/-- Differences of residues. -/
theorem ofInt_sub {w : ℕ} (x y : ℤ) :
    BitVec.ofInt w (x - y) = BitVec.ofInt w x - BitVec.ofInt w y := by
  rw [eq_sub_iff_add_eq, ← BitVec.ofInt_add, sub_add_cancel]

/-- A residue cut to a narrower word. -/
theorem setWidth_ofInt {w n : ℕ} (h : w ≤ n) (z : ℤ) :
    (BitVec.ofInt n z).setWidth w = BitVec.ofInt w z := by
  have hdvd : ((2 ^ w : ℕ) : ℤ) ∣ ((2 ^ n : ℕ) : ℤ) := Int.natCast_dvd_natCast.mpr (pow_dvd_pow 2 h)
  apply BitVec.eq_of_toNat_eq
  apply Int.ofNat.inj
  have hn : (0 : ℤ) ≤ z % (2 ^ n : ℕ) := Int.emod_nonneg _ (by positivity)
  have hw : (0 : ℤ) ≤ z % (2 ^ w : ℕ) := Int.emod_nonneg _ (by positivity)
  rw [BitVec.toNat_setWidth, BitVec.toNat_ofInt, BitVec.toNat_ofInt, Int.ofNat_eq_natCast,
    Int.ofNat_eq_natCast, Int.natCast_mod, Int.toNat_of_nonneg hn, Int.toNat_of_nonneg hw,
    Int.emod_emod_of_dvd z hdvd]

theorem toInt_ofInt {n : ℕ} (hn : 0 < n) {z : ℤ} (h : Fits true n z) : (BitVec.ofInt n z).toInt = z :=
  show laneInt true (BitVec.ofInt n z) = z from laneInt_ofInt hn h

/-- Lanes widened, with zeros and with the sign. -/
theorem uint_eq {w : ℕ} (x : BitVec w) : uint x = BitVec.ofInt 32 (laneInt false x) := by
  rw [laneInt, if_neg Bool.false_ne_true, BitVec.ofInt_natCast, BitVec.ofNat_toNat]
  rfl

theorem uint64_eq {w : ℕ} (x : BitVec w) : uint64 x = BitVec.ofInt 64 (laneInt false x) := by
  rw [laneInt, if_neg Bool.false_ne_true, BitVec.ofInt_natCast, BitVec.ofNat_toNat]
  rfl

theorem sint_eq {w : ℕ} (x : BitVec w) : sint x = BitVec.ofInt 32 (laneInt true x) := rfl

theorem sint64_eq {w : ℕ} (x : BitVec w) : sint64 x = BitVec.ofInt 64 (laneInt true x) := rfl

/-- An `int` that has not wrapped keeps its value as an `i64`. -/
theorem i64_ofInt {z : ℤ} (h : Fits true 32 z) : i64 (BitVec.ofInt 32 z) = BitVec.ofInt 64 z := by
  unfold i64 BitVec.signExtend
  rw [toInt_ofInt (by decide) h]

/-- A sum of residues is the residue of the sum. -/
theorem sumFrom_ofInt {n : ℕ} {s : BitVec n} {x : ℕ → BitVec n} {z : ℤ} {y : ℕ → ℤ} {parts : ℕ}
    (hs : s = BitVec.ofInt n z) (hx : ∀ j < parts, x j = BitVec.ofInt n (y j)) :
    sumFrom s parts x = BitVec.ofInt n (z + ∑ j ∈ Finset.range parts, y j) := by
  induction parts with
  | zero => rw [Finset.sum_range_zero, add_zero, ← hs]; rfl
  | succ parts ih =>
      have hlast : sumFrom s (parts + 1) x = sumFrom s parts x + x parts := by
        unfold sumFrom
        rw [List.range_succ, List.foldl_append]
        rfl
      rw [hlast, ih fun j hj => hx j (Nat.lt_succ_of_lt hj), hx parts (Nat.lt_succ_self _),
        ← BitVec.ofInt_add, Finset.sum_range_succ, add_assoc]

/-! ## Clamping -/

/-- A lane that is an integer clamped, and that sets SAT where it had to be. -/
def Clamps (signed : Bool) {w : ℕ} (x : Lane w) (z : ℤ) : Prop :=
  ∀ vscr, x vscr = (BitVec.ofInt w (clamped signed w z), if Fits signed w z then vscr else sat vscr)

/-- The bounds of a lane are `i64`s. -/
theorem bounds_fit (signed : Bool) {w : ℕ} (hw0 : 0 < w) (hw : w < 64) :
    Fits true 64 (lowest signed w) ∧ Fits true 64 (highest signed w)
      ∧ lowest signed w ≤ highest signed w := by
  have hpow : (2 : ℤ) ^ w ≤ 2 ^ 63 := pow_le_pow_right₀ (by norm_num) (by omega)
  have hhalf : (2 : ℤ) ^ w = 2 * 2 ^ (w - 1) := by
    rw [← pow_succ']
    congr 1
    omega
  have hpos : (1 : ℤ) ≤ 2 ^ (w - 1) := one_le_pow₀ (by norm_num)
  cases signed with
  | false =>
      change (-2 ^ 63 ≤ (0 : ℤ) ∧ (0 : ℤ) ≤ 2 ^ 63 - 1)
        ∧ (-2 ^ 63 ≤ (2 : ℤ) ^ w - 1 ∧ (2 : ℤ) ^ w - 1 ≤ 2 ^ 63 - 1) ∧ (0 : ℤ) ≤ 2 ^ w - 1
      omega
  | true =>
      change (-2 ^ 63 ≤ -(2 : ℤ) ^ (w - 1) ∧ -(2 : ℤ) ^ (w - 1) ≤ 2 ^ 63 - 1)
        ∧ (-2 ^ 63 ≤ (2 : ℤ) ^ (w - 1) - 1 ∧ (2 : ℤ) ^ (w - 1) - 1 ≤ 2 ^ 63 - 1)
        ∧ -(2 : ℤ) ^ (w - 1) ≤ 2 ^ (w - 1) - 1
      omega

/-- The saturation of an `i64` that has not wrapped clamps the integer. -/
theorem satTo_clamps (signed : Bool) {w : ℕ} (hw0 : 0 < w) (hw : w < 64) {lo hi : U64}
    (hlo : lo = BitVec.ofInt 64 (lowest signed w)) (hhi : hi = BitVec.ofInt 64 (highest signed w))
    {z : ℤ} (hz : Fits true 64 z) : Clamps signed (satTo w lo hi (BitVec.ofInt 64 z)) z := by
  intro vscr
  obtain ⟨hlofit, hhifit, hle⟩ := bounds_fit signed hw0 hw
  subst hlo hhi
  unfold satTo
  rw [BitVec.slt_eq_decide, BitVec.slt_eq_decide, toInt_ofInt (by decide) hz,
    toInt_ofInt (by decide) hlofit, toInt_ofInt (by decide) hhifit, setWidth_ofInt hw.le,
    setWidth_ofInt hw.le, setWidth_ofInt hw.le, clamped]
  by_cases hlow : z < lowest signed w
  · rw [if_pos (decide_eq_true hlow), if_neg fun h : Fits signed w z => absurd h.1 (not_le.mpr hlow),
      min_eq_right (by omega), max_eq_left hlow.le]
  · rw [if_neg (by rw [decide_eq_true_iff]; exact hlow)]
    by_cases hhigh : highest signed w < z
    · rw [if_pos (decide_eq_true hhigh),
        if_neg fun h : Fits signed w z => absurd h.2 (not_le.mpr hhigh),
        min_eq_left hhigh.le, max_eq_right hle]
    · rw [if_neg (by rw [decide_eq_true_iff]; exact hhigh), if_pos ⟨not_lt.mp hlow, not_lt.mp hhigh⟩,
        min_eq_right (not_lt.mp hhigh), max_eq_right (not_lt.mp hlow)]

section Sat

variable {x : U64} {z : ℤ} (hx : x = BitVec.ofInt 64 z) (hz : Fits true 64 z)
include hx hz

theorem satU8_clamps : Clamps false (satU8 x) z :=
  hx ▸ satTo_clamps false (by decide) (by decide) rfl rfl hz

theorem satS8_clamps : Clamps true (satS8 x) z :=
  hx ▸ satTo_clamps true (by decide) (by decide) rfl rfl hz

theorem satU16_clamps : Clamps false (satU16 x) z :=
  hx ▸ satTo_clamps false (by decide) (by decide) rfl rfl hz

theorem satS16_clamps : Clamps true (satS16 x) z :=
  hx ▸ satTo_clamps true (by decide) (by decide) rfl rfl hz

theorem satU32_clamps : Clamps false (satU32 x) z :=
  hx ▸ satTo_clamps false (by decide) (by decide) rfl rfl hz

theorem satS32_clamps : Clamps true (satS32 x) z :=
  hx ▸ satTo_clamps true (by decide) (by decide) rfl rfl hz

end Sat

/-! ## The stores of a handler -/

/-- SAT set twice is SAT set once. -/
theorem sat_sat (vscr : U32) : sat (sat vscr) = sat vscr := by
  unfold sat
  rw [BitVec.or_assoc, BitVec.or_self]

section Stores

variable {w : ℕ} (L : LaneView w) {y : ℕ → BitVec w} {p : ℕ → Prop} [DecidablePred p] {Q : U32 → Prop}

/-- What each store leaves, and the one fact about VSCR: it is set once some store has set it. `Q`
is what a lane may rely on of VSCR. -/
theorem foldl_store (xs : List (ℕ × Lane w)) (hlt : ∀ x ∈ xs, x.1 < L.count)
    (hQ : ∀ vscr, Q vscr → Q (sat vscr))
    (hxs : ∀ x ∈ xs, ∀ vscr, Q vscr → x.2 vscr = (y x.1, if p x.1 then sat vscr else vscr)) :
    ∀ s : V128 × U32, Q s.2 →
      (∀ k < L.count, L.get (xs.foldl (fun s x => (L.put s.1 x.1 (x.2 s.2).1, (x.2 s.2).2)) s).1 k
        = if k ∈ xs.map Prod.fst then y k else L.get s.1 k)
      ∧ (xs.foldl (fun s x => (L.put s.1 x.1 (x.2 s.2).1, (x.2 s.2).2)) s).2
        = if ∃ x ∈ xs, p x.1 then sat s.2 else s.2 := by
  induction xs with
  | nil =>
      intro s _
      refine ⟨fun k _ => ?_, ?_⟩
      · rw [if_neg (by rintro ⟨⟩)]
        rfl
      · rw [if_neg (by rintro ⟨x, ⟨⟩, -⟩)]
        rfl
  | cons x xs ih =>
      obtain ⟨hx, hrest⟩ := List.forall_mem_cons.mp hxs
      obtain ⟨hxlt, hltrest⟩ := List.forall_mem_cons.mp hlt
      intro s hs
      have hs' : Q (if p x.1 then sat s.2 else s.2) := by
        split
        · exact hQ _ hs
        · exact hs
      rw [List.foldl_cons, hx s.2 hs]
      obtain ⟨hget, hvscr⟩ := ih hltrest hrest (L.put s.1 x.1 (y x.1), if p x.1 then sat s.2 else s.2) hs'
      refine ⟨fun k hk => ?_, ?_⟩
      · rw [hget k hk, L.get_put _ _ _ _ hxlt hk, List.map_cons]
        by_cases hmem : k ∈ xs.map Prod.fst
        · rw [if_pos hmem, if_pos (List.mem_cons_of_mem _ hmem)]
        · by_cases heq : k = x.1
          · rw [if_neg hmem, if_pos heq, if_pos (heq ▸ List.mem_cons_self), heq]
          · rw [if_neg hmem, if_neg heq, if_neg (by rw [List.mem_cons]; exact not_or.mpr ⟨heq, hmem⟩)]
      · rw [hvscr]
        simp only [List.mem_cons, exists_eq_or_imp]
        by_cases hc : p x.1
        · simp only [hc, true_or, if_true, sat_sat, ite_self]
        · simp only [hc, false_or, if_false]

/-- A loop of lanes that leave VSCR alone. -/
theorem each_modulo (f : ℕ → BitVec w) (vscr : U32) :
    (∀ k < L.count, L.get (L.each (fun k => modulo (f k)) vscr).1 k = f k)
      ∧ (L.each (fun k => modulo (f k)) vscr).2 = vscr := by
  obtain ⟨hget, hvscr⟩ := foldl_store L (y := f) (p := fun _ => False) (Q := fun _ => True)
    ((List.range L.count).map fun k => (k, modulo (f k)))
    (fun x hx => by
      obtain ⟨k, hk, rfl⟩ := List.mem_map.mp hx
      exact List.mem_range.mp hk)
    (fun _ _ => trivial)
    (fun x hx s _ => by
      obtain ⟨k, -, rfl⟩ := List.mem_map.mp hx
      rw [if_neg not_false]
      rfl) (zero, vscr) trivial
  refine ⟨fun k hk => ?_, hvscr.trans (if_neg (by rintro ⟨x, -, ⟨⟩⟩))⟩
  refine (hget k hk).trans (if_pos ?_)
  rw [List.map_map]
  exact List.mem_map.mpr ⟨k, List.mem_range.mpr hk, rfl⟩

end Stores

/-! ## Forms -/

/-- What an instruction computes: lanes of one kind, and the exact result of each from the
operands. -/
structure Form where
  {w : ℕ}
  view : LaneView w
  signed : Bool
  pos : 0 < w
  result : V128 → V128 → V128 → ℕ → ℤ

variable {β : Type}

/-- The exact result of a lane, of the registers an instruction names. -/
def Form.of (F : Form) (c : Cpu β) (i : U32) (k : ℕ) : ℤ :=
  F.result (c.st.user.VA i) (c.st.user.VB i) (c.st.user.VC i) k

/-- The destination of an instruction, as lanes of the form. -/
def Form.dest (F : Form) (d : Cpu β) (i : U32) (k : ℕ) : ℤ :=
  F.view.ints F.signed (d.st.vr (f_rt i)) k

/-- Nothing but the destination and VSCR is another. -/
def WritesOnly (c : Cpu β) (i : U32) (d : Cpu β) : Prop :=
  d = c.onUser fun u => { u.setVr (f_rt i) (d.st.vr (f_rt i)) with vscr := d.st.vscr }

/-- A saturating instruction: each lane is the exact result clamped, SAT is as it was or some
result did not fit, and the other bits of VSCR are as they were. -/
structure Saturates (F : Form) (c : Cpu β) (i : U32) (d : Cpu β) : Prop where
  lane : ∀ k < F.view.count, F.dest d i k = clamped F.signed F.w (F.of c i k)
  sat : d.st.vscr &&& vSAT ≠ 0#32 ↔ c.st.vscr &&& vSAT ≠ 0#32
    ∨ ∃ k < F.view.count, ¬ Fits F.signed F.w (F.of c i k)
  nj : d.st.vscr &&& ~~~vSAT = c.st.vscr &&& ~~~vSAT
  only : WritesOnly c i d

/-- A modulo instruction: each lane is congruent to the exact result, and VSCR is as it was. -/
structure Wraps (F : Form) (c : Cpu β) (i : U32) (d : Cpu β) : Prop where
  lane : ∀ k < F.view.count, F.dest d i k ≡ F.of c i k [ZMOD 2 ^ F.w]
  vscr : d.st.vscr = c.st.vscr
  only : WritesOnly c i d

/-- A handler of the three-operand forms writes its destination and VSCR. -/
theorem vecOp_writes (f : V128 → V128 → V128 → U32 → V128 × U32) (c : Cpu β) (i : U32) :
    WritesOnly c i (vecOp f c i)
      ∧ (vecOp f c i).st.vr (f_rt i)
        = (f (c.st.user.VA i) (c.st.user.VB i) (c.st.user.VC i) c.st.vscr).1
      ∧ (vecOp f c i).st.vscr
        = (f (c.st.user.VA i) (c.st.user.VB i) (c.st.user.VC i) c.st.vscr).2 := by
  have hvr : (vecOp f c i).st.vr (f_rt i)
      = (f (c.st.user.VA i) (c.st.user.VB i) (c.st.user.VC i) c.st.vscr).1 :=
    Function.update_self _ _ _
  refine ⟨?_, hvr, rfl⟩
  rw [WritesOnly, hvr]
  rfl

/-- What is asked of the stores of a loop: each is an integer clamped, and a lane that no store
reaches stands for zero. -/
structure Covers (F : Form) (xs : V128 → V128 → V128 → List (ℕ × Lane F.w))
    (P : Lane F.w → ℤ → Prop) : Prop where
  lt : ∀ a b cc, ∀ x ∈ xs a b cc, x.1 < F.view.count
  each : ∀ a b cc, ∀ x ∈ xs a b cc, P x.2 (F.result a b cc x.1)
  rest : ∀ a b cc, ∀ k < F.view.count, k ∉ (xs a b cc).map Prod.fst → F.result a b cc k = 0

theorem fits_zero {signed : Bool} {w : ℕ} : Fits signed w 0 := by
  have h := laneInt_fits signed (0#w)
  have h0 : laneInt signed (0#w) = 0 := by cases signed <;> simp [laneInt]
  rwa [h0] at h

theorem clamped_fits {signed : Bool} {w : ℕ} (z : ℤ) : Fits signed w (clamped signed w z) := by
  obtain ⟨hlo, hhi⟩ := (fits_zero : Fits signed w 0)
  exact ⟨le_max_left _ _, max_le (hlo.trans hhi) (min_le_left _ _)⟩

theorem clamped_of_fits {signed : Bool} {w : ℕ} {z : ℤ} (h : Fits signed w z) : clamped signed w z = z := by
  rw [clamped, min_eq_right h.2, max_eq_right h.1]

theorem sat_vSAT (vscr : U32) : sat vscr &&& vSAT ≠ 0#32 := by
  intro h
  have hbit := congrArg (fun x => BitVec.getLsbD x 0) h
  rw [sat, BitVec.getLsbD_and, BitVec.getLsbD_or, show vSAT.getLsbD 0 = true from rfl,
    Bool.or_true] at hbit
  cases hbit

theorem sat_nj (vscr : U32) : sat vscr &&& ~~~vSAT = vscr &&& ~~~vSAT := by
  ext b hb
  rw [sat, BitVec.getElem_and, BitVec.getElem_or, BitVec.getElem_and, BitVec.getElem_not]
  cases vscr[b] <;> cases vSAT[b] <;> rfl

/-- A loop whose lanes clamp is a saturating instruction. -/
theorem saturates_of {F : Form} {xs : V128 → V128 → V128 → List (ℕ × Lane F.w)}
    (h : Covers F xs (Clamps F.signed)) (c : Cpu β) (i : U32) :
    Saturates F c i (vecOp (fun a b cc => F.view.stores (xs a b cc)) c i) := by
  obtain ⟨honly, hvr, hvscr⟩ := vecOp_writes (fun a b cc => F.view.stores (xs a b cc)) c i
  obtain ⟨d, hd⟩ : ∃ d, d = vecOp (fun a b cc => F.view.stores (xs a b cc)) c i := ⟨_, rfl⟩
  rw [← hd] at honly hvr hvscr ⊢
  have hrest := h.rest (c.st.user.VA i) (c.st.user.VB i) (c.st.user.VC i)
  have hlt := h.lt (c.st.user.VA i) (c.st.user.VB i) (c.st.user.VC i)
  obtain ⟨hget, hsat⟩ := foldl_store F.view (y := fun k => BitVec.ofInt F.w (clamped F.signed F.w (F.of c i k)))
    (p := fun k => ¬ Fits F.signed F.w (F.of c i k)) (Q := fun _ => True) _ hlt (fun _ _ => trivial)
    (fun x hx vscr _ => by
      rw [h.each _ _ _ x hx vscr, ite_not]
      rfl) (zero, c.st.vscr) trivial
  rw [← LaneView.stores, ← hvr] at hget
  rw [← LaneView.stores, ← hvscr] at hsat
  -- a lane that no store reaches has nothing to clamp
  have hsome : (∃ x ∈ xs (c.st.user.VA i) (c.st.user.VB i) (c.st.user.VC i),
      ¬ Fits F.signed F.w (F.of c i x.1)) ↔ ∃ k < F.view.count, ¬ Fits F.signed F.w (F.of c i k) := by
    constructor
    · rintro ⟨x, hx, hclip⟩
      exact ⟨x.1, hlt x hx, hclip⟩
    · rintro ⟨k, hk, hclip⟩
      by_cases hmem : k ∈ (xs (c.st.user.VA i) (c.st.user.VB i) (c.st.user.VC i)).map Prod.fst
      · obtain ⟨x, hx, rfl⟩ := List.mem_map.mp hmem
        exact ⟨x, hx, hclip⟩
      · rw [Form.of, hrest k hk hmem] at hclip
        exact absurd fits_zero hclip
  simp only [hsome] at hsat
  refine ⟨fun k hk => ?_, ?_, ?_, honly⟩
  · rw [Form.dest, LaneView.ints, hget k hk]
    split
    next => rw [laneInt_ofInt F.pos (clamped_fits _)]
    next hmem =>
      have hzero : F.of c i k = 0 := hrest k hk hmem
      rw [hzero, clamped_of_fits fits_zero, F.view.get_zero]
      cases F.signed <;> simp [laneInt]
  · rw [hsat]
    split
    next hclip => exact iff_of_true (sat_vSAT _) (Or.inr hclip)
    next hclip => exact (or_iff_left hclip).symm
  · rw [hsat]
    split
    next => exact sat_nj _
    next => rfl

/-- A lane that is the residue of an integer, and leaves VSCR alone. -/
def Residue {w : ℕ} (x : Lane w) (z : ℤ) : Prop := x = modulo (BitVec.ofInt w z)

/-- A loop whose lanes are residues is a modulo instruction. -/
theorem wraps_of {F : Form} {xs : V128 → V128 → V128 → List (ℕ × Lane F.w)}
    (h : Covers F xs Residue) (c : Cpu β) (i : U32) :
    Wraps F c i (vecOp (fun a b cc => F.view.stores (xs a b cc)) c i) := by
  obtain ⟨honly, hvr, hvscr⟩ := vecOp_writes (fun a b cc => F.view.stores (xs a b cc)) c i
  obtain ⟨d, hd⟩ : ∃ d, d = vecOp (fun a b cc => F.view.stores (xs a b cc)) c i := ⟨_, rfl⟩
  rw [← hd] at honly hvr hvscr ⊢
  obtain ⟨hget, hsat⟩ := foldl_store F.view (y := fun k => BitVec.ofInt F.w (F.of c i k))
    (p := fun _ => False) (Q := fun _ => True) _ (h.lt _ _ _) (fun _ _ => trivial)
    (fun x hx vscr _ => by
      rw [h.each _ _ _ x hx, if_neg not_false]
      rfl) (zero, c.st.vscr) trivial
  rw [← LaneView.stores, ← hvr] at hget
  rw [← LaneView.stores, ← hvscr, if_neg (by rintro ⟨x, -, ⟨⟩⟩)] at hsat
  refine ⟨fun k hk => ?_, hsat, honly⟩
  rw [Form.dest, LaneView.ints, hget k hk]
  split
  next => exact laneInt_modEq _ _
  next hmem =>
    have hzero : F.of c i k = 0 := h.rest _ _ _ k hk hmem
    rw [hzero, F.view.get_zero]
    cases F.signed <;> simp [laneInt]

section Covers

variable {F : Form} {P : Lane F.w → ℤ → Prop}

/-- A loop over every lane of the destination reaches them all. -/
theorem covers_each {f : V128 → V128 → V128 → ℕ → Lane F.w}
    (h : ∀ a b cc k, P (f a b cc k) (F.result a b cc k)) :
    Covers F (fun a b cc => (List.range F.view.count).map fun k => (k, f a b cc k)) P where
  lt a b cc x hx := by
    obtain ⟨k, hk, rfl⟩ := List.mem_map.mp hx
    exact List.mem_range.mp hk
  each a b cc x hx := by
    obtain ⟨k, -, rfl⟩ := List.mem_map.mp hx
    exact h a b cc k
  rest a b cc k hk hmem := by
    apply absurd _ hmem
    rw [List.map_map]
    exact List.mem_map.mpr ⟨k, List.mem_range.mpr hk, rfl⟩

/-- The two operands of a pack, one behind the other. -/
theorem covers_packed {v : ℕ} {S : LaneView v} {f : BitVec v → Lane F.w} {src : Bool}
    (hcount : F.view.count = 2 * S.count)
    (hres : ∀ a b cc k, F.result a b cc k =
      if k < S.count then S.ints src a k else S.ints src b (k - S.count))
    (h : ∀ x : BitVec v, P (f x) (laneInt src x)) :
    Covers F (fun a b _ => (List.range S.count).flatMap fun k =>
      [(k, f (S.get a k)), (k + S.count, f (S.get b k))]) P where
  lt a b cc x hx := by
    obtain ⟨k, hk, hx⟩ := List.mem_flatMap.mp hx
    have hk := List.mem_range.mp hk
    rw [List.mem_pair] at hx
    rcases hx with rfl | rfl <;> dsimp only <;> omega
  each a b cc x hx := by
    obtain ⟨k, hk, hx⟩ := List.mem_flatMap.mp hx
    have hk := List.mem_range.mp hk
    rw [List.mem_pair] at hx
    rcases hx with rfl | rfl
    · dsimp only
      rw [hres, if_pos hk]
      exact h _
    · dsimp only
      rw [hres, if_neg (by omega), Nat.add_sub_cancel]
      exact h _
  rest a b cc k hk hmem := by
    apply absurd _ hmem
    by_cases hlow : k < S.count
    · exact List.mem_map.mpr ⟨(k, f (S.get a k)), List.mem_flatMap.mpr ⟨k, List.mem_range.mpr hlow,
        List.mem_cons_self⟩, rfl⟩
    · refine List.mem_map.mpr ⟨(k - S.count + S.count, f (S.get b (k - S.count))),
        List.mem_flatMap.mpr ⟨k - S.count, List.mem_range.mpr (by omega), ?_⟩, ?_⟩
      · exact List.mem_cons_of_mem _ List.mem_cons_self
      · dsimp only
        omega

end Covers

/-! ## The bounds of what is formed -/

/-- What is far below the bounds of an `i64`, as the sums here are. -/
theorem fits64 {z : ℤ} (h : |z| ≤ 2 ^ 36) : Fits true 64 z := by
  obtain ⟨hlo, hhi⟩ := abs_le.mp h
  change -2 ^ 63 ≤ z ∧ z ≤ 2 ^ 63 - 1
  omega

theorem fits32 {z : ℤ} (h : |z| < 2 ^ 31) : Fits true 32 z := by
  obtain ⟨hlo, hhi⟩ := abs_lt.mp h
  change -2 ^ 31 ≤ z ∧ z ≤ 2 ^ 31 - 1
  omega

/-- How large a lane can be. -/
theorem abs_word (signed : Bool) {w : ℕ} (hw : w ≤ 32) (x : BitVec w) : |laneInt signed x| ≤ 2 ^ 32 := by
  have hpow : (2 : ℤ) ^ w ≤ 2 ^ 32 := pow_le_pow_right₀ (by norm_num) hw
  have hhalf : (2 : ℤ) ^ (w - 1) ≤ 2 ^ 32 := pow_le_pow_right₀ (by norm_num) (by omega)
  obtain ⟨hlo, hhi⟩ := laneInt_fits signed x
  unfold lowest at hlo
  unfold highest at hhi
  rw [abs_le]
  split_ifs at hlo hhi <;> omega

theorem abs_half (signed : Bool) {w : ℕ} (hw : w ≤ 16) (x : BitVec w) : |laneInt signed x| ≤ 2 ^ 16 := by
  have hpow : (2 : ℤ) ^ w ≤ 2 ^ 16 := pow_le_pow_right₀ (by norm_num) hw
  have hhalf : (2 : ℤ) ^ (w - 1) ≤ 2 ^ 16 := pow_le_pow_right₀ (by norm_num) (by omega)
  obtain ⟨hlo, hhi⟩ := laneInt_fits signed x
  unfold lowest at hlo
  unfold highest at hhi
  rw [abs_le]
  split_ifs at hlo hhi <;> omega

theorem abs_signedHalf {w : ℕ} (hw : w ≤ 16) (x : BitVec w) : |laneInt true x| ≤ 2 ^ 15 := by
  have hhalf : (2 : ℤ) ^ (w - 1) ≤ 2 ^ 15 := pow_le_pow_right₀ (by norm_num) (by omega)
  obtain ⟨hlo, hhi⟩ := laneInt_fits true x
  change -2 ^ (w - 1) ≤ _ at hlo
  change _ ≤ 2 ^ (w - 1) - 1 at hhi
  rw [abs_le]
  omega

/-- How large a product can be, -/
theorem abs_product {x y B : ℤ} (hx : |x| ≤ B) (hy : |y| ≤ B) : |x * y| ≤ B * B := by
  rw [abs_mul]
  exact mul_le_mul hx hy (abs_nonneg _) ((abs_nonneg _).trans hx)

/-- and a sum of parts. -/
theorem abs_sum_le {parts : ℕ} {y : ℕ → ℤ} {B : ℤ} (h : ∀ j < parts, |y j| ≤ B) :
    |∑ j ∈ Finset.range parts, y j| ≤ parts * B := by
  have hle := Finset.sum_le_card_nsmul (Finset.range parts) (fun j => |y j|) B
    fun j hj => h j (Finset.mem_range.mp hj)
  rw [Finset.card_range, nsmul_eq_mul] at hle
  exact (Finset.abs_sum_le_sum_abs _ _).trans hle

/-! ## The instructions -/

/-- The saturating instructions. -/
inductive SatInsn where
  | vaddubs | vadduhs | vadduws | vaddsbs | vaddshs | vaddsws
  | vsububs | vsubuhs | vsubuws | vsubsbs | vsubshs | vsubsws
  | vpkuhus | vpkshus | vpkshss | vpkuwus | vpkswus | vpkswss
  | vmhaddshs | vmhraddshs | vmsumuhs | vmsumshs
  | vsumsws | vsum2sws | vsum4sbs | vsum4shs | vsum4ubs

/-- The modulo instructions. -/
inductive ModInsn where
  | vaddubm | vadduhm | vadduwm | vsububm | vsubuhm | vsubuwm
  | vmladduhm | vmsumubm | vmsummbm | vmsumuhm | vmsumshm | vpkuhum | vpkuwum

/-- The handler of each. -/
def SatInsn.handler : SatInsn → Handler β
  | .vaddubs => h_vaddubs
  | .vadduhs => h_vadduhs
  | .vadduws => h_vadduws
  | .vaddsbs => h_vaddsbs
  | .vaddshs => h_vaddshs
  | .vaddsws => h_vaddsws
  | .vsububs => h_vsububs
  | .vsubuhs => h_vsubuhs
  | .vsubuws => h_vsubuws
  | .vsubsbs => h_vsubsbs
  | .vsubshs => h_vsubshs
  | .vsubsws => h_vsubsws
  | .vpkuhus => h_vpkuhus
  | .vpkshus => h_vpkshus
  | .vpkshss => h_vpkshss
  | .vpkuwus => h_vpkuwus
  | .vpkswus => h_vpkswus
  | .vpkswss => h_vpkswss
  | .vmhaddshs => h_vmhaddshs
  | .vmhraddshs => h_vmhraddshs
  | .vmsumuhs => h_vmsumuhs
  | .vmsumshs => h_vmsumshs
  | .vsumsws => h_vsumsws
  | .vsum2sws => h_vsum2sws
  | .vsum4sbs => h_vsum4sbs
  | .vsum4shs => h_vsum4shs
  | .vsum4ubs => h_vsum4ubs

def ModInsn.handler : ModInsn → Handler β
  | .vaddubm => h_vaddubm
  | .vadduhm => h_vadduhm
  | .vadduwm => h_vadduwm
  | .vsububm => h_vsububm
  | .vsubuhm => h_vsubuhm
  | .vsubuwm => h_vsubuwm
  | .vmladduhm => h_vmladduhm
  | .vmsumubm => h_vmsumubm
  | .vmsummbm => h_vmsummbm
  | .vmsumuhm => h_vmsumuhm
  | .vmsumshm => h_vmsumshm
  | .vpkuhum => h_vpkuhum
  | .vpkuwum => h_vpkuwum

/-! What each computes, over the integers. -/

/-- A sum or a difference of lanes. -/
def sums {w : ℕ} (L : LaneView w) (pos : 0 < w) (signed : Bool) : Form where
  view := L
  signed := signed
  pos := pos
  result a b _ k := L.ints signed a k + L.ints signed b k

def differences {w : ℕ} (L : LaneView w) (pos : 0 < w) (signed : Bool) : Form where
  view := L
  signed := signed
  pos := pos
  result a b _ k := L.ints signed a k - L.ints signed b k

/-- The lanes of the first operand, and behind them those of the second. -/
def packs {v w : ℕ} (S : LaneView v) (src : Bool) (D : LaneView w) (pos : 0 < w) (signed : Bool) :
    Form where
  view := D
  signed := signed
  pos := pos
  result a b _ k := if k < S.count then S.ints src a k else S.ints src b (k - S.count)

/-- A fraction product of halfwords, rounded by what is added to it, and a halfword. -/
def highProducts (round : ℤ) : Form where
  view := halfwords
  signed := true
  pos := by decide
  result a b cc k :=
    (halfwords.ints true a k * halfwords.ints true b k + round) / 2 ^ 15 + halfwords.ints true cc k

/-- A product and a halfword. -/
def lowProducts : Form where
  view := halfwords
  signed := false
  pos := by decide
  result a b cc k :=
    halfwords.ints false a k * halfwords.ints false b k + halfwords.ints false cc k

/-- A word and the products of the lanes below it. -/
def dotProducts {v : ℕ} (S : LaneView v) (left right signed : Bool) (parts : ℕ) : Form where
  view := words
  signed := signed
  pos := by decide
  result a b cc k := words.ints signed cc k
    + ∑ j ∈ Finset.range parts, S.ints left a (parts * k + j) * S.ints right b (parts * k + j)

/-- A word and the lanes below it. -/
def sumsAcross {v : ℕ} (S : LaneView v) (signed : Bool) (parts : ℕ) : Form where
  view := words
  signed := signed
  pos := by decide
  result a b _ k := words.ints signed b k + ∑ j ∈ Finset.range parts, S.ints signed a (parts * k + j)

/-- The last word and all of the other operand's; elsewhere nothing. -/
def sumOfAll : Form where
  view := words
  signed := true
  pos := by decide
  result a b _ k :=
    if k = 3 then words.ints true b 3 + ∑ j ∈ Finset.range 4, words.ints true a j else 0

/-- The second word of each half and the other operand's two; elsewhere nothing. -/
def sumsOfPairs : Form where
  view := words
  signed := true
  pos := by decide
  result a b _ k :=
    if k % 2 = 1 then words.ints true b k + words.ints true a (k - 1) + words.ints true a k else 0

/-- The exact result of each of its lanes. -/
def SatInsn.form : SatInsn → Form
  | .vaddubs => sums bytes (by decide) false
  | .vadduhs => sums halfwords (by decide) false
  | .vadduws => sums words (by decide) false
  | .vaddsbs => sums bytes (by decide) true
  | .vaddshs => sums halfwords (by decide) true
  | .vaddsws => sums words (by decide) true
  | .vsububs => differences bytes (by decide) false
  | .vsubuhs => differences halfwords (by decide) false
  | .vsubuws => differences words (by decide) false
  | .vsubsbs => differences bytes (by decide) true
  | .vsubshs => differences halfwords (by decide) true
  | .vsubsws => differences words (by decide) true
  | .vpkuhus => packs halfwords false bytes (by decide) false
  | .vpkshus => packs halfwords true bytes (by decide) false
  | .vpkshss => packs halfwords true bytes (by decide) true
  | .vpkuwus => packs words false halfwords (by decide) false
  | .vpkswus => packs words true halfwords (by decide) false
  | .vpkswss => packs words true halfwords (by decide) true
  | .vmhaddshs => highProducts 0
  | .vmhraddshs => highProducts 0x4000
  | .vmsumuhs => dotProducts halfwords false false false 2
  | .vmsumshs => dotProducts halfwords true true true 2
  | .vsumsws => sumOfAll
  | .vsum2sws => sumsOfPairs
  | .vsum4sbs => sumsAcross bytes true 4
  | .vsum4shs => sumsAcross halfwords true 2
  | .vsum4ubs => sumsAcross bytes false 4

def ModInsn.form : ModInsn → Form
  | .vaddubm => sums bytes (by decide) false
  | .vadduhm => sums halfwords (by decide) false
  | .vadduwm => sums words (by decide) false
  | .vsububm => differences bytes (by decide) false
  | .vsubuhm => differences halfwords (by decide) false
  | .vsubuwm => differences words (by decide) false
  | .vmladduhm => lowProducts
  | .vmsumubm => dotProducts bytes false false false 4
  | .vmsummbm => dotProducts bytes true false true 4
  | .vmsumuhm => dotProducts halfwords false false false 2
  | .vmsumshm => dotProducts halfwords true true true 2
  | .vpkuhum => packs halfwords false bytes (by decide) false
  | .vpkuwum => packs words false halfwords (by decide) false

/-! ## Exactness, family by family -/

section Families

variable {w : ℕ} {L : LaneView w} {signed : Bool} {pos : 0 < w}

/-- A loop lane by lane, each of which clamps. -/
theorem each_saturates {f : V128 → V128 → V128 → ℕ → Lane w} {res : V128 → V128 → V128 → ℕ → ℤ}
    (h : ∀ a b cc k, Clamps signed (f a b cc k) (res a b cc k)) (c : Cpu β) (i : U32) :
    Saturates ⟨L, signed, pos, res⟩ c i (vecOp (fun a b cc => L.each (f a b cc)) c i) :=
  saturates_of (F := ⟨L, signed, pos, res⟩) (covers_each h) c i

/-- A loop lane by lane, each a residue. -/
theorem each_wraps {f : V128 → V128 → V128 → ℕ → Lane w} {res : V128 → V128 → V128 → ℕ → ℤ}
    (h : ∀ a b cc k, Residue (f a b cc k) (res a b cc k)) (c : Cpu β) (i : U32) :
    Wraps ⟨L, signed, pos, res⟩ c i (vecOp (fun a b cc => L.each (f a b cc)) c i) :=
  wraps_of (F := ⟨L, signed, pos, res⟩) (covers_each h) c i

/-- A handler of `VARITH` that saturates, by what it makes of two lanes. -/
theorem varith_saturates (L : LaneView w) {satfn : U64 → Lane w} (op : BitVec w → BitVec w → U64)
    (z : BitVec w → BitVec w → ℤ)
    (hsat : ∀ {x : U64} {z : ℤ}, x = BitVec.ofInt 64 z → Fits true 64 z → Clamps signed (satfn x) z)
    (hop : ∀ x y, op x y = BitVec.ofInt 64 (z x y)) (hfit : ∀ x y, Fits true 64 (z x y))
    (c : Cpu β) (i : U32) :
    Saturates ⟨L, signed, pos, fun a b _ k => z (L.get a k) (L.get b k)⟩ c i
      (VARITH L (fun a b k => satfn (op (L.get a k) (L.get b k))) c i) :=
  each_saturates (fun _ _ _ _ => hsat (hop _ _) (hfit _ _)) c i

/-- A handler of `VARITH` that wraps. -/
theorem varith_wraps (L : LaneView w) (op : BitVec w → BitVec w → BitVec w)
    (z : BitVec w → BitVec w → ℤ) (hop : ∀ x y, op x y = BitVec.ofInt w (z x y))
    (c : Cpu β) (i : U32) :
    Wraps ⟨L, signed, pos, fun a b _ k => z (L.get a k) (L.get b k)⟩ c i
      (VARITH L (fun a b k => modulo (op (L.get a k) (L.get b k))) c i) :=
  each_wraps (fun _ _ _ _ => congrArg modulo (hop _ _)) c i

/-- A handler of `VPKS`. -/
theorem vpks_saturates {v : ℕ} {S : LaneView v} (hv : v ≤ 32) {src : Bool} {satfn : U64 → Lane w}
    {cast : BitVec v → U64} (hcount : L.count = 2 * S.count)
    (hsat : ∀ {x : U64} {z : ℤ}, x = BitVec.ofInt 64 z → Fits true 64 z → Clamps signed (satfn x) z)
    (hcast : ∀ x, cast x = BitVec.ofInt 64 (laneInt src x)) (c : Cpu β) (i : U32) :
    Saturates (packs S src L pos signed) c i (VPKS S L satfn cast c i) :=
  saturates_of (F := packs S src L pos signed) (covers_packed hcount (fun _ _ _ _ => rfl) fun x =>
    hsat (hcast x) (fits64 ((abs_word src hv x).trans (by norm_num)))) c i

/-- A pack that cuts its lanes. -/
theorem packs_wraps {v : ℕ} {S : LaneView v} (hw : w ≤ v) (hcount : L.count = 2 * S.count)
    (c : Cpu β) (i : U32) :
    Wraps (packs S false L pos false) c i
      (vecOp (fun a b _ => packed S L (fun x => modulo (x.setWidth w)) a b) c i) :=
  wraps_of (F := packs S false L pos false) (covers_packed (F := packs S false L pos false)
    (f := fun x => modulo (x.setWidth w)) hcount (fun _ _ _ _ => rfl) fun x => by
    have hcut : x.setWidth w = BitVec.ofInt w (laneInt false x) := by
      rw [← setWidth_ofInt hw, ofInt_laneInt]
    exact congrArg modulo hcut) c i

end Families

section Operations

variable (signed : Bool) {w : ℕ}

/-- A sum of two lanes does not wrap in an `i64`. -/
theorem sum_fits64 (hw : w ≤ 32) (x y : BitVec w) :
    Fits true 64 (laneInt signed x + laneInt signed y) := by
  have hx := abs_word signed hw x
  have hy := abs_word signed hw y
  exact fits64 ((abs_add_le _ _).trans (by linarith))

theorem difference_fits64 (hw : w ≤ 32) (x y : BitVec w) :
    Fits true 64 (laneInt signed x - laneInt signed y) := by
  have hx := abs_word signed hw x
  have hy := abs_word signed hw y
  exact fits64 ((abs_sub _ _).trans (by linarith))

/-- `i64` of an `int` sum or difference of bytes. -/
theorem i64_sum (x y : U8) :
    i64 (BitVec.ofInt 32 (laneInt signed x) + BitVec.ofInt 32 (laneInt signed y))
      = BitVec.ofInt 64 (laneInt signed x + laneInt signed y) := by
  have hx := abs_half signed (by decide) x
  have hy := abs_half signed (by decide) y
  rw [← BitVec.ofInt_add, i64_ofInt (fits32 ((abs_add_le _ _).trans_lt (by linarith)))]

theorem i64_difference (x y : U8) :
    i64 (BitVec.ofInt 32 (laneInt signed x) - BitVec.ofInt 32 (laneInt signed y))
      = BitVec.ofInt 64 (laneInt signed x - laneInt signed y) := by
  have hx := abs_half signed (by decide) x
  have hy := abs_half signed (by decide) y
  rw [← ofInt_sub, i64_ofInt (fits32 ((abs_sub _ _).trans_lt (by linarith)))]

end Operations

/-- Sums and differences formed in a wide word, with zeros above or with the sign. -/
theorem wide_uint_sum {w : ℕ} (x y : BitVec w) :
    uint64 x + uint64 y = BitVec.ofInt 64 (laneInt false x + laneInt false y) := by
  rw [uint64_eq, uint64_eq, BitVec.ofInt_add]

theorem wide_uint_difference {w : ℕ} (x y : BitVec w) :
    uint64 x - uint64 y = BitVec.ofInt 64 (laneInt false x - laneInt false y) := by
  rw [uint64_eq, uint64_eq, ofInt_sub]

theorem wide_sint_sum {w : ℕ} (x y : BitVec w) :
    sint64 x + sint64 y = BitVec.ofInt 64 (laneInt true x + laneInt true y) := by
  rw [sint64_eq, sint64_eq, BitVec.ofInt_add]

theorem wide_sint_difference {w : ℕ} (x y : BitVec w) :
    sint64 x - sint64 y = BitVec.ofInt 64 (laneInt true x - laneInt true y) := by
  rw [sint64_eq, sint64_eq, ofInt_sub]

/-- Cut to the lane, a wide sum is the residue of the exact one. -/
theorem cut_sum {w : ℕ} (hw : w ≤ 32) (x y : BitVec w) :
    (uint x + uint y).setWidth w = BitVec.ofInt w (laneInt false x + laneInt false y) := by
  rw [uint_eq, uint_eq, ← BitVec.ofInt_add, setWidth_ofInt hw]

theorem cut_difference {w : ℕ} (hw : w ≤ 32) (x y : BitVec w) :
    (uint x - uint y).setWidth w = BitVec.ofInt w (laneInt false x - laneInt false y) := by
  rw [uint_eq, uint_eq, ← ofInt_sub, setWidth_ofInt hw]

/-! ## The saturating instructions -/

section Saturating

variable (c : Cpu β) (i : U32)

/-- Sums and differences that saturate. -/
theorem vaddubs_saturates : Saturates (SatInsn.form .vaddubs) c i (h_vaddubs c i) :=
  varith_saturates bytes (fun x y => i64 (uint x + uint y)) _ satU8_clamps
    (fun x y => by rw [uint_eq, uint_eq]; exact i64_sum false x y) (sum_fits64 false (by decide)) c i

theorem vadduhs_saturates : Saturates (SatInsn.form .vadduhs) c i (h_vadduhs c i) :=
  varith_saturates halfwords (fun x y => uint64 x + uint64 y) _ satU16_clamps wide_uint_sum
    (sum_fits64 false (by decide)) c i

theorem vadduws_saturates : Saturates (SatInsn.form .vadduws) c i (h_vadduws c i) :=
  varith_saturates words (fun x y => uint64 x + uint64 y) _ satU32_clamps wide_uint_sum
    (sum_fits64 false (by decide)) c i

theorem vaddsbs_saturates : Saturates (SatInsn.form .vaddsbs) c i (h_vaddsbs c i) :=
  varith_saturates bytes (fun x y => i64 (sint x + sint y)) _ satS8_clamps
    (fun x y => by rw [sint_eq, sint_eq]; exact i64_sum true x y) (sum_fits64 true (by decide)) c i

theorem vaddshs_saturates : Saturates (SatInsn.form .vaddshs) c i (h_vaddshs c i) :=
  varith_saturates halfwords (fun x y => sint64 x + sint64 y) _ satS16_clamps wide_sint_sum
    (sum_fits64 true (by decide)) c i

theorem vaddsws_saturates : Saturates (SatInsn.form .vaddsws) c i (h_vaddsws c i) :=
  varith_saturates words (fun x y => sint64 x + sint64 y) _ satS32_clamps wide_sint_sum
    (sum_fits64 true (by decide)) c i

theorem vsububs_saturates : Saturates (SatInsn.form .vsububs) c i (h_vsububs c i) :=
  varith_saturates bytes (fun x y => i64 (uint x - uint y)) _ satU8_clamps
    (fun x y => by rw [uint_eq, uint_eq]; exact i64_difference false x y) (difference_fits64 false (by decide)) c i

theorem vsubuhs_saturates : Saturates (SatInsn.form .vsubuhs) c i (h_vsubuhs c i) :=
  varith_saturates halfwords (fun x y => uint64 x - uint64 y) _ satU16_clamps wide_uint_difference
    (difference_fits64 false (by decide)) c i

theorem vsubuws_saturates : Saturates (SatInsn.form .vsubuws) c i (h_vsubuws c i) :=
  varith_saturates words (fun x y => uint64 x - uint64 y) _ satU32_clamps wide_uint_difference
    (difference_fits64 false (by decide)) c i

theorem vsubsbs_saturates : Saturates (SatInsn.form .vsubsbs) c i (h_vsubsbs c i) :=
  varith_saturates bytes (fun x y => i64 (sint x - sint y)) _ satS8_clamps
    (fun x y => by rw [sint_eq, sint_eq]; exact i64_difference true x y) (difference_fits64 true (by decide)) c i

theorem vsubshs_saturates : Saturates (SatInsn.form .vsubshs) c i (h_vsubshs c i) :=
  varith_saturates halfwords (fun x y => sint64 x - sint64 y) _ satS16_clamps wide_sint_difference
    (difference_fits64 true (by decide)) c i

theorem vsubsws_saturates : Saturates (SatInsn.form .vsubsws) c i (h_vsubsws c i) :=
  varith_saturates words (fun x y => sint64 x - sint64 y) _ satS32_clamps wide_sint_difference
    (difference_fits64 true (by decide)) c i

/-- Packs that saturate. -/
theorem vpkuhus_saturates : Saturates (SatInsn.form .vpkuhus) c i (h_vpkuhus c i) :=
  vpks_saturates (by decide) rfl satU8_clamps uint64_eq c i

theorem vpkshus_saturates : Saturates (SatInsn.form .vpkshus) c i (h_vpkshus c i) :=
  vpks_saturates (by decide) rfl satU8_clamps sint64_eq c i

theorem vpkshss_saturates : Saturates (SatInsn.form .vpkshss) c i (h_vpkshss c i) :=
  vpks_saturates (by decide) rfl satS8_clamps sint64_eq c i

theorem vpkuwus_saturates : Saturates (SatInsn.form .vpkuwus) c i (h_vpkuwus c i) :=
  vpks_saturates (by decide) rfl satU16_clamps uint64_eq c i

theorem vpkswus_saturates : Saturates (SatInsn.form .vpkswus) c i (h_vpkswus c i) :=
  vpks_saturates (by decide) rfl satU16_clamps sint64_eq c i

theorem vpkswss_saturates : Saturates (SatInsn.form .vpkswss) c i (h_vpkswss c i) :=
  vpks_saturates (by decide) rfl satS16_clamps sint64_eq c i

/-- `>> 15` of an `int` that has not wrapped is the floor of the fraction. -/
theorem sshiftRight_ofInt {z : ℤ} (h : Fits true 32 z) :
    (BitVec.ofInt 32 z).sshiftRight 15 = BitVec.ofInt 32 (z / 2 ^ 15) := by
  apply BitVec.eq_of_toInt_eq
  have hdiv : Fits true 32 (z / 2 ^ 15) := by
    obtain ⟨hlo, hhi⟩ := h
    change -2 ^ 31 ≤ z at hlo
    change z ≤ 2 ^ 31 - 1 at hhi
    change -2 ^ 31 ≤ z / 2 ^ 15 ∧ z / 2 ^ 15 ≤ 2 ^ 31 - 1
    omega
  rw [BitVec.toInt_sshiftRight, toInt_ofInt (by decide) h, toInt_ofInt (by decide) hdiv,
    Int.shiftRight_eq_div_pow]
  rfl

/-- The rounded fraction product of signed halfwords and a third. -/
theorem high_product (round : ℤ) (hround : 0 ≤ round ∧ round ≤ 2 ^ 14) (x y z : U16) :
    i64 ((BitVec.ofInt 32 (laneInt true x * laneInt true y + round)).sshiftRight 15 + sint z)
        = BitVec.ofInt 64 ((laneInt true x * laneInt true y + round) / 2 ^ 15 + laneInt true z)
      ∧ Fits true 64 ((laneInt true x * laneInt true y + round) / 2 ^ 15 + laneInt true z) := by
  have hxy := abs_product (abs_signedHalf (by decide) x) (abs_signedHalf (by decide) y)
  have hz := abs_signedHalf (by decide) z
  rw [abs_le] at hxy hz
  have hprod : |laneInt true x * laneInt true y + round| < 2 ^ 31 := by
    rw [abs_lt]
    constructor <;> linarith
  have hsum : |(laneInt true x * laneInt true y + round) / 2 ^ 15 + laneInt true z| < 2 ^ 31 := by
    rw [abs_lt]
    generalize laneInt true x * laneInt true y = p at hxy ⊢
    omega
  refine ⟨?_, fits64 (hsum.le.trans (by norm_num))⟩
  rw [sshiftRight_ofInt (fits32 hprod), sint_eq, ← BitVec.ofInt_add, i64_ofInt (fits32 hsum)]

/-- The fraction products; every halfword times every other fits once the fraction is taken. -/
theorem vmhaddshs_saturates : Saturates (SatInsn.form .vmhaddshs) c i (h_vmhaddshs c i) := by
  refine each_saturates (fun a b cc k => ?_) c i
  obtain ⟨hword, hfit⟩ := high_product 0 (by norm_num) (gh a k) (gh b k) (gh cc k)
  have hprod : sint (gh a k) * sint (gh b k)
      = BitVec.ofInt 32 (laneInt true (gh a k) * laneInt true (gh b k) + 0) := by
    rw [add_zero, BitVec.ofInt_mul]
    rfl
  rw [← hprod] at hword
  exact satS16_clamps hword hfit

theorem vmhraddshs_saturates : Saturates (SatInsn.form .vmhraddshs) c i (h_vmhraddshs c i) := by
  refine each_saturates (fun a b cc k => ?_) c i
  obtain ⟨hword, hfit⟩ := high_product 0x4000 (by norm_num) (gh a k) (gh b k) (gh cc k)
  have hprod : sint (gh a k) * sint (gh b k) + 0x4000#32
      = BitVec.ofInt 32 (laneInt true (gh a k) * laneInt true (gh b k) + 0x4000) := by
    rw [BitVec.ofInt_add, BitVec.ofInt_mul]
    rfl
  rw [← hprod] at hword
  exact satS16_clamps hword hfit

/-- A word and its parts, none of which is wide. -/
theorem parts_fit {z : ℤ} {parts : ℕ} {y : ℕ → ℤ} (hz : |z| ≤ 2 ^ 32) (hy : ∀ j < parts, |y j| ≤ 2 ^ 32)
    (hparts : parts ≤ 4) : Fits true 64 (z + ∑ j ∈ Finset.range parts, y j) := by
  have hsum := abs_sum_le hy
  have hfour : (parts : ℤ) * 2 ^ 32 ≤ 4 * 2 ^ 32 := by
    apply mul_le_mul_of_nonneg_right _ (by norm_num)
    exact_mod_cast hparts
  exact fits64 ((abs_add_le _ _).trans (by linarith))

/-- A word and two products below it: formed in an `i64`, the sum fits. -/
theorem vmsumuhs_saturates : Saturates (SatInsn.form .vmsumuhs) c i (h_vmsumuhs c i) := by
  refine each_saturates (fun a b cc k => satU32_clamps (sumFrom_ofInt (uint64_eq _) fun j _ => ?_)
    (parts_fit (abs_word false (by decide) _) (fun j _ => ?_) (by decide))) c i
  · rw [uint64_eq, uint64_eq, ← BitVec.ofInt_mul]
    rfl
  · exact abs_product (abs_half false (by decide) _) (abs_half false (by decide) _)

theorem vmsumshs_saturates : Saturates (SatInsn.form .vmsumshs) c i (h_vmsumshs c i) := by
  have hprod : ∀ x y : U16, |laneInt true x * laneInt true y| ≤ 2 ^ 15 * 2 ^ 15 := fun x y =>
    abs_product (abs_signedHalf (by decide) x) (abs_signedHalf (by decide) y)
  refine each_saturates (fun a b cc k => satS32_clamps (sumFrom_ofInt (sint64_eq _) fun j _ => ?_)
    (parts_fit (abs_word true (by decide) _) (fun j _ => ?_) (by decide))) c i
  · rw [sint_eq, sint_eq, ← BitVec.ofInt_mul, i64_ofInt (fits32 ((hprod _ _).trans_lt (by norm_num)))]
    rfl
  · exact (hprod _ _).trans (by norm_num)

theorem vsum4sbs_saturates : Saturates (SatInsn.form .vsum4sbs) c i (h_vsum4sbs c i) := by
  refine each_saturates (fun a b cc k => satS32_clamps (sumFrom_ofInt (sint64_eq _) fun j _ => ?_)
    (parts_fit (abs_word true (by decide) _) (fun j _ => abs_word true (by decide) _) (by decide))) c i
  exact i64_ofInt (fits32 ((abs_half true (by decide) _).trans_lt (by norm_num)))

theorem vsum4shs_saturates : Saturates (SatInsn.form .vsum4shs) c i (h_vsum4shs c i) := by
  refine each_saturates (fun a b cc k => satS32_clamps (sumFrom_ofInt (sint64_eq _) fun j _ => ?_)
    (parts_fit (abs_word true (by decide) _) (fun j _ => abs_word true (by decide) _) (by decide))) c i
  exact i64_ofInt (fits32 ((abs_half true (by decide) _).trans_lt (by norm_num)))

theorem vsum4ubs_saturates : Saturates (SatInsn.form .vsum4ubs) c i (h_vsum4ubs c i) :=
  each_saturates (fun _ _ _ _ => satU32_clamps (sumFrom_ofInt (uint64_eq _) fun _ _ => uint64_eq _)
    (parts_fit (abs_word false (by decide) _) (fun _ _ => abs_word false (by decide) _) (by decide))) c i

/-- Only the last word is a sum; the others are zero. -/
theorem vsumsws_saturates : Saturates (SatInsn.form .vsumsws) c i (h_vsumsws c i) := by
  refine @saturates_of β sumOfAll (fun a b _ =>
    [(3, satS32 (sumFrom (sint64 (gw b 3)) 4 fun k => sint64 (gw a k)))]) ⟨?_, ?_, ?_⟩ c i
  · intro a b cc x hx
    rw [List.mem_singleton.mp hx]
    exact (by decide : 3 < 4)
  · intro a b cc x hx
    rw [List.mem_singleton.mp hx]
    exact satS32_clamps (sumFrom_ofInt (sint64_eq _) fun j _ => sint64_eq _)
      (parts_fit (abs_word true (by decide) _) (fun j _ => abs_word true (by decide) _) (by decide))
  · intro a b cc k _ hmem
    exact if_neg fun h : k = 3 => hmem (h ▸ List.mem_cons_self)

theorem vsum2sws_saturates : Saturates (SatInsn.form .vsum2sws) c i (h_vsum2sws c i) := by
  refine @saturates_of β sumsOfPairs (fun a b _ => (List.range 2).map fun k => (2 * k + 1,
    satS32 (sint64 (gw b (2 * k + 1)) + sint64 (gw a (2 * k)) + sint64 (gw a (2 * k + 1)))))
    ⟨?_, ?_, ?_⟩ c i
  · intro a b cc x hx
    obtain ⟨k, hk, rfl⟩ := List.mem_map.mp hx
    have hk := List.mem_range.mp hk
    change 2 * k + 1 < 4
    omega
  · intro a b cc x hx
    obtain ⟨k, -, rfl⟩ := List.mem_map.mp hx
    have hb := abs_word true (by decide) (gw b (2 * k + 1))
    have ha := abs_word true (by decide) (gw a (2 * k))
    have ha' := abs_word true (by decide) (gw a (2 * k + 1))
    have hres : sumsOfPairs.result a b cc (2 * k + 1)
        = laneInt true (gw b (2 * k + 1)) + laneInt true (gw a (2 * k)) + laneInt true (gw a (2 * k + 1)) :=
      if_pos (by omega)
    dsimp only
    rw [hres]
    refine satS32_clamps ?_ (fits64 ((abs_add_three _ _ _).trans (by linarith)))
    rw [sint64_eq, sint64_eq, sint64_eq, BitVec.ofInt_add, BitVec.ofInt_add]
  · intro a b cc k hk hmem
    refine if_neg fun hodd => hmem ?_
    rw [List.map_map]
    refine List.mem_map.mpr ⟨k / 2, List.mem_range.mpr ?_, ?_⟩
    · change k < 4 at hk
      omega
    · change 2 * (k / 2) + 1 = k
      omega

end Saturating

/-! ## The modulo instructions -/

section Modulo

variable (c : Cpu β) (i : U32)

/-- Sums and differences that wrap. -/
theorem vaddubm_wraps : Wraps (ModInsn.form .vaddubm) c i (h_vaddubm c i) :=
  varith_wraps bytes (fun x y => (uint x + uint y).setWidth 8) _ (cut_sum (by decide)) c i

theorem vadduhm_wraps : Wraps (ModInsn.form .vadduhm) c i (h_vadduhm c i) :=
  varith_wraps halfwords (fun x y => (uint x + uint y).setWidth 16) _ (cut_sum (by decide)) c i

theorem vadduwm_wraps : Wraps (ModInsn.form .vadduwm) c i (h_vadduwm c i) :=
  varith_wraps words (fun x y => x + y) (fun x y => laneInt false x + laneInt false y)
    (fun x y => by rw [BitVec.ofInt_add, ofInt_laneInt, ofInt_laneInt]) c i

theorem vsububm_wraps : Wraps (ModInsn.form .vsububm) c i (h_vsububm c i) :=
  varith_wraps bytes (fun x y => (uint x - uint y).setWidth 8) _ (cut_difference (by decide)) c i

theorem vsubuhm_wraps : Wraps (ModInsn.form .vsubuhm) c i (h_vsubuhm c i) :=
  varith_wraps halfwords (fun x y => (uint x - uint y).setWidth 16) _ (cut_difference (by decide)) c i

theorem vsubuwm_wraps : Wraps (ModInsn.form .vsubuwm) c i (h_vsubuwm c i) :=
  varith_wraps words (fun x y => x - y) (fun x y => laneInt false x - laneInt false y)
    (fun x y => by rw [ofInt_sub, ofInt_laneInt, ofInt_laneInt]) c i

/-- Products that wrap. -/
theorem vmladduhm_wraps : Wraps (ModInsn.form .vmladduhm) c i (h_vmladduhm c i) := by
  refine each_wraps (fun a b cc k => congrArg modulo ?_) c i
  rw [uint_eq, uint_eq, uint_eq, ← BitVec.ofInt_mul, ← BitVec.ofInt_add, setWidth_ofInt (by decide)]
  rfl

theorem vmsumubm_wraps : Wraps (ModInsn.form .vmsumubm) c i (h_vmsumubm c i) := by
  refine each_wraps (fun a b cc k => congrArg modulo (sumFrom_ofInt (ofInt_laneInt false _).symm
    fun j _ => ?_)) c i
  rw [uint_eq, uint_eq, ← BitVec.ofInt_mul]
  rfl

theorem vmsummbm_wraps : Wraps (ModInsn.form .vmsummbm) c i (h_vmsummbm c i) := by
  refine each_wraps (fun a b cc k => congrArg modulo (sumFrom_ofInt (ofInt_laneInt true _).symm
    fun j _ => ?_)) c i
  rw [sint_eq, uint_eq, ← BitVec.ofInt_mul]
  rfl

theorem vmsumuhm_wraps : Wraps (ModInsn.form .vmsumuhm) c i (h_vmsumuhm c i) := by
  refine each_wraps (fun a b cc k => congrArg modulo (sumFrom_ofInt (ofInt_laneInt false _).symm
    fun j _ => ?_)) c i
  rw [uint_eq, uint_eq, ← BitVec.ofInt_mul]
  rfl

theorem vmsumshm_wraps : Wraps (ModInsn.form .vmsumshm) c i (h_vmsumshm c i) := by
  refine each_wraps (fun a b cc k => congrArg modulo (sumFrom_ofInt (ofInt_laneInt true _).symm
    fun j _ => ?_)) c i
  rw [sint_eq, sint_eq, ← BitVec.ofInt_mul]
  rfl

theorem vpkuhum_wraps : Wraps (ModInsn.form .vpkuhum) c i (h_vpkuhum c i) :=
  packs_wraps (by decide) rfl c i

theorem vpkuwum_wraps : Wraps (ModInsn.form .vpkuwum) c i (h_vpkuwum c i) :=
  packs_wraps (by decide) rfl c i

end Modulo

/-- **Saturating and modulo arithmetic is exact**, for every instruction, every register contents,
a destination that is a source, and every VSCR. -/
theorem arithmetic_exact :
    (∀ (o : SatInsn) (c : Cpu β) (i : U32), Saturates o.form c i (o.handler c i))
      ∧ ∀ (o : ModInsn) (c : Cpu β) (i : U32), Wraps o.form c i (o.handler c i) := by
  constructor
  · intro o c i
    cases o with
    | vaddubs => exact vaddubs_saturates c i
    | vadduhs => exact vadduhs_saturates c i
    | vadduws => exact vadduws_saturates c i
    | vaddsbs => exact vaddsbs_saturates c i
    | vaddshs => exact vaddshs_saturates c i
    | vaddsws => exact vaddsws_saturates c i
    | vsububs => exact vsububs_saturates c i
    | vsubuhs => exact vsubuhs_saturates c i
    | vsubuws => exact vsubuws_saturates c i
    | vsubsbs => exact vsubsbs_saturates c i
    | vsubshs => exact vsubshs_saturates c i
    | vsubsws => exact vsubsws_saturates c i
    | vpkuhus => exact vpkuhus_saturates c i
    | vpkshus => exact vpkshus_saturates c i
    | vpkshss => exact vpkshss_saturates c i
    | vpkuwus => exact vpkuwus_saturates c i
    | vpkswus => exact vpkswus_saturates c i
    | vpkswss => exact vpkswss_saturates c i
    | vmhaddshs => exact vmhaddshs_saturates c i
    | vmhraddshs => exact vmhraddshs_saturates c i
    | vmsumuhs => exact vmsumuhs_saturates c i
    | vmsumshs => exact vmsumshs_saturates c i
    | vsumsws => exact vsumsws_saturates c i
    | vsum2sws => exact vsum2sws_saturates c i
    | vsum4sbs => exact vsum4sbs_saturates c i
    | vsum4shs => exact vsum4shs_saturates c i
    | vsum4ubs => exact vsum4ubs_saturates c i
  · intro o c i
    cases o with
    | vaddubm => exact vaddubm_wraps c i
    | vadduhm => exact vadduhm_wraps c i
    | vadduwm => exact vadduwm_wraps c i
    | vsububm => exact vsububm_wraps c i
    | vsubuhm => exact vsubuhm_wraps c i
    | vsubuwm => exact vsubuwm_wraps c i
    | vmladduhm => exact vmladduhm_wraps c i
    | vmsumubm => exact vmsumubm_wraps c i
    | vmsummbm => exact vmsummbm_wraps c i
    | vmsumuhm => exact vmsumuhm_wraps c i
    | vmsumshm => exact vmsumshm_wraps c i
    | vpkuhum => exact vpkuhum_wraps c i
    | vpkuwum => exact vpkuwum_wraps c i

end Vec

end OpenPowerMac
