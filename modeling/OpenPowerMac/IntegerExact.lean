/-
The integer arithmetic executors against the arithmetic of ℤ.

Every add and subtract form is `addc3`, whose carry is the quotient of a sum of three numbers and
whose overflow bit says whether the signed sum has a word. Words carried through XER[CA] are then
the digits of a long addition.
-/
import OpenPowerMac.CarryChain
import OpenPowerMac.Integer
import Mathlib.Data.Nat.Digits.Lemmas

set_option autoImplicit false

namespace OpenPowerMac

/-! ## The bits of XER -/

theorem xer_bit {x m : U32} {k : ℕ} (hm : m = BitVec.twoPow 32 k) :
    x &&& m ≠ 0#32 ↔ x.getLsbD k = true := by
  subst hm
  exact and_twoPow_ne x k

namespace UserRegs

/-- XER[OV]. -/
def ov (u : UserRegs) : Bool := u.xer.getLsbD 30

/-- XER[SO]. -/
def so (u : UserRegs) : Bool := u.xer.getLsbD 31

theorem ca_eq (u : UserRegs) : u.ca = u.xer.getLsbD 29 := by
  rw [Bool.eq_iff_iff, ca, decide_eq_true_iff]
  exact xer_bit (by decide)

@[simp] theorem setCa_ca (u : UserRegs) (b : Bool) : (u.setCa b).ca = b := by
  rw [ca_eq]
  cases b <;> simp [setCa]

@[simp] theorem setCa_ov (u : UserRegs) (b : Bool) : (u.setCa b).ov = u.ov := by
  cases b <;> simp [setCa, ov]

@[simp] theorem setCa_so (u : UserRegs) (b : Bool) : (u.setCa b).so = u.so := by
  cases b <;> simp [setCa, so]

@[simp] theorem setOv_ca (u : UserRegs) (b : Bool) : (u.setOv b).ca = u.ca := by
  rw [ca_eq, ca_eq]
  cases b <;> simp [setOv]

@[simp] theorem setOv_ov (u : UserRegs) (b : Bool) : (u.setOv b).ov = b := by
  cases b <;> simp [setOv, ov]

@[simp] theorem setOv_so (u : UserRegs) (b : Bool) : (u.setOv b).so = (u.so || b) := by
  cases b <;> simp [setOv, so]

@[simp] theorem recordRc_xer (u : UserRegs) (i v : U32) : (u.recordRc i v).xer = u.xer := by
  unfold recordRc
  split <;> rfl

@[simp] theorem recordRc_gpr (u : UserRegs) (i v : U32) : (u.recordRc i v).gpr = u.gpr := by
  unfold recordRc
  split <;> rfl

@[simp] theorem toRt_xer (p : U32 × UserRegs) (i : U32) : (toRt p i).xer = p.2.xer := by
  simp [toRt, setGpr]

@[simp] theorem toRt_rt (p : U32 × UserRegs) (i : U32) : (toRt p i).gpr (f_rt i) = p.1 := by
  simp [toRt, setGpr]

/-! ## `addc3` -/

section addc3

variable (u : UserRegs) (a b cin : U32) (keep ovf : Bool) (i : U32)

/-- The sum the helper forms. -/
theorem sum_toNat (hcin : cin.toNat ≤ 1) :
    (a.setWidth 64 + b.setWidth 64 + cin.setWidth 64 : U64).toNat
      = a.toNat + b.toNat + cin.toNat := by
  have ha := a.isLt
  have hb := b.isLt
  simp only [BitVec.toNat_add, BitVec.toNat_setWidth]
  omega

/-- The word of `addc3`, whichever bits it keeps. -/
theorem addc3_word (hcin : cin.toNat ≤ 1) :
    (addc3 u a b cin keep ovf i).1.toNat = (a.toNat + b.toNat + cin.toNat) % 2 ^ 32 := by
  unfold addc3
  rw [BitVec.toNat_setWidth, sum_toNat a b cin hcin]

/-- The word it comes to and the carry out of it are the sum. -/
theorem addc3_sum (hcin : cin.toNat ≤ 1) :
    (addc3 u a b cin true ovf i).1.toNat
        + 2 ^ 32 * (addc3 u a b cin true ovf i).2.ca.toNat
      = a.toNat + b.toNat + cin.toNat := by
  have hs := sum_toNat a b cin hcin
  have ha := a.isLt
  have hb := b.isLt
  have hca : (addc3 u a b cin true ovf i).2.ca
      = decide ((a.setWidth 64 + b.setWidth 64 + cin.setWidth 64 : U64) >>> 32 ≠ 0#64) := by
    unfold addc3
    dsimp only
    split <;> simp
  have hq : ((a.setWidth 64 + b.setWidth 64 + cin.setWidth 64 : U64) >>> 32 ≠ 0#64)
      ↔ 2 ^ 32 ≤ a.toNat + b.toNat + cin.toNat := by
    rw [Ne, BitVec.toNat_inj.symm, BitVec.toNat_ushiftRight, Nat.shiftRight_eq_div_pow, hs,
      BitVec.toNat_zero]
    omega
  have hr := addc3_word u a b cin true ovf i hcin
  rw [hca, hr, decide_eq_decide.mpr hq]
  by_cases h : 2 ^ 32 ≤ a.toNat + b.toNat + cin.toNat
  · rw [decide_eq_true h, Bool.toNat_true]
    omega
  · rw [decide_eq_false h, Bool.toNat_false]
    omega

/-- A signed number of 32 bits. -/
def FitsSigned (z : ℤ) : Prop := -2 ^ 31 ≤ z ∧ z < 2 ^ 31

instance (z : ℤ) : Decidable (FitsSigned z) := inferInstanceAs (Decidable (_ ∧ _))

/-- The overflow formula: both addends have a sign that the sum has not. -/
theorem overflow_iff {r : U32} (hcin : cin.toNat ≤ 1)
    (hr : r.toNat = (a.toNat + b.toNat + cin.toNat) % 2 ^ 32) :
    ((a ^^^ r) &&& (b ^^^ r)) >>> 31 ≠ 0#32 ↔ ¬ FitsSigned (a.toInt + b.toInt + cin.toNat) := by
  have hmsb : ((a ^^^ r) &&& (b ^^^ r)) >>> 31 ≠ 0#32
      ↔ ((a ^^^ r) &&& (b ^^^ r)).msb = true := by
    rw [BitVec.msb_eq_decide, decide_eq_true_iff, Ne, BitVec.toNat_inj.symm,
      BitVec.toNat_ushiftRight, Nat.shiftRight_eq_div_pow, BitVec.toNat_zero]
    have := ((a ^^^ r) &&& (b ^^^ r)).isLt
    omega
  have ha := a.isLt
  have hb := b.isLt
  rw [hmsb, BitVec.msb_and, BitVec.msb_xor, BitVec.msb_xor]
  simp only [FitsSigned, BitVec.msb_eq_decide, BitVec.toInt_eq_toNat_cond, Bool.and_eq_true,
    bne_iff_ne, ne_eq, decide_eq_decide]
  omega

/-- The overflow bit of `addc3` says that the signed sum has no word, and SO keeps it. -/
theorem addc3_over (hcin : cin.toNat ≤ 1) (hoe : f_oebit i = true) :
    ((addc3 u a b cin keep true i).2.ov = true ↔ ¬ FitsSigned (a.toInt + b.toInt + cin.toNat))
      ∧ (addc3 u a b cin keep true i).2.so = (u.so || (addc3 u a b cin keep true i).2.ov) := by
  have hr := addc3_word u a b cin keep true i hcin
  have hov : (addc3 u a b cin keep true i).2
      = UserRegs.setOv (if keep then u.setCa (decide
          ((a.setWidth 64 + b.setWidth 64 + cin.setWidth 64 : U64) >>> 32 ≠ 0#64)) else u)
        (decide (((a ^^^ (addc3 u a b cin keep true i).1)
          &&& (b ^^^ (addc3 u a b cin keep true i).1)) >>> 31 ≠ 0#32)) := if_pos ⟨rfl, hoe⟩
  rw [hov, setOv_ov, setOv_so, decide_eq_true_iff]
  refine ⟨overflow_iff a b cin hcin hr, ?_⟩
  split
  · rw [setCa_so]
  · rfl

end addc3

end UserRegs

namespace Cpu

variable {β : Type}

open UserRegs

/-! ## Numbers of many words -/

/-- What an extended form adds to rA: rB, a word of ones or a zero. -/
inductive Extended
  | word | minusOne | zero

/-- `h_adde`, `h_addme` and `h_addze`. -/
def Extended.add : Extended → Handler β
  | word => h_adde
  | minusOne => h_addme
  | zero => h_addze

/-- `h_subfe`, `h_subfme` and `h_subfze`. -/
def Extended.subf : Extended → Handler β
  | word => h_subfe
  | minusOne => h_subfme
  | zero => h_subfze

/-- One instruction of a sequence: the processor it finds, the instruction, and what that takes
for rB. -/
structure WordStep (β : Type) where
  c : Cpu β
  insn : U32
  op : Extended

namespace WordStep

/-- The word of rA. -/
def x (s : WordStep β) : U32 := s.c.st.user.gpr (f_ra s.insn)

/-- The word of rB, or the one that stands for it. -/
def y (s : WordStep β) : U32 :=
  match s.op with
  | .word => s.c.st.user.gpr (f_rb s.insn)
  | .minusOne => 0xFFFFFFFF#32
  | .zero => 0#32

end WordStep

/-- A sequence of the form `f`: XER[CA] is carried from each instruction to the next, and what runs
between them does to the rest what it will. -/
inductive Carried (f : Extended → Handler β) : Bool → List (WordStep β) → Bool → Prop
  | nil (ca : Bool) : Carried f ca [] ca
  | cons {ca' : Bool} {s : WordStep β} {steps : List (WordStep β)} :
      Carried f (f s.op s.c s.insn).st.user.ca steps ca' →
        Carried f s.c.st.user.ca (s :: steps) ca'

/-- The words a sequence writes to its rD's, the least significant first. -/
def written (f : Extended → Handler β) (steps : List (WordStep β)) : List ℕ :=
  steps.map fun s => ((f s.op s.c s.insn).st.user.gpr (f_rt s.insn)).toNat

/-- The number in words, the least significant first. -/
abbrev number (ws : List ℕ) : ℕ := Nat.ofDigits (2 ^ 32) ws

/-- The number whose words are in the rA's. -/
def numberA (steps : List (WordStep β)) : ℕ := number (steps.map fun s => s.x.toNat)

/-- The number whose words are in the rB's. -/
def numberB (steps : List (WordStep β)) : ℕ := number (steps.map fun s => s.y.toNat)

/-- The carry as an addend. -/
theorem caWord_toNat (u : UserRegs) : u.caWord.toNat = u.ca.toNat := by
  unfold caWord
  cases u.ca <;> rfl

/-- What a form of `addc3` leaves in rD and in XER. -/
theorem addForm_user (a b cin : UserRegs → U32 → U32) (keep : Bool) (c : Cpu β) (i : U32) :
    ((addForm a b cin keep) c i).st.user
      = toRt (addc3 c.st.user (a c.st.user i) (b c.st.user i) (cin c.st.user i) keep true i) i :=
  rfl

theorem toRt_ca (p : U32 × UserRegs) (i : U32) : (toRt p i).ca = p.2.ca := by
  rw [ca_eq, ca_eq, toRt_xer]

/-- One form of `addc3` that carries. -/
theorem addForm_sum (a b cin : UserRegs → U32 → U32) {c : Cpu β} {i : U32}
    (hcin : (cin c.st.user i).toNat ≤ 1) :
    (((addForm a b cin true) c i).st.user.gpr (f_rt i)).toNat
        + 2 ^ 32 * ((addForm a b cin true) c i).st.user.ca.toNat
      = (a c.st.user i).toNat + (b c.st.user i).toNat + (cin c.st.user i).toNat := by
  rw [addForm_user, toRt_rt, toRt_ca]
  exact addc3_sum _ _ _ _ _ _ hcin

theorem not_toNat (x : U32) : (~~~x).toNat = 2 ^ 32 - 1 - x.toNat := BitVec.toNat_not

theorem caWord_le (u : UserRegs) : u.caWord.toNat ≤ 1 := by
  rw [caWord_toNat]
  exact Bool.toNat_le _

/-- One extended addition. -/
theorem add_sum (s : WordStep β) :
    ((s.op.add s.c s.insn).st.user.gpr (f_rt s.insn)).toNat
        + 2 ^ 32 * (s.op.add s.c s.insn).st.user.ca.toNat
      = s.x.toNat + s.y.toNat + s.c.st.user.ca.toNat := by
  rcases s with ⟨c, i, op⟩
  rw [← caWord_toNat c.st.user]
  cases op with
  | word => exact addForm_sum rA rB (fun u _ => u.caWord) (caWord_le _)
  | minusOne => exact addForm_sum rA (fun _ _ => 0xFFFFFFFF#32) (fun u _ => u.caWord) (caWord_le _)
  | zero => exact addForm_sum rA (fun _ _ => 0#32) (fun u _ => u.caWord) (caWord_le _)

/-- One extended subtraction. -/
theorem subf_sum (s : WordStep β) :
    ((s.op.subf s.c s.insn).st.user.gpr (f_rt s.insn)).toNat
        + 2 ^ 32 * (s.op.subf s.c s.insn).st.user.ca.toNat
      = (2 ^ 32 - 1 - s.x.toNat) + s.y.toNat + s.c.st.user.ca.toNat := by
  rcases s with ⟨c, i, op⟩
  rw [← caWord_toNat c.st.user, ← not_toNat]
  cases op with
  | word => exact addForm_sum notA rB (fun u _ => u.caWord) (caWord_le _)
  | minusOne =>
    exact addForm_sum notA (fun _ _ => 0xFFFFFFFF#32) (fun u _ => u.caWord) (caWord_le _)
  | zero => exact addForm_sum notA (fun _ _ => 0#32) (fun u _ => u.caWord) (caWord_le _)

/-- A sequence is a long addition, of whatever its instructions add. -/
theorem Carried.chain {f : Extended → Handler β} {x y : WordStep β → ℕ}
    (hstep : ∀ s : WordStep β,
      ((f s.op s.c s.insn).st.user.gpr (f_rt s.insn)).toNat
          + 2 ^ 32 * (f s.op s.c s.insn).st.user.ca.toNat = x s + y s + s.c.st.user.ca.toNat)
    {ca ca' : Bool} {steps : List (WordStep β)} (h : Carried f ca steps ca') :
    DigitStep.Chain (2 ^ 32) ca.toNat
      (steps.map fun s => ⟨x s, y s, ((f s.op s.c s.insn).st.user.gpr (f_rt s.insn)).toNat⟩)
      ca'.toNat := by
  induction h with
  | nil ca => exact .nil _
  | cons _ ih => exact .cons (hstep _) ih

/-- Words are the digits of a number below the modulus. -/
theorem number_lt {ws : List ℕ} (h : ∀ w ∈ ws, w < 2 ^ 32) : number ws < (2 ^ 32) ^ ws.length :=
  Nat.ofDigits_lt_base_pow_length (by norm_num) h

theorem written_word (f : Extended → Handler β) (steps : List (WordStep β)) :
    ∀ w ∈ written f steps, w < 2 ^ 32 := by
  intro w hw
  obtain ⟨s, -, rfl⟩ := List.mem_map.mp hw
  exact BitVec.isLt _

/-- The complement of a number of words. -/
theorem number_complement (steps : List (WordStep β)) :
    number (steps.map fun s => 2 ^ 32 - 1 - s.x.toNat) + numberA steps + 1
      = (2 ^ 32) ^ steps.length := by
  induction steps with
  | nil => rfl
  | cons s steps ih =>
    have hx := s.x.isLt
    simp only [numberA, number, List.map_cons, Nat.ofDigits_cons, List.length_cons,
      pow_succ] at ih ⊢
    rw [← ih]
    omega

theorem written_map (f : Extended → Handler β) (x y : WordStep β → ℕ) (steps : List (WordStep β)) :
    (steps.map fun s => DigitStep.mk (x s) (y s)
        ((f s.op s.c s.insn).st.user.gpr (f_rt s.insn)).toNat).map DigitStep.r = written f steps := by
  rw [List.map_map]
  rfl

/-- A sum or a difference of numbers of many words: the first instruction, which sets a carry of
its own, and those that take it on. -/
structure LongOp (β : Type) where
  c : Cpu β
  insn : U32
  rest : List (WordStep β)

namespace LongOp

/-- The instructions; the first has a word of rB. -/
def steps (o : LongOp β) : List (WordStep β) := ⟨o.c, o.insn, .word⟩ :: o.rest

/-- The number of words. -/
def n (o : LongOp β) : ℕ := o.rest.length + 1

/-- The processor after the first instruction. -/
def started (o : LongOp β) (first : Handler β) : Cpu β := first o.c o.insn

/-- The number that is written. -/
def result (o : LongOp β) (first : Handler β) (f : Extended → Handler β) : ℕ :=
  number (((o.started first).st.user.gpr (f_rt o.insn)).toNat :: written f o.rest)

theorem modulus (o : LongOp β) : (2 ^ 32) ^ (o.rest.length + 1) = 2 ^ (32 * o.n) :=
  (pow_mul 2 32 _).symm

/-- The number written and the carry out, of a long addition of the words `x` and `y`. -/
theorem exact (first : Handler β) (f : Extended → Handler β) {x y : WordStep β → ℕ}
    (o : LongOp β) (cin : ℕ) {ca' : Bool}
    (hfirst : ((o.started first).st.user.gpr (f_rt o.insn)).toNat
        + 2 ^ 32 * (o.started first).st.user.ca.toNat
      = x ⟨o.c, o.insn, .word⟩ + y ⟨o.c, o.insn, .word⟩ + cin)
    (hstep : ∀ s : WordStep β,
      ((f s.op s.c s.insn).st.user.gpr (f_rt s.insn)).toNat
          + 2 ^ 32 * (f s.op s.c s.insn).st.user.ca.toNat = x s + y s + s.c.st.user.ca.toNat)
    (h : Carried f (o.started first).st.user.ca o.rest ca') :
    o.result first f + 2 ^ (32 * o.n) * ca'.toNat
        = number (o.steps.map x) + number (o.steps.map y) + cin
      ∧ o.result first f < 2 ^ (32 * o.n) := by
  have hchain := DigitStep.Chain.cons (s := ⟨_, _, _⟩) hfirst (h.chain hstep)
  have hsum := hchain.sum
  rw [List.map_cons, List.map_cons, List.map_cons, written_map, List.map_map, List.map_map,
    List.length_cons, List.length_map] at hsum
  have hword := ((o.started first).st.user.gpr (f_rt o.insn)).isLt
  have hlt := number_lt (List.forall_mem_cons.mpr ⟨hword, written_word f o.rest⟩)
  rw [List.length_cons, written, List.length_map, modulus] at hlt
  refine ⟨?_, hlt⟩
  rw [← modulus]
  exact hsum

/-- The number in the rA's, and that in the rB's. -/
def numberA (o : LongOp β) : ℕ := Cpu.numberA o.steps
def numberB (o : LongOp β) : ℕ := Cpu.numberB o.steps

/-- `addc` and extended additions: the sum, and the carry out of it. -/
theorem add_exact (o : LongOp β) {ca' : Bool}
    (h : Carried Extended.add (o.started h_addc).st.user.ca o.rest ca') :
    o.result h_addc Extended.add = (o.numberA + o.numberB) % 2 ^ (32 * o.n)
      ∧ (ca' = true ↔ 2 ^ (32 * o.n) ≤ o.numberA + o.numberB) := by
  have hfirst := addForm_sum (c := o.c) (i := o.insn) rA rB (fun _ _ => 0#32) (by decide)
  obtain ⟨hsum, hlt⟩ := exact h_addc Extended.add (x := fun s => s.x.toNat)
    (y := fun s => s.y.toNat) o 0 hfirst add_sum h
  change _ = o.numberA + o.numberB + 0 at hsum
  generalize 2 ^ (32 * o.n) = M at *
  cases ca' with
  | false =>
    rw [Bool.toNat_false, mul_zero] at hsum
    rw [show o.numberA + o.numberB = o.result h_addc Extended.add by omega, Nat.mod_eq_of_lt hlt]
    exact ⟨rfl, by simp only [Bool.false_eq_true, false_iff]; omega⟩
  | true =>
    rw [Bool.toNat_true, mul_one] at hsum
    rw [show o.numberA + o.numberB = o.result h_addc Extended.add + M by omega, Nat.add_mod_right,
      Nat.mod_eq_of_lt hlt]
    exact ⟨rfl, by simp only [true_iff]; omega⟩

/-- `subfc` and extended subtractions: the difference, and a carry when nothing is borrowed. -/
theorem subf_exact (o : LongOp β) {ca' : Bool}
    (h : Carried Extended.subf (o.started h_subfc).st.user.ca o.rest ca') :
    (o.result h_subfc Extended.subf : ℤ)
        = ((o.numberB : ℤ) - o.numberA) % (2 : ℤ) ^ (32 * o.n)
      ∧ (ca' = true ↔ o.numberA ≤ o.numberB) := by
  have hfirst := addForm_sum (c := o.c) (i := o.insn) notA rB (fun _ _ => 1#32) (by decide)
  rw [show notA o.c.st.user o.insn = ~~~(⟨o.c, o.insn, .word⟩ : WordStep β).x from rfl,
    not_toNat] at hfirst
  obtain ⟨hsum, hlt⟩ := exact h_subfc Extended.subf (x := fun s => 2 ^ 32 - 1 - s.x.toNat)
    (y := fun s => s.y.toNat) o 1 hfirst subf_sum h
  have hcomp : number (o.steps.map fun s => 2 ^ 32 - 1 - s.x.toNat) + o.numberA + 1
      = 2 ^ (32 * o.n) := by
    rw [← modulus]
    exact number_complement o.steps
  change _ = _ + o.numberB + 1 at hsum
  have hM : ((2 ^ (32 * o.n) : ℕ) : ℤ) = (2 : ℤ) ^ (32 * o.n) := by push_cast; rfl
  rw [← hM]
  generalize 2 ^ (32 * o.n) = M at *
  cases ca' with
  | false =>
    rw [Bool.toNat_false, mul_zero] at hsum
    refine ⟨?_, by simp only [Bool.false_eq_true, false_iff]; omega⟩
    rw [show (o.numberB : ℤ) - o.numberA = (o.result h_subfc Extended.subf : ℤ) + (-1) * M by omega,
      Int.add_mul_emod_self_right, Int.emod_eq_of_lt (by omega) (by omega)]
  | true =>
    rw [Bool.toNat_true, mul_one] at hsum
    refine ⟨?_, by simp only [true_iff]; omega⟩
    rw [show (o.numberB : ℤ) - o.numberA = o.result h_subfc Extended.subf by omega,
      Int.emod_eq_of_lt (by omega) (by omega)]

end LongOp

/-! ## Overflow -/

/-- The forms that have an OE bit. -/
inductive OeForm
  | add | addc | adde | addme | addze | subf | subfc | subfe | subfme | subfze
  | neg | mullw | divw | divwu

namespace OeForm

def handler : OeForm → Handler β
  | add => h_add
  | addc => h_addc
  | adde => h_adde
  | addme => h_addme
  | addze => h_addze
  | subf => h_subf
  | subfc => h_subfc
  | subfe => h_subfe
  | subfme => h_subfme
  | subfze => h_subfze
  | neg => h_neg
  | mullw => h_mullw
  | divw => h_divw
  | divwu => h_divwu

/-- What a form is meant to compute, of the numbers in rA and rB and the carry in, where there is
such a number: `¬ rA` is the number `-rA - 1`. -/
def exact (F : OeForm) (u : UserRegs) (i : U32) : Option ℤ :=
  let a := (rA u i).toInt
  let b := (rB u i).toInt
  let ca : ℤ := u.ca.toNat
  match F with
  | add | addc => some (a + b)
  | adde => some (a + b + ca)
  | addme => some (a - 1 + ca)
  | addze => some (a + ca)
  | subf | subfc => some (b - a)
  | subfe => some (-a - 1 + b + ca)
  | subfme => some (-a - 1 - 1 + ca)
  | subfze => some (-a - 1 + ca)
  | neg => some (-a)
  | mullw => some (a * b)
  | divw => if b = 0 then none else some (a.tdiv b)
  | divwu =>
    if (rB u i).toNat = 0 then none else some ((rA u i).toNat / (rB u i).toNat : ℕ)

/-- The numbers a word of the form can hold: `divwu`'s are unsigned. -/
def Fits (F : OeForm) (z : ℤ) : Prop :=
  match F with
  | divwu => 0 ≤ z ∧ z < 2 ^ 32
  | _ => FitsSigned z

end OeForm

theorem not_toInt (x : U32) : (~~~x).toInt = -x.toInt - 1 := by
  have h := x.isLt
  rw [BitVec.toInt_eq_toNat_cond, BitVec.toInt_eq_toNat_cond, not_toNat]
  split <;> split <;> omega

/-- The bits that a form leaves, of the handler's `p` before its result is recorded. -/
theorem toRt_bits (p : U32 × UserRegs) (i : U32) :
    (toRt p i).ov = p.2.ov ∧ (toRt p i).so = p.2.so := by
  unfold UserRegs.ov UserRegs.so
  rw [toRt_xer]
  exact ⟨rfl, rfl⟩

/-- OV says that `z` is not a number of the form, and SO keeps what it says. -/
def Overflows (F : OeForm) (c : Cpu β) (i : U32) : Prop :=
  ((F.handler c i).st.user.ov = true ↔ ¬ ∃ z, F.exact c.st.user i = some z ∧ F.Fits z)
    ∧ (F.handler c i).st.user.so = (c.st.user.so || (F.handler c i).st.user.ov)

/-- A form of `addc3` overflows where the sum of its three addends does. -/
theorem addForm_over (a b cin : UserRegs → U32 → U32) (keep : Bool) (c : Cpu β) {i : U32}
    (hcin : (cin c.st.user i).toNat ≤ 1) (hoe : f_oebit i = true) {z : ℤ}
    (hz : (a c.st.user i).toInt + (b c.st.user i).toInt + (cin c.st.user i).toNat = z) :
    ((addForm a b cin keep c i).st.user.ov = true ↔ ¬ ∃ z', some z = some z' ∧ FitsSigned z')
      ∧ (addForm a b cin keep c i).st.user.so
        = (c.st.user.so || (addForm a b cin keep c i).st.user.ov) := by
  obtain ⟨hov, hso⟩ := addc3_over c.st.user (a c.st.user i) (b c.st.user i) (cin c.st.user i) keep i
    hcin hoe
  rw [addForm_user, (toRt_bits _ i).1, (toRt_bits _ i).2]
  refine ⟨?_, hso⟩
  rw [hov, hz]
  simp

/-- A form with an overflow of its own. -/
theorem ownForm_over (r : U32 → U32 → U32) (ov : U32 → U32 → Bool) (c : Cpu β) {i : U32}
    (hoe : f_oebit i = true) :
    (ownForm r ov c i).st.user.ov = ov (rA c.st.user i) (rB c.st.user i)
      ∧ (ownForm r ov c i).st.user.so = (c.st.user.so || (ownForm r ov c i).st.user.ov) := by
  have hform : (ownForm r ov c i).st.user
      = toRt (r (rA c.st.user i) (rB c.st.user i),
          if f_oebit i then c.st.user.setOv (ov (rA c.st.user i) (rB c.st.user i))
          else c.st.user) i := rfl
  rw [hform, (toRt_bits _ i).1, (toRt_bits _ i).2, if_pos hoe, setOv_ov, setOv_so]
  exact ⟨rfl, rfl⟩

theorem toInt_abs (a : U32) : |a.toInt| ≤ 2 ^ 31 := by
  have ha := BitVec.le_toInt a
  have ha' := BitVec.toInt_lt (x := a)
  rw [abs_le]
  omega

/-- The 64-bit product is the product. -/
theorem product_toInt (a b : U32) : (product a b).toInt = a.toInt * b.toInt := by
  have habs : |a.toInt * b.toInt| ≤ 2 ^ 31 * 2 ^ 31 := by
    rw [abs_mul]
    exact mul_le_mul (toInt_abs a) (toInt_abs b) (abs_nonneg _) (by norm_num)
  obtain ⟨hlow, hhigh⟩ := abs_le.mp habs
  rw [product, BitVec.toInt_mul, BitVec.toInt_signExtend_of_le (by decide),
    BitVec.toInt_signExtend_of_le (by decide)]
  exact Int.bmod_eq_of_le (by omega) (by omega)

/-- A 64-bit number is the sign extension of its low word when it has one. -/
theorem low_word_iff (p : U64) :
    p ≠ (p.setWidth 32 : U32).signExtend 64 ↔ ¬ FitsSigned p.toInt := by
  rw [Ne, ← BitVec.toInt_inj, BitVec.toInt_signExtend_of_le (by decide), BitVec.toInt_setWidth,
    FitsSigned, BitVec.toInt_eq_toNat_bmod, Int.bmod_def, Int.bmod_def]
  have := p.isLt
  omega

theorem neg_iff (a : U32) : a = 0x80000000#32 ↔ ¬ FitsSigned (-a.toInt) := by
  rw [← BitVec.toInt_inj, FitsSigned, show (0x80000000#32).toInt = -2 ^ 31 from rfl]
  have ha := BitVec.le_toInt a
  have ha' := BitVec.toInt_lt (x := a)
  omega

/-- A quotient of signed words is a word, unless there is none. -/
theorem quotient_iff (a b : U32) :
    badQuotient a b = true ↔
      ¬ ∃ z, (if b.toInt = 0 then none else some (a.toInt.tdiv b.toInt)) = some z
        ∧ FitsSigned z := by
  rw [badQuotient, decide_eq_true_iff]
  by_cases hb : b.toInt = 0
  · have hb0 : b = 0#32 := BitVec.toInt_inj.mp hb
    simp [hb0]
  · have hb0 : b ≠ 0#32 := fun h => hb (by rw [h]; rfl)
    simp only [if_neg hb, Option.some.injEq, exists_eq_left', hb0, false_or]
    by_cases hmin : a = 0x80000000#32 ∧ b = 0xFFFFFFFF#32
    · refine iff_of_true hmin ?_
      rw [hmin.1, hmin.2]
      decide
    · refine iff_of_false hmin (not_not.mpr ?_)
      rw [← BitVec.toInt_sdiv_of_ne_or_ne a b (not_and_or.mp hmin)]
      exact ⟨BitVec.le_toInt _, BitVec.toInt_lt⟩

theorem uquotient_iff (a b : U32) :
    b = 0#32 ↔
      ¬ ∃ z, (if b.toNat = 0 then none else some ((a.toNat / b.toNat : ℕ) : ℤ)) = some z
        ∧ 0 ≤ z ∧ z < 2 ^ 32 := by
  by_cases hb : b.toNat = 0
  · have hb0 : b = 0#32 := BitVec.toNat_inj.mp hb
    simp [hb0]
  · have hb0 : b ≠ 0#32 := fun h => hb (by rw [h]; rfl)
    have hq : a.toNat / b.toNat < 2 ^ 32 := (Nat.div_le_self _ _).trans_lt a.isLt
    simp only [if_neg hb, Option.some.injEq, exists_eq_left', hb0, false_iff, not_not]
    exact ⟨Int.natCast_nonneg _, by exact_mod_cast hq⟩

/-- **Overflow.** Every form says in OV whether its number is one that a word can hold. -/
theorem overflows (F : OeForm) (c : Cpu β) (i : U32) (hoe : f_oebit i = true) :
    Overflows F c i := by
  have hca := caWord_toNat c.st.user
  have hle := caWord_le c.st.user
  have hnot : (notA c.st.user i).toInt = -(rA c.st.user i).toInt - 1 := not_toInt _
  have hones : (0xFFFFFFFF#32).toInt = -1 := rfl
  have hone : (1#32).toNat = 1 := rfl
  -- the ten additive forms are one adder with their operands; the other four set OV themselves
  cases F with
  | add => exact addForm_over rA rB (fun _ _ => 0#32) false c (by decide) hoe (add_zero _)
  | addc => exact addForm_over rA rB (fun _ _ => 0#32) true c (by decide) hoe (add_zero _)
  | adde => exact addForm_over rA rB (fun u _ => u.caWord) true c hle hoe (by rw [hca])
  | addme =>
    exact addForm_over rA (fun _ _ => 0xFFFFFFFF#32) (fun u _ => u.caWord) true c hle hoe
      (by rw [hca]; rfl)
  | addze =>
    exact addForm_over rA (fun _ _ => 0#32) (fun u _ => u.caWord) true c hle hoe
      (by rw [hca, BitVec.toInt_zero, add_zero])
  | subf =>
    exact addForm_over notA rB (fun _ _ => 1#32) false c (by decide) hoe
      (by rw [hnot, hone]; push_cast; ring)
  | subfc =>
    exact addForm_over notA rB (fun _ _ => 1#32) true c (by decide) hoe
      (by rw [hnot, hone]; push_cast; ring)
  | subfe =>
    exact addForm_over notA rB (fun u _ => u.caWord) true c hle hoe (by rw [hca, hnot])
  | subfme =>
    exact addForm_over notA (fun _ _ => 0xFFFFFFFF#32) (fun u _ => u.caWord) true c hle hoe
      (by rw [hca, hnot, hones]; rfl)
  | subfze =>
    exact addForm_over notA (fun _ _ => 0#32) (fun u _ => u.caWord) true c hle hoe
      (by rw [hca, hnot, BitVec.toInt_zero, add_zero])
  | neg =>
    obtain ⟨hov, hso⟩ := ownForm_over (fun a _ => 0#32 - a)
      (fun a _ => decide (a = 0x80000000#32)) c hoe
    refine ⟨?_, hso⟩
    change (ownForm _ _ c i).st.user.ov = true ↔ _
    rw [hov, decide_eq_true_iff, neg_iff]
    exact not_congr (by simp [OeForm.exact, OeForm.Fits])
  | mullw =>
    obtain ⟨hov, hso⟩ := ownForm_over (fun a b => (product a b).setWidth 32)
      (fun a b => decide (product a b ≠ ((product a b).setWidth 32 : U32).signExtend 64)) c hoe
    refine ⟨?_, hso⟩
    change (ownForm _ _ c i).st.user.ov = true ↔ _
    rw [hov, decide_eq_true_iff, low_word_iff, product_toInt]
    exact not_congr (by simp [OeForm.exact, OeForm.Fits])
  | divw =>
    obtain ⟨hov, hso⟩ := ownForm_over (fun a b => if badQuotient a b then 0#32 else a.sdiv b)
      badQuotient c hoe
    refine ⟨?_, hso⟩
    change (ownForm _ _ c i).st.user.ov = true ↔ _
    rw [hov]
    exact quotient_iff _ _
  | divwu =>
    obtain ⟨hov, hso⟩ := ownForm_over (fun a b => if b = 0#32 then 0#32 else a / b)
      (fun _ b => decide (b = 0#32)) c hoe
    refine ⟨?_, hso⟩
    change (ownForm _ _ c i).st.user.ov = true ↔ _
    rw [hov, decide_eq_true_iff]
    exact uquotient_iff _ _

/-- **Integer arithmetic is exact.** A sum or a difference of numbers of any length, and the
overflow of every form that has one. -/
theorem integer_exact :
    (∀ (o : LongOp β) (ca' : Bool),
      Carried Extended.add (o.started h_addc).st.user.ca o.rest ca' →
        o.result h_addc Extended.add = (o.numberA + o.numberB) % 2 ^ (32 * o.n)
          ∧ (ca' = true ↔ 2 ^ (32 * o.n) ≤ o.numberA + o.numberB))
      ∧ (∀ (o : LongOp β) (ca' : Bool),
        Carried Extended.subf (o.started h_subfc).st.user.ca o.rest ca' →
          (o.result h_subfc Extended.subf : ℤ)
              = ((o.numberB : ℤ) - o.numberA) % (2 : ℤ) ^ (32 * o.n)
            ∧ (ca' = true ↔ o.numberA ≤ o.numberB))
      ∧ ∀ (F : OeForm) (c : Cpu β) (i : U32), f_oebit i = true →
        ((F.handler c i).st.user.ov = true ↔ ¬ ∃ z, F.exact c.st.user i = some z ∧ F.Fits z)
          ∧ (F.handler c i).st.user.so = (c.st.user.so || (F.handler c i).st.user.ov) :=
  ⟨fun o _ h => o.add_exact h, fun o _ h => o.subf_exact h, fun F c i hoe => overflows F c i hoe⟩

/-- Two words of ones in r3 and r4, and 1 in r5. -/
def onesAndOne : Cpu Unit :=
  { bus := (), st := { gpr := fun r => if r = 5#5 then 1#32 else 0xFFFFFFFF#32 } }

/-- `addc r6,r3,r5`, and `addzeo r7,r4` after it. -/
def carryOver : LongOp Unit :=
  { c := onesAndOne, insn := 0x7CC32814#32
    rest := [⟨h_addc onesAndOne 0x7CC32814#32, 0x7CE40594#32, .zero⟩] }

/-- The carry of 2^64 - 1 plus 1 goes through both words and out. -/
theorem integer_exact_carryOver :
    (carryOver.result h_addc Extended.add = (carryOver.numberA + carryOver.numberB) % 2 ^ 64
      ∧ (true = true ↔ 2 ^ 64 ≤ carryOver.numberA + carryOver.numberB))
      ∧ ((h_addze (h_addc onesAndOne 0x7CC32814#32) 0x7CE40594#32).st.user.ov = true ↔
        ¬ ∃ z, OeForm.addze.exact (h_addc onesAndOne 0x7CC32814#32).st.user 0x7CE40594#32 = some z
          ∧ OeForm.addze.Fits z) := by
  refine ⟨integer_exact.1 carryOver true ?_,
    (integer_exact.2.2 .addze (h_addc onesAndOne 0x7CC32814#32) 0x7CE40594#32 (by decide)).1⟩
  have hout : (Extended.zero.add (h_addc onesAndOne 0x7CC32814#32) 0x7CE40594#32).st.user.ca
      = true := by decide
  have hrun := Carried.cons (f := Extended.add)
    (s := ⟨h_addc onesAndOne 0x7CC32814#32, 0x7CE40594#32, .zero⟩) (.nil _)
  rw [hout] at hrun
  exact hrun

end Cpu

end OpenPowerMac
