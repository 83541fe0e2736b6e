/-
The integer arithmetic executors: the XO-form half of `core/src/exec_int.cpp`, with the D-forms
that carry, and the carry and overflow bits of `core/include/opm/cpu.hpp`.

Ten of the forms are one helper, `addc3`, on operands that may be complemented and with a carry
in. What it computes is the sum of three addends, its carry and its overflow.
-/
import OpenPowerMac.LoadStore

set_option autoImplicit false

namespace OpenPowerMac

namespace UserRegs

/-- `setCa`. -/
def setCa (u : UserRegs) (ca : Bool) : UserRegs :=
  { u with xer := if ca then u.xer ||| 0x20000000#32 else u.xer &&& ~~~0x20000000#32 }

/-- `ca`. -/
def ca (u : UserRegs) : Bool := decide (u.xer &&& 0x20000000#32 ≠ 0#32)

/-- `setOv`: OV, and SO with it, which nothing here clears. -/
def setOv (u : UserRegs) (ov : Bool) : UserRegs :=
  { u with xer := if ov then u.xer ||| 0xC0000000#32 else u.xer &&& ~~~0x40000000#32 }

/-- `setCr0`. -/
def setCr0 (u : UserRegs) (val : U32) : UserRegs :=
  let f := (if val.slt 0#32 then 8#32 else if (0#32).slt val then 4#32 else 2#32)
    ||| ((u.xer >>> 31) &&& 1#32)
  { u with cr := (u.cr &&& 0x0FFFFFFF#32) ||| (f <<< 28) }

/-- `recordRc`. -/
def recordRc (u : UserRegs) (insn val : U32) : UserRegs :=
  if f_rcbit insn then u.setCr0 val else u

/-- `addc3`: `a + b + cin`, with the carry out where the form keeps it. -/
def addc3 (u : UserRegs) (a b cin : U32) (setCa setOv : Bool) (insn : U32) : U32 × UserRegs :=
  let s : U64 := a.setWidth 64 + b.setWidth 64 + cin.setWidth 64
  let r : U32 := s.setWidth 32
  let u := if setCa then u.setCa (decide (s >>> 32 ≠ 0#64)) else u
  let u := if setOv ∧ f_oebit insn = true then
      u.setOv (decide (((a ^^^ r) &&& (b ^^^ r)) >>> 31 ≠ 0#32))
    else u
  (r, u)

/-- The carry as an addend. -/
def caWord (u : UserRegs) : U32 := if u.ca then 1#32 else 0#32

/-- A result to rD, recorded where the instruction says so. -/
def toRt (p : U32 × UserRegs) (i : U32) : UserRegs := (p.2.setGpr (f_rt i) p.1).recordRc i p.1

end UserRegs

namespace Cpu

variable {β : Type}

open UserRegs

/-- The forms that are one call of `addc3`: the operands and the carry in of the registers. -/
def addForm (a b cin : UserRegs → U32 → U32) (setCa : Bool) : Handler β := fun c i =>
  c.onUser fun u => toRt (u.addc3 (a u i) (b u i) (cin u i) setCa true i) i

/-- rA and rB, and rA complemented. -/
def rA (u : UserRegs) (i : U32) : U32 := u.gpr (f_ra i)
def rB (u : UserRegs) (i : U32) : U32 := u.gpr (f_rb i)
def notA (u : UserRegs) (i : U32) : U32 := ~~~u.gpr (f_ra i)

/-! ### The D-forms -/

def h_addic : Handler β := fun c i => c.onUser fun u =>
  let p := u.addc3 (rA u i) (sext16 (f_d i)) 0#32 true false i
  p.2.setGpr (f_rt i) p.1

def h_addicRc : Handler β := fun c i => c.onUser fun u =>
  let p := u.addc3 (rA u i) (sext16 (f_d i)) 0#32 true false i
  (p.2.setGpr (f_rt i) p.1).setCr0 p.1

def h_subfic : Handler β := fun c i => c.onUser fun u =>
  let p := u.addc3 (notA u i) (sext16 (f_d i)) 1#32 true false i
  p.2.setGpr (f_rt i) p.1

/-! ### The XO-forms -/

def h_add : Handler β := addForm rA rB (fun _ _ => 0#32) false
def h_addc : Handler β := addForm rA rB (fun _ _ => 0#32) true
def h_adde : Handler β := addForm rA rB (fun u _ => u.caWord) true
def h_addme : Handler β := addForm rA (fun _ _ => 0xFFFFFFFF#32) (fun u _ => u.caWord) true
def h_addze : Handler β := addForm rA (fun _ _ => 0#32) (fun u _ => u.caWord) true
def h_subf : Handler β := addForm notA rB (fun _ _ => 1#32) false
def h_subfc : Handler β := addForm notA rB (fun _ _ => 1#32) true
def h_subfe : Handler β := addForm notA rB (fun u _ => u.caWord) true
def h_subfme : Handler β := addForm notA (fun _ _ => 0xFFFFFFFF#32) (fun u _ => u.caWord) true
def h_subfze : Handler β := addForm notA (fun _ _ => 0#32) (fun u _ => u.caWord) true

/-- The forms that compute their overflow by themselves. -/
def ownForm (r : U32 → U32 → U32) (ov : U32 → U32 → Bool) : Handler β := fun c i =>
  c.onUser fun u =>
    let u' := if f_oebit i then u.setOv (ov (rA u i) (rB u i)) else u
    toRt (r (rA u i) (rB u i), u') i

def h_neg : Handler β := ownForm (fun a _ => 0#32 - a) fun a _ => decide (a = 0x80000000#32)

/-- The 64-bit product of two signed words. -/
def product (a b : U32) : U64 := a.signExtend 64 * b.signExtend 64

def h_mullw : Handler β := ownForm (fun a b => (product a b).setWidth 32) fun a b =>
  decide (product a b ≠ ((product a b).setWidth 32 : U32).signExtend 64)

/-- A signed quotient that there is none of. -/
def badQuotient (a b : U32) : Bool :=
  decide (b = 0#32 ∨ (a = 0x80000000#32 ∧ b = 0xFFFFFFFF#32))

def h_divw : Handler β :=
  ownForm (fun a b => if badQuotient a b then 0#32 else a.sdiv b) badQuotient

def h_divwu : Handler β :=
  ownForm (fun a b => if b = 0#32 then 0#32 else a / b) fun _ b => decide (b = 0#32)

end Cpu

end OpenPowerMac
