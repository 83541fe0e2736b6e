/-
The machine words and the instruction fields: `core/include/opm/types.hpp` and
`core/include/opm/bits.hpp`.

A field of an instruction is typed by its own width here (`BitVec 5` for a
register number, `BitVec 16` for a displacement) where the source widens every
field back to `u32`. The width is the range check: an index built from a field
cannot leave the register file, so no later proof has to say so again.
-/
import Mathlib.Data.BitVec
import Mathlib.Data.Nat.Bitwise
import Mathlib.Tactic.Ring
import Mathlib.Tactic.Linarith

set_option autoImplicit false

namespace OpenPowerMac

abbrev U8 := BitVec 8
abbrev U16 := BitVec 16
abbrev U32 := BitVec 32
abbrev U64 := BitVec 64

/-! The side conditions of literals of the small index types, and of membership in a list of
bytes: named once, so that every module's terms hold the same ones. -/

instance neZeroTwo : NeZero 2 := ⟨Nat.succ_ne_zero 1⟩

instance neZeroThree : NeZero 3 := ⟨Nat.succ_ne_zero 2⟩

instance neZeroFour : NeZero 4 := ⟨Nat.succ_ne_zero 3⟩

instance neZeroEight : NeZero 8 := ⟨Nat.succ_ne_zero 7⟩

instance lawfulBEqU8 : LawfulBEq U8 := inferInstanceAs (LawfulBEq (BitVec 8))

/-- A flag stands where its bit does. -/
theorem and_twoPow_ne {w : ℕ} (x : BitVec w) (k : ℕ) :
    x &&& BitVec.twoPow w k ≠ 0#w ↔ x.getLsbD k = true := by
  rw [BitVec.and_twoPow]
  split
  case isTrue h =>
    have hk : k < w := BitVec.lt_of_getLsbD h
    refine iff_of_true ?_ h
    intro h0
    have hbit := congrArg (fun y => BitVec.getLsbD y k) h0
    simp [hk] at hbit
  case isFalse h => exact iff_of_false (fun h0 => h0 rfl) h

/-! ## Instruction fields

PowerPC numbers bits from the most significant one, so `ppcbits w hi lo` is the
field whose leftmost bit is `hi`. -/

/-- `ppcbits`: bits `hi .. lo` of the word, bit 0 being the most significant. -/
def ppcbits (w : U32) (hi lo : ℕ) : BitVec (lo - hi + 1) :=
  w.extractLsb' (31 - lo) (lo - hi + 1)

/-- `ppcbit`: one bit, in the same numbering. -/
def ppcbit (w : U32) (bit : ℕ) : Bool := w.getLsbD (31 - bit)

/-- `ppcmask`: the rotate instructions' mask, wrapping when `mb > me`. -/
def ppcmask (mb me : BitVec 5) : U32 :=
  let x : U32 := 0xFFFFFFFF#32 >>> mb.toNat
  let y : U32 := if me = 31#5 then 0xFFFFFFFF#32 else ~~~(0xFFFFFFFF#32 >>> (me.toNat + 1))
  if mb ≤ me then x &&& y else x ||| y

def sext16 (v : BitVec 16) : U32 := v.signExtend 32
def sext26 (v : BitVec 26) : U32 := v.signExtend 32
def sext14 (v : BitVec 14) : U32 := v.signExtend 32

def f_primary (i : U32) : BitVec 6 := ppcbits i 0 5
def f_rt (i : U32) : BitVec 5 := ppcbits i 6 10
def f_ra (i : U32) : BitVec 5 := ppcbits i 11 15
def f_rb (i : U32) : BitVec 5 := ppcbits i 16 20
def f_rc_vec (i : U32) : BitVec 5 := ppcbits i 21 25
def f_d (i : U32) : BitVec 16 := ppcbits i 16 31
def f_xo10 (i : U32) : BitVec 10 := ppcbits i 21 30
def f_xo5 (i : U32) : BitVec 5 := ppcbits i 26 30
def f_xo6v (i : U32) : BitVec 6 := ppcbits i 26 31
def f_xo11v (i : U32) : BitVec 11 := ppcbits i 21 31
def f_rcbit (i : U32) : Bool := ppcbit i 31
def f_oebit (i : U32) : Bool := ppcbit i 21
def f_lkbit (i : U32) : Bool := ppcbit i 31
def f_aabit (i : U32) : Bool := ppcbit i 30
def f_crfd (i : U32) : BitVec 3 := ppcbits i 6 8
def f_crfs (i : U32) : BitVec 3 := ppcbits i 11 13
def f_sh (i : U32) : BitVec 5 := ppcbits i 16 20
def f_mb (i : U32) : BitVec 5 := ppcbits i 21 25
def f_me (i : U32) : BitVec 5 := ppcbits i 26 30
/-- `f_spr`: the two halves of the SPR number are encoded swapped. -/
def f_spr (i : U32) : BitVec 10 := (ppcbits i 16 20 : BitVec 5) ++ (ppcbits i 11 15 : BitVec 5)
def f_crm (i : U32) : BitVec 8 := ppcbits i 12 19
def f_fm (i : U32) : BitVec 8 := ppcbits i 7 14
def f_nb (i : U32) : BitVec 5 := ppcbits i 16 20
def f_to (i : U32) : BitVec 5 := ppcbits i 6 10
def f_sr (i : U32) : BitVec 4 := ppcbits i 12 15

/-- `alignDsisr`: the DSISR image of the instruction that took an alignment
exception. -/
def alignDsisr (i : U32) : U32 :=
  let d := (((ppcbits i 6 10).setWidth 32 : U32) <<< 5) ||| (ppcbits i 11 15).setWidth 32
  if f_primary i = 31#6 then
    d ||| (((ppcbits i 29 30).setWidth 32 : U32) <<< 15)
      ||| (((ppcbits i 25 25).setWidth 32 : U32) <<< 14)
      ||| (((ppcbits i 21 24).setWidth 32 : U32) <<< 10)
  else
    d ||| (((ppcbits i 5 5).setWidth 32 : U32) <<< 14)
      ||| (((ppcbits i 1 4).setWidth 32 : U32) <<< 10)

/-- Big-endian assembly of a byte string, most significant byte first. -/
def ofBytesBE (bs : List U8) : U64 :=
  bs.foldl (fun v b => (v <<< 8) ||| b.setWidth 64) 0#64

/-- The byte of weight `8 * (len - 1 - i)` in a value of `len` bytes, the `i`-th
in guest order. -/
def byteBE (len i : ℕ) (v : U64) : U8 := (v >>> (8 * (len - 1 - i))).setWidth 8

end OpenPowerMac
