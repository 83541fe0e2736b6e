/-
The vector unit's integer arithmetic: `core/src/altivec.cpp`.

Element 0 of a register is the byte at the lowest address of an aligned load. A
handler copies its operands, stores one lane after the other into a register of
its own, and only then writes the destination; a saturating store also reads and
writes VSCR. So a handler is kept here as the list of its stores in the order the
loop makes them, and what a store computes is a `Lane`.

`int` and `i64` are two's complement and wrap.
-/
import OpenPowerMac.LoadStore

set_option autoImplicit false

namespace OpenPowerMac

/-- `V128`: the bytes of a vector register, the most significant first. -/
abbrev V128 := BitVec 4 → U8

/-- `vNJ` and `vSAT`: the bits of VSCR. -/
def vNJ : U32 := 0x00010000#32
def vSAT : U32 := 0x00000001#32

namespace Vec

/-! ## Lanes -/

/-- `V128 v`. -/
def zero : V128 := fun _ => 0#8

/-- `gb8`, `gh` and `gw`: the lanes of a register. -/
def gb8 (v : V128) (i : ℕ) : U8 := v (BitVec.ofNat 4 i)

def gh (v : V128) (i : ℕ) : U16 := gb8 v (2 * i) ++ gb8 v (2 * i + 1)

def gw (v : V128) (i : ℕ) : U32 :=
  gb8 v (4 * i) ++ gb8 v (4 * i + 1) ++ gb8 v (4 * i + 2) ++ gb8 v (4 * i + 3)

/-- `pb8`, `ph` and `pw`. -/
def pb8 (v : V128) (i : ℕ) (x : U8) : V128 := Function.update v (BitVec.ofNat 4 i) x

def ph (v : V128) (i : ℕ) (x : U16) : V128 :=
  pb8 (pb8 v (2 * i) (x.extractLsb' 8 8)) (2 * i + 1) (x.extractLsb' 0 8)

def pw (v : V128) (i : ℕ) (x : U32) : V128 :=
  pb8 (pb8 (pb8 (pb8 v (4 * i) (x.extractLsb' 24 8)) (4 * i + 1) (x.extractLsb' 16 8))
    (4 * i + 2) (x.extractLsb' 8 8)) (4 * i + 3) (x.extractLsb' 0 8)

theorem gb8_pb8 (v : V128) {i j : ℕ} (x : U8) (hi : i < 16) (hj : j < 16) :
    gb8 (pb8 v i x) j = if j = i then x else gb8 v j := by
  unfold gb8 pb8
  rw [Function.update_apply]
  refine if_congr ⟨fun h => ?_, congrArg _⟩ rfl rfl
  have := congrArg BitVec.toNat h
  rw [BitVec.toNat_ofNat, BitVec.toNat_ofNat] at this
  omega

/-- A byte put at another place is not seen. -/
theorem gb8_pb8_ne (v : V128) {i j : ℕ} (x : U8) (hi : i < 16) (hj : j < 16) (h : j ≠ i) :
    gb8 (pb8 v i x) j = gb8 v j := by
  rw [gb8_pb8 v x hi hj, if_neg h]

theorem gb8_pb8_self (v : V128) {i : ℕ} (x : U8) (hi : i < 16) : gb8 (pb8 v i x) i = x := by
  rw [gb8_pb8 v x hi hi, if_pos rfl]

theorem halves (x : U16) : x.extractLsb' 8 8 ++ x.extractLsb' 0 8 = x := by
  rw [BitVec.extractLsb'_append_extractLsb'_eq_extractLsb' (show 8 = 0 + 8 from rfl)]
  exact BitVec.extractLsb'_eq_self

theorem quarters (x : U32) :
    x.extractLsb' 24 8 ++ x.extractLsb' 16 8 ++ x.extractLsb' 8 8 ++ x.extractLsb' 0 8 = x := by
  rw [BitVec.extractLsb'_append_extractLsb'_eq_extractLsb' (show 24 = 16 + 8 from rfl),
    BitVec.extractLsb'_append_extractLsb'_eq_extractLsb' (show 16 = 8 + 8 from rfl),
    BitVec.extractLsb'_append_extractLsb'_eq_extractLsb' (show 8 = 0 + 8 from rfl)]
  exact BitVec.extractLsb'_eq_self

theorem gh_ph (v : V128) {i j : ℕ} (x : U16) (hi : i < 8) (hj : j < 8) :
    gh (ph v i x) j = if j = i then x else gh v j := by
  unfold gh ph
  split
  next h =>
    subst h
    rw [gb8_pb8_ne _ _ (by omega) (by omega) (by omega), gb8_pb8_self _ _ (by omega),
      gb8_pb8_self _ _ (by omega), halves]
  next h =>
    rw [gb8_pb8_ne _ _ (by omega) (by omega) (by omega), gb8_pb8_ne _ _ (by omega) (by omega) (by omega),
      gb8_pb8_ne _ _ (by omega) (by omega) (by omega), gb8_pb8_ne _ _ (by omega) (by omega) (by omega)]

theorem gw_pw (v : V128) {i j : ℕ} (x : U32) (hi : i < 4) (hj : j < 4) :
    gw (pw v i x) j = if j = i then x else gw v j := by
  unfold gw pw
  split
  next h =>
    subst h
    simp only [gb8_pb8_self, gb8_pb8_ne, show 4 * j < 16 by omega, show 4 * j + 1 < 16 by omega,
      show 4 * j + 2 < 16 by omega, show 4 * j + 3 < 16 by omega, ne_eq, Nat.reduceEqDiff,
      Nat.left_eq_add, OfNat.ofNat_ne_zero, one_ne_zero, not_false_eq_true, Nat.add_left_cancel_iff,
      OfNat.one_ne_ofNat, quarters]
  next h =>
    simp (disch := omega) only [gb8_pb8_ne]

/-- A register seen as lanes of one width. -/
structure LaneView (w : ℕ) where
  count : ℕ
  get : V128 → ℕ → BitVec w
  put : V128 → ℕ → BitVec w → V128
  get_zero : ∀ k, get zero k = 0#w
  get_put : ∀ v i j x, i < count → j < count → get (put v i x) j = if j = i then x else get v j

def bytes : LaneView 8 where
  count := 16
  get := gb8
  put := pb8
  get_zero _ := rfl
  get_put v _ _ x := gb8_pb8 v x

def halfwords : LaneView 16 where
  count := 8
  get := gh
  put := ph
  get_zero _ := by unfold gh gb8 zero; decide
  get_put v _ _ x := gh_ph v x

def words : LaneView 32 where
  count := 4
  get := gw
  put := pw
  get_zero _ := by unfold gw gb8 zero; decide
  get_put v _ _ x := gw_pw v x

/-! ## Stores -/

/-- What a store computes: a lane, and VSCR after it. -/
abbrev Lane (w : ℕ) := U32 → BitVec w × U32

/-- A lane that leaves VSCR alone. -/
def modulo {w : ℕ} (x : BitVec w) : Lane w := fun vscr => (x, vscr)

/-- `sat`. -/
def sat (vscr : U32) : U32 := vscr ||| vSAT

/-- `satU8` and the others: an `i64` into the bounds of a lane. -/
def satTo (w : ℕ) (lo hi x : U64) : Lane w := fun vscr =>
  if x.slt lo then (lo.setWidth w, sat vscr)
  else if hi.slt x then (hi.setWidth w, sat vscr)
  else (x.setWidth w, vscr)

def satU8 (x : U64) : Lane 8 := satTo 8 0#64 255#64 x
def satS8 (x : U64) : Lane 8 := satTo 8 (-128#64) 127#64 x
def satU16 (x : U64) : Lane 16 := satTo 16 0#64 65535#64 x
def satS16 (x : U64) : Lane 16 := satTo 16 (-32768#64) 32767#64 x
def satU32 (x : U64) : Lane 32 := satTo 32 0#64 0xFFFFFFFF#64 x
def satS32 (x : U64) : Lane 32 := satTo 32 (-0x80000000#64) 0x7FFFFFFF#64 x

section Store

variable {w : ℕ} (L : LaneView w)

/-- The stores of a loop, in its order. -/
def LaneView.stores (xs : List (ℕ × Lane w)) (vscr : U32) : V128 × U32 :=
  xs.foldl (fun s x => (L.put s.1 x.1 (x.2 s.2).1, (x.2 s.2).2)) (zero, vscr)

/-- One store a turn, each into the lane of its turn. -/
def LaneView.each (f : ℕ → Lane w) : U32 → V128 × U32 :=
  L.stores ((List.range L.count).map fun k => (k, f k))

end Store

end Vec

namespace UserRegs

/-- `VA`, `VB` and `VC`. -/
def VA (u : UserRegs) (i : U32) : V128 := u.vr (f_ra i)
def VB (u : UserRegs) (i : U32) : V128 := u.vr (f_rb i)
def VC (u : UserRegs) (i : U32) : V128 := u.vr (f_rc_vec i)

end UserRegs

namespace Vec

variable {β : Type}

/-! ## The handlers -/

/-- A handler that reads vector registers and VSCR, and writes one register and VSCR. -/
def vecOp (f : V128 → V128 → V128 → U32 → V128 × U32) : Handler β := fun c i =>
  c.onUser fun u =>
    let v := f (u.VA i) (u.VB i) (u.VC i) u.vscr
    { u.setVr (f_rt i) v.1 with vscr := v.2 }

/-- `VARITH_B`, `VARITH_H` and `VARITH_W`. -/
def VARITH {w : ℕ} (L : LaneView w) (e : V128 → V128 → ℕ → Lane w) : Handler β :=
  vecOp fun a b _ => L.each (e a b)

/-- `static_cast<i64>` of an `int`. -/
def i64 (x : U32) : U64 := x.signExtend 64

/-- The promotion of a lane to `int`, without its sign and with it. -/
def uint {w : ℕ} (x : BitVec w) : U32 := x.setWidth 32
def sint {w : ℕ} (x : BitVec w) : U32 := x.signExtend 32

/-- `static_cast<i64>` of a lane, without its sign and with it. -/
def uint64 {w : ℕ} (x : BitVec w) : U64 := x.setWidth 64
def sint64 {w : ℕ} (x : BitVec w) : U64 := x.signExtend 64

def h_vaddubm : Handler β :=
  VARITH bytes fun a b k => modulo ((uint (gb8 a k) + uint (gb8 b k)).setWidth 8)
def h_vadduhm : Handler β :=
  VARITH halfwords fun a b k => modulo ((uint (gh a k) + uint (gh b k)).setWidth 16)
def h_vadduwm : Handler β := VARITH words fun a b k => modulo (gw a k + gw b k)
def h_vsububm : Handler β :=
  VARITH bytes fun a b k => modulo ((uint (gb8 a k) - uint (gb8 b k)).setWidth 8)
def h_vsubuhm : Handler β :=
  VARITH halfwords fun a b k => modulo ((uint (gh a k) - uint (gh b k)).setWidth 16)
def h_vsubuwm : Handler β := VARITH words fun a b k => modulo (gw a k - gw b k)

def h_vaddubs : Handler β :=
  VARITH bytes fun a b k => satU8 (i64 (uint (gb8 a k) + uint (gb8 b k)))
def h_vadduhs : Handler β :=
  VARITH halfwords fun a b k => satU16 (uint64 (gh a k) + uint64 (gh b k))
def h_vadduws : Handler β := VARITH words fun a b k => satU32 (uint64 (gw a k) + uint64 (gw b k))
def h_vaddsbs : Handler β :=
  VARITH bytes fun a b k => satS8 (i64 (sint (gb8 a k) + sint (gb8 b k)))
def h_vaddshs : Handler β :=
  VARITH halfwords fun a b k => satS16 (sint64 (gh a k) + sint64 (gh b k))
def h_vaddsws : Handler β := VARITH words fun a b k => satS32 (sint64 (gw a k) + sint64 (gw b k))
def h_vsububs : Handler β :=
  VARITH bytes fun a b k => satU8 (i64 (uint (gb8 a k) - uint (gb8 b k)))
def h_vsubuhs : Handler β :=
  VARITH halfwords fun a b k => satU16 (uint64 (gh a k) - uint64 (gh b k))
def h_vsubuws : Handler β := VARITH words fun a b k => satU32 (uint64 (gw a k) - uint64 (gw b k))
def h_vsubsbs : Handler β :=
  VARITH bytes fun a b k => satS8 (i64 (sint (gb8 a k) - sint (gb8 b k)))
def h_vsubshs : Handler β :=
  VARITH halfwords fun a b k => satS16 (sint64 (gh a k) - sint64 (gh b k))
def h_vsubsws : Handler β := VARITH words fun a b k => satS32 (sint64 (gw a k) - sint64 (gw b k))

/-! ## Multiplies -/

def h_vmladduhm : Handler β :=
  vecOp fun a b cc => halfwords.each fun k =>
    modulo ((uint (gh a k) * uint (gh b k) + uint (gh cc k)).setWidth 16)

def h_vmhaddshs : Handler β :=
  vecOp fun a b cc => halfwords.each fun k =>
    let prod := sint (gh a k) * sint (gh b k)
    let x := prod.sshiftRight 15 + sint (gh cc k)
    satS16 (i64 x)

def h_vmhraddshs : Handler β :=
  vecOp fun a b cc => halfwords.each fun k =>
    let prod := sint (gh a k) * sint (gh b k)
    let x := (prod + 0x4000#32).sshiftRight 15 + sint (gh cc k)
    satS16 (i64 x)

/-- `s += …` over the parts of a word. -/
def sumFrom {n : ℕ} (s : BitVec n) (parts : ℕ) (x : ℕ → BitVec n) : BitVec n :=
  (List.range parts).foldl (fun s j => s + x j) s

def h_vmsumubm : Handler β :=
  vecOp fun a b cc => words.each fun k =>
    modulo (sumFrom (gw cc k) 4 fun j => uint (gb8 a (4 * k + j)) * uint (gb8 b (4 * k + j)))

def h_vmsummbm : Handler β :=
  vecOp fun a b cc => words.each fun k =>
    modulo (sumFrom (gw cc k) 4 fun j => sint (gb8 a (4 * k + j)) * uint (gb8 b (4 * k + j)))

def h_vmsumuhm : Handler β :=
  vecOp fun a b cc => words.each fun k =>
    modulo (sumFrom (gw cc k) 2 fun j => uint (gh a (2 * k + j)) * uint (gh b (2 * k + j)))

def h_vmsumshm : Handler β :=
  vecOp fun a b cc => words.each fun k =>
    modulo (sumFrom (gw cc k) 2 fun j => sint (gh a (2 * k + j)) * sint (gh b (2 * k + j)))

def h_vmsumuhs : Handler β :=
  vecOp fun a b cc => words.each fun k =>
    satU32 (sumFrom (uint64 (gw cc k)) 2 fun j =>
      uint64 (gh a (2 * k + j)) * uint64 (gh b (2 * k + j)))

def h_vmsumshs : Handler β :=
  vecOp fun a b cc => words.each fun k =>
    satS32 (sumFrom (sint64 (gw cc k)) 2 fun j =>
      i64 (sint (gh a (2 * k + j)) * sint (gh b (2 * k + j))))

/-! ## Sums across -/

def h_vsumsws : Handler β :=
  vecOp fun a b _ =>
    words.stores [(3, satS32 (sumFrom (sint64 (gw b 3)) 4 fun k => sint64 (gw a k)))]

def h_vsum2sws : Handler β :=
  vecOp fun a b _ =>
    words.stores ((List.range 2).map fun k => (2 * k + 1,
      satS32 (sint64 (gw b (2 * k + 1)) + sint64 (gw a (2 * k)) + sint64 (gw a (2 * k + 1)))))

def h_vsum4sbs : Handler β :=
  vecOp fun a b _ => words.each fun k =>
    satS32 (sumFrom (sint64 (gw b k)) 4 fun j => i64 (sint (gb8 a (4 * k + j))))

def h_vsum4shs : Handler β :=
  vecOp fun a b _ => words.each fun k =>
    satS32 (sumFrom (sint64 (gw b k)) 2 fun j => i64 (sint (gh a (2 * k + j))))

def h_vsum4ubs : Handler β :=
  vecOp fun a b _ => words.each fun k =>
    satU32 (sumFrom (uint64 (gw b k)) 4 fun j => uint64 (gb8 a (4 * k + j)))

/-! ## Packs -/

/-- The stores of a pack: a lane of the first operand and one of the second a turn. -/
def packed {v w : ℕ} (S : LaneView v) (D : LaneView w) (f : BitVec v → Lane w) (a b : V128) :
    U32 → V128 × U32 :=
  D.stores ((List.range S.count).flatMap fun k => [(k, f (S.get a k)), (k + S.count, f (S.get b k))])

def h_vpkuhum : Handler β :=
  vecOp fun a b _ => packed halfwords bytes (fun x => modulo (x.setWidth 8)) a b

def h_vpkuwum : Handler β :=
  vecOp fun a b _ => packed words halfwords (fun x => modulo (x.setWidth 16)) a b

/-- `VPKS`. -/
def VPKS {v w : ℕ} (S : LaneView v) (D : LaneView w) (satfn : U64 → Lane w) (cast : BitVec v → U64) :
    Handler β :=
  vecOp fun a b _ => packed S D (fun x => satfn (cast x)) a b

def h_vpkuhus : Handler β := VPKS halfwords bytes satU8 uint64
def h_vpkshus : Handler β := VPKS halfwords bytes satU8 sint64
def h_vpkshss : Handler β := VPKS halfwords bytes satS8 sint64
def h_vpkuwus : Handler β := VPKS words halfwords satU16 uint64
def h_vpkswus : Handler β := VPKS words halfwords satU16 sint64
def h_vpkswss : Handler β := VPKS words halfwords satS16 sint64

end Vec

end OpenPowerMac
