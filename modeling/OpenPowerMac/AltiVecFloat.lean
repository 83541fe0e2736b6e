/-
The vector unit's floating point: `core/src/altivec.cpp`.

A lane is a single as it stands; where it is computed with, it goes through the
software floating point as a double, always to nearest. With VSCR[NJ] a denormal
operand counts as a zero of its sign. `i32` and `i64` values are integers here:
none of them leaves its type.
-/
import OpenPowerMac.AltiVec
import OpenPowerMac.Fpu

set_option autoImplicit false

namespace OpenPowerMac

/-- `f_vrcbit`: the record bit of a vector compare. -/
def f_vrcbit (i : U32) : Bool := ppcbit i 21

namespace Vec

variable {β : Type}

/-! ## Lanes -/

def sglDenorm (w : U32) : Bool := w &&& 0x7F800000#32 == 0#32 && w &&& 0x007FFFFF#32 != 0#32

/-- `flushIn` and `flushOut`. -/
def flushIn (vscr w : U32) : U32 :=
  if vscr &&& vNJ != 0#32 && sglDenorm w then w &&& 0x80000000#32 else w

def flushOut (vscr w : U32) : U32 :=
  if vscr &&& vNJ != 0#32 && sglDenorm w then w &&& 0x80000000#32 else w

/-- `up` and `dn`. -/
def up (w : U32) : U64 := loadSingle w
def dn (d : U64) : U32 := storeSingle d

/-- `vecEnv`: to nearest, without traps. -/
def vecEnv : Sf.Env := { rn := 0#32, oe := false, ue := false, ni := false }

def sglNan (w : U32) : Bool := w &&& 0x7F800000#32 == 0x7F800000#32 && w &&& 0x007FFFFF#32 != 0#32

def sglQuiet (w : U32) : U32 := w ||| 0x00400000#32

/-! ## Order -/

/-- `sglGreater`: zeros are equal whatever their sign. -/
def sglGreater (x y : U32) : Bool :=
  let zx : Bool := x <<< 1 == 0#32
  let zy : Bool := y <<< 1 == 0#32
  if zx && zy then false
  else
    let sx : Bool := x >>> 31 != 0#32
    let sy : Bool := y >>> 31 != 0#32
    if zx then sy
    else if zy then !sx
    else if sx != sy then sy
    else
      let mx := x &&& 0x7FFFFFFF#32
      let my := y &&& 0x7FFFFFFF#32
      decide (mx > my) != sx

def sglEqual (x y : U32) : Bool := (x <<< 1 == 0#32 && y <<< 1 == 0#32) || x == y

/-- A lane of `VMINMAX`. -/
def minmax (cmp : U32 → U32 → Bool) (vscr a b : U32) : U32 :=
  let wa := flushIn vscr a
  let wb := flushIn vscr b
  if sglNan wa then sglQuiet wa
  else if sglNan wb then sglQuiet wb
  else if cmp wa wb then wa
  else wb

def maxfp : U32 → U32 → U32 → U32 := minmax fun wa wb => sglGreater wa wb
def minfp : U32 → U32 → U32 → U32 := minmax fun wa wb => sglGreater wb wa

/-- `VMINMAX`: the handler of a lane. -/
def VMINMAX (lane : U32 → U32 → U32 → U32) : Handler β :=
  vecOp fun a b _ vscr => words.each (fun k => modulo (lane vscr (gw a k) (gw b k))) vscr

def h_vmaxfp : Handler β := VMINMAX maxfp
def h_vminfp : Handler β := VMINMAX minfp

/-- `setCr6`. -/
def setCr6 (u : UserRegs) (i : U32) (allTrue allFalse : Bool) : UserRegs :=
  if f_vrcbit i then
    u.setCrField 6#3 ((if allTrue then 8#32 else 0#32) ||| (if allFalse then 2#32 else 0#32))
  else u

/-- A lane of `VFCMP`. -/
def holdsFp (test : U32 → U32 → Bool) (vscr a b : U32) : Bool :=
  let wa := flushIn vscr a
  let wb := flushIn vscr b
  !(sglNan wa || sglNan wb) && test wa wb

def eqfp : U32 → U32 → U32 → Bool := holdsFp fun wa wb => sglEqual wa wb
def gtfp : U32 → U32 → U32 → Bool := holdsFp fun wa wb => sglGreater wa wb
def gefp : U32 → U32 → U32 → Bool := holdsFp fun wa wb => sglEqual wa wb || sglGreater wa wb

/-- `VFCMP`: the handler of a lane. -/
def VFCMP (test : U32 → U32 → U32 → Bool) : Handler β := fun c i => c.onUser fun u =>
  let t k := test u.vscr (gw (u.VA i) k) (gw (u.VB i) k)
  let v := words.each (fun k => modulo (if t k then 0xFFFFFFFF#32 else 0#32)) u.vscr
  setCr6 (u.setVr (f_rt i) v.1) i ((List.range 4).all t) ((List.range 4).all fun k => !t k)

def h_vcmpeqfp : Handler β := VFCMP eqfp
def h_vcmpgtfp : Handler β := VFCMP gtfp
def h_vcmpgefp : Handler β := VFCMP gefp

/-! ## Conversions -/

/-- The double of an integer's magnitude in `m + 1` digits, with so many of them behind the
point. -/
def fixedBits (mag : U64) (m scale : ℕ) : U64 :=
  (BitVec.ofNat 64 (1023 + m - scale) <<< 52) ||| ((mag <<< (52 - m)) &&& 0x000FFFFFFFFFFFFF#64)

/-- A lane of `h_vcfux`. -/
def cfux (h : Cpu.Fast) (scale : ℕ) (w : U32) : U32 :=
  if w = 0#32 then 0#32
  else dn (Sf.rsp h.host h.off (fixedBits (w.setWidth 64) w.toNat.log2 scale) vecEnv).bits

/-- A lane of `h_vcfsx`. -/
def cfsx (h : Cpu.Fast) (scale : ℕ) (sw : U32) : U32 :=
  if sw = 0#32 then 0#32
  else
    let neg := sw.msb
    let mag := if neg then 0#32 - sw else sw
    let d := fixedBits (mag.setWidth 64) mag.toNat.log2 scale
    let d := if neg then d ||| 0x8000000000000000#64 else d
    dn (Sf.rsp h.host h.off d vecEnv).bits

/-- The scale of a conversion. -/
def uim (i : U32) : ℕ := (f_ra i).toNat

def h_vcfux (h : Cpu.Fast) : Handler β := fun c i =>
  vecOp (fun _ b _ => words.each fun k => modulo (cfux h (uim i) (gw b k))) c i

def h_vcfsx (h : Cpu.Fast) : Handler β := fun c i =>
  vecOp (fun _ b _ => words.each fun k => modulo (cfsx h (uim i) (gw b k))) c i

/-- The exponent and the digits of a double. -/
def bexp (d : U64) : ℕ := ((d >>> 52).setWidth 32 &&& 0x7FF#32).toNat

def digits (d : U64) : U64 :=
  (d &&& 0x000FFFFFFFFFFFFF#64) ||| (if bexp d ≠ 0 then 1#64 <<< 52 else 0#64)

/-- The magnitude in `ctx`, toward zero. -/
def ctxMag (d : U64) (scale : ℕ) : U64 :=
  let e := bexp d
  let frac := digits d
  let exp : ℤ := e - 1023 + scale
  if e = 0 ∧ frac = 0#64 then 0#64
  else if exp < 0 then 0#64
  else if 62 < exp then ~~~0#64
  else if 52 ≤ exp then frac <<< (exp - 52).toNat
  else frac >>> (52 - exp).toNat

/-- A lane of `ctx`. -/
def ctxLane (sgn : Bool) (scale : ℕ) (b : U32) : Lane 32 := fun vscr =>
  let w := flushIn vscr b
  if sglNan w then (0#32, vscr)
  else
    let d := up w
    let neg := d.msb
    let mag := ctxMag d scale
    if sgn then
      if !neg then
        if mag > 0x7FFFFFFF#64 then (0x7FFFFFFF#32, sat vscr) else (mag.setWidth 32, vscr)
      else
        if mag > 0x80000000#64 then (0x80000000#32, sat vscr) else (0#32 - mag.setWidth 32, vscr)
    else
      if neg then
        if mag ≠ 0#64 then (0#32, sat vscr) else (0#32, vscr)
      else
        if mag > 0xFFFFFFFF#64 then (0xFFFFFFFF#32, sat vscr) else (mag.setWidth 32, vscr)

def ctx (sgn : Bool) : Handler β := fun c i =>
  vecOp (fun _ b _ => words.each fun k => ctxLane sgn (uim i) (gw b k)) c i

def h_vctuxs : Handler β := ctx false
def h_vctsxs : Handler β := ctx true

/-! ## Integral rounds -/

/-- The integer part of a double's digits, the first digit behind it, and whether any other is
set. (The source sets the first digit for an exponent of -1 in an arm that none reaches.) -/
def splitDigits (d : U64) : U64 × Bool × Bool :=
  let frac := digits d
  let exp : ℤ := bexp d - 1023
  if exp < -1 then (0#64, false, frac != 0#64)
  else
    let fbits := (52 - exp).toNat
    let below := frac <<< (64 - fbits)
    (frac >>> fbits, below >>> 63 != 0#64, below <<< 1 != 0#64)

/-- Whether the magnitude goes up. -/
def roundsUp (rn : U32) (neg half rest odd : Bool) : Bool :=
  if rn = 0#32 then half && (rest || odd)
  else if rn = 1#32 then false
  else if rn = 2#32 then !neg && (half || rest)
  else if rn = 3#32 then neg && (half || rest)
  else false

/-- A lane of `vrfi`. -/
def rfi (rn vscr b : U32) : U32 :=
  let w := flushIn vscr b
  if sglNan w then sglQuiet w
  else
    let d := up w
    if 1023 + 23 ≤ bexp d then w
    else
      let neg := d.msb
      let (ip, half, rest) := splitDigits d
      let ip := ip + (if roundsUp rn neg half rest (ip &&& 1#64 != 0#64) then 1#64 else 0#64)
      if ip = 0#64 then w &&& 0x80000000#32
      else
        let rd := fixedBits ip ip.toNat.log2 0
        dn (if neg then rd ||| 0x8000000000000000#64 else rd)

def vrfi (rn : U32) : Handler β :=
  vecOp fun _ b _ vscr => words.each (fun k => modulo (rfi rn vscr (gw b k))) vscr

def h_vrfin : Handler β := vrfi 0#32
def h_vrfiz : Handler β := vrfi 1#32
def h_vrfip : Handler β := vrfi 2#32
def h_vrfim : Handler β := vrfi 3#32

end Vec

end OpenPowerMac
