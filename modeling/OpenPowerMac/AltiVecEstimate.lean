/-
The log and power estimates: `h_vlogefp` and `h_vexptefp` of `core/src/altivec.cpp`.

The exponent is exact and the fraction goes through a cubic in 30 binary places,
the same code with other coefficients. An `i64` is an integer here, as elsewhere,
but what could leave it is written out: an operation that would overflow, or a
shift by an amount outside 0 to 63, has no result (`inI64`, `amount`), and a handler
with such a lane has none either. That they always have one is `vecTry_fills` with
`logefp_defined` and `exptefp_defined`.
-/
import OpenPowerMac.AltiVecConvert

set_option autoImplicit false

namespace OpenPowerMac

namespace Vec

variable {β : Type}

/-! ## Defined operations -/

/-- An `i64` result, if it is one. -/
def inI64 (z : ℤ) : Option ℤ := if -2 ^ 63 ≤ z ∧ z < 2 ^ 63 then some z else none

/-- A shift amount, if it is one. -/
def amount (n : ℤ) : Option ℕ := if 0 ≤ n ∧ n < 64 then some n.toNat else none

/-- `>>` and `<<` of an `i64`. -/
def sar (z n : ℤ) : Option ℤ := (amount n).map fun k => z / 2 ^ k

def sal (z n : ℤ) : Option ℤ := (amount n).bind fun k => inI64 (z * 2 ^ k)

/-- `>>` and `<<` of a `u64`. -/
def shr (x : U64) (n : ℤ) : Option U64 := (amount n).map fun k => x >>> k

def shl (x : U64) (n : ℤ) : Option U64 := (amount n).map fun k => x <<< k

/-- `63 - std::countl_zero`. -/
def topBit (x : U64) : ℤ := if x = 0#64 then -1 else x.toNat.log2

/-! ## The estimates -/

/-- The cubic without its constant term. -/
def cubic (c1 c2 c3 t : ℤ) : Option ℤ := do
  let t2 ← sar (← inI64 (t * t)) 30
  let t3 ← sar (← inI64 (t2 * t)) 30
  let s ← inI64 ((← inI64 (c1 * t)) + (← inI64 (c2 * t2)))
  sar (← inI64 (s + (← inI64 (c3 * t3)))) 30

/-- The double of a magnitude in 30 binary places, times a power of two. -/
def packQ30 (mag : U64) (rexp : ℤ) : Option U64 := do
  let m := topBit mag
  let mant := (← shl mag (52 - m)) &&& 0x000FFFFFFFFFFFFF#64
  let de ← inI64 (rexp + (m - 30))
  return (← shl (BitVec.ofInt 64 (1023 + de)) 52) ||| mant

/-- `h_vlogefp` at a positive finite lane. -/
def logEstimate (h : Cpu.Fast) (w : U32) : Option U32 := do
  let d := up w
  let e : ℤ := bexp d - 1023
  let frac := d &&& 0x000FFFFFFFFFFFFF#64
  let t := (← shr frac 22).toInt
  let lf ← cubic 1549082004 (-623693658) 148656453 t
  let q ← inI64 ((← sal e 30) + lf)
  if q = 0 then return 0#32
  else
    let neg := decide (q < 0)
    let mag ← if neg then inI64 (-q) else some q
    let rd ← packQ30 (BitVec.ofInt 64 mag) 0
    let rd := if neg then rd ||| 0x8000000000000000#64 else rd
    return dn (Sf.rsp h.host h.off rd vecEnv).bits

/-- A lane of `h_vlogefp`. -/
def logefp (h : Cpu.Fast) (vscr b : U32) : Option U32 := do
  let w := flushIn vscr b
  let out ←
    if sglNan w then some (sglQuiet w)
    else if w <<< 1 = 0#32 then some 0xFF800000#32
    else if w >>> 31 ≠ 0#32 then some 0x7FC00000#32
    else if w = 0x7F800000#32 then some w
    else logEstimate h w
  return flushOut vscr out

/-- The argument of `h_vexptefp` in 30 binary places, cut toward zero. -/
def expArgument (d : U64) : Option ℤ :=
  let neg := d.msb
  let e := bexp d
  let exp : ℤ := e - 1023
  if e = 0 then some 0
  else if 8 < exp then do
    let s ← sal 200 30
    if neg then inI64 (-s) else some s
  else if exp < -31 then some 0
  else do
    let frac := (d &&& 0x000FFFFFFFFFFFFF#64) ||| (1#64 <<< 52)
    let mag ← if 0 ≤ exp then shr frac (52 - 30 - exp) else (shr frac (52 - 30)).bind (shr · (-exp))
    if neg then inI64 (-mag.toInt) else some mag.toInt

/-- `h_vexptefp` at a finite lane. -/
def expEstimate (h : Cpu.Fast) (w : U32) : Option U32 := do
  let q ← expArgument (up w)
  let ip ← sar q 30
  let t := q % 2 ^ 30
  let mf ← inI64 ((← sal 1 30) + (← cubic 744822652 258141149 71624073 t))
  let rexp ← inI64 (ip + 0)
  if rexp < -150 then return 0#32
  else if 128 < rexp then return 0x7F800000#32
  else
    let rd ← packQ30 (BitVec.ofInt 64 mf) rexp
    return dn (Sf.rsp h.host h.off rd vecEnv).bits

/-- A lane of `h_vexptefp`. -/
def exptefp (h : Cpu.Fast) (vscr b : U32) : Option U32 := do
  let w := flushIn vscr b
  let out ←
    if sglNan w then some (sglQuiet w)
    else if w = 0x7F800000#32 then some w
    else if w = 0xFF800000#32 then some 0#32
    else expEstimate h w
  return flushOut vscr out

/-- A handler of defined lanes. -/
def vecTry (lane : U32 → U32 → Option U32) (c : Cpu β) (i : U32) : Option (Cpu β) := do
  let out ← (List.range 4).mapM fun k => lane c.st.vscr (gw (c.st.user.VB i) k)
  return vecOp (fun _ _ _ => words.each fun k => modulo (out.getD k 0#32)) c i

def h_vlogefp (h : Cpu.Fast) : Cpu β → U32 → Option (Cpu β) := vecTry (logefp h)
def h_vexptefp (h : Cpu.Fast) : Cpu β → U32 → Option (Cpu β) := vecTry (exptefp h)

end Vec

end OpenPowerMac
