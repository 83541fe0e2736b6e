/-
The rest of the software floating point: `div`, `ctiw`, `res` and `rsqrte` of
`core/src/softfp.cpp`.

Division and the square root produce 56 digits by shift and subtract and leave the
remainder to the sticky bit. The two estimates are exact operations with their
flags thinned out.
-/
import OpenPowerMac.Softfp

set_option autoImplicit false

namespace OpenPowerMac

namespace Sf

def kZx : U32 := 4#32
def kVxidi : U32 := 128#32
def kVxzdz : U32 := 256#32
def kVxcvi : U32 := 1024#32
def kVxsqrt : U32 := 2048#32

/-- A NaN of either kind. -/
def Cls.nan (c : Cls) : Bool := c = .cQNaN || c = .cSNaN

/-- One step of the quotient: the digits and the remainder. -/
def divStep (m : U64) (p : U64 × U64) : U64 × U64 :=
  let top : Bool := p.2 >>> 63 != 0#64
  let rem := p.2 <<< 1
  let q := p.1 <<< 1
  if top ∨ rem ≥ m then (q ||| 1#64, rem - m) else (q, rem)

/-- The 56 digits of the quotient, and the remainder. -/
def divDigits (a b : U64) : U64 × U64 :=
  (divStep b)^[55] (if a ≥ b then (1#64, a - b) else (0#64, a))

/-- `div`. -/
def div (fa fb : U64) (env : Env) (t : Tgt) : R :=
  let a := unpack fa
  let b := unpack fb
  let fl := if a.c = .cSNaN ∨ b.c = .cSNaN then kVxsnan else 0#32
  let s := a.s != b.s
  if a.c.nan then { bits := quiet fa, fl := fl }
  else if b.c.nan then { bits := quiet fb, fl := fl }
  else if a.c = .cInf then
    if b.c = .cInf then { bits := kQNaNGen, fl := fl ||| kVxidi }
    else { bits := packInf s, fl := fl }
  else if b.c = .cInf then { bits := packZero s, fl := fl }
  else if b.c = .cZero then
    if a.c = .cZero then { bits := kQNaNGen, fl := fl ||| kVxzdz }
    else { bits := packInf s, fl := fl ||| kZx }
  else if a.c = .cZero then { bits := packZero s, fl := fl }
  else
    let d := divDigits a.m b.m
    let lz := clz64 d.1
    roundPack s ((a.e - b.e) + (8 - lz)) (d.1 <<< lz) (d.2 != 0#64) env t fl

/-- The increment of an integer conversion, and what it rounds. -/
def ctiwInc (rn : U32) (sign g x odd : Bool) : Bool :=
  if g || x then
    match rn with
    | 0#32 => g && (x || odd)
    | 2#32 => !sign
    | 3#32 => sign
    | _ => false
  else false

/-- The upper word of an integer result, which the architecture leaves undefined. -/
def ctiwHi : U64 := 0xFFF8000000000000#64

/-- `ctiw`. -/
def ctiw (fb : U64) (rn : U32) : R :=
  let b := unpack fb
  if b.c.nan then
    { bits := ctiwHi ||| 0x80000000#64
      fl := if b.c = .cSNaN then kVxcvi ||| kVxsnan else kVxcvi }
  else if b.c = .cInf ∨ b.e > 62 then
    { bits := ctiwHi ||| (if b.s then 0x80000000#64 else 0x7FFFFFFF#64), fl := kVxcvi }
  else if b.c = .cZero then { bits := ctiwHi, fl := 0#32 }
  else
    let sh := (63 - b.e).toNat
    let whole := if b.e < 0 then 0#64 else b.m >>> sh
    let low := b.m <<< (64 - sh)
    let g : Bool :=
      if b.e < 0 then b.e = -1 && b.m >>> 63 != 0#64 else low >>> 63 != 0#64
    let x : Bool :=
      if b.e < 0 then (if b.e = -1 then b.m <<< 1 != 0#64 else b.m != 0#64) else low <<< 1 != 0#64
    -- rounded on the guard and sticky bits behind the point
    let inc := ctiwInc rn b.s g x (whole &&& 1#64 != 0#64)
    let mag := whole + (if inc then 1#64 else 0#64)
    if mag > (if b.s then 0x80000000#64 else 0x7FFFFFFF#64) then
      { bits := ctiwHi ||| (if b.s then 0x80000000#64 else 0x7FFFFFFF#64), fl := kVxcvi }
    else
      let res32 : U32 := if b.s then 0#32 - mag.setWidth 32 else mag.setWidth 32
      { bits := ctiwHi ||| res32.setWidth 64
        fl := (if g || x then kXx else 0#32) ||| (if inc then kFr else 0#32) }

/-- `res`. -/
def res (fb : U64) (env : Env) : R :=
  let b := unpack fb
  let fl := if b.c = .cSNaN then kVxsnan else 0#32
  if b.c.nan then { bits := quiet fb &&& 0xFFFFFFFFE0000000#64, fl := fl }
  else if b.c = .cInf then { bits := packZero b.s, fl := fl }
  else if b.c = .cZero then { bits := packInf b.s, fl := fl ||| kZx }
  else
    let r := div kOne fb { env with rn := 0#32 } .Sgl
    { r with fl := (r.fl &&& (kOx ||| kUx)) ||| fl }

/-- The state of the square root: what is left of the radicand, the remainder and
the digits. -/
structure SqrtState where
  rad : U128
  rem : U128
  q : U64

/-- One digit of the square root. -/
def sqrtStep (v : SqrtState) : SqrtState :=
  let top2 := v.rad.hi >>> 62
  let rem := shl128 v.rem 2
  let rem : U128 := { rem with lo := rem.lo ||| top2 }
  let trial : U128 := { hi := 0#64, lo := (v.q <<< 2) ||| 1#64 }
  if ge128 rem trial then
    { rad := shl128 v.rad 2, rem := sub128 rem trial, q := (v.q <<< 1) ||| 1#64 }
  else { rad := shl128 v.rad 2, rem := rem, q := v.q <<< 1 }

/-- `sqrtSig`: the digits, and whether anything is left. -/
def sqrtSig (m : U64) (oddExp : Bool) : U64 × Bool :=
  let rad := shl128 { hi := 0#64, lo := m } (63 + if oddExp then 1 else 0)
  let v := sqrtStep^[56] { rad := rad, rem := { hi := 0#64, lo := 0#64 }, q := 0#64 }
  (v.q, v.rem.hi != 0#64 || v.rem.lo != 0#64)

/-- `rsqrte`. -/
def rsqrte (fb : U64) (env : Env) : R :=
  let b := unpack fb
  let fl := if b.c = .cSNaN then kVxsnan else 0#32
  if b.c.nan then { bits := quiet fb, fl := fl }
  else if b.c = .cZero then { bits := packInf b.s, fl := fl ||| kZx }
  else if b.s then { bits := kQNaNGen, fl := fl ||| kVxsqrt }
  else if b.c = .cInf then { bits := 0#64, fl := fl }
  else
    let odd : Bool := b.e % 2 ≠ 0
    let half := (b.e - if odd then 1 else 0) / 2
    let d := sqrtSig b.m odd
    let lz := clz64 d.1
    let root := roundPack false (half + (8 - lz)) (d.1 <<< lz) d.2 { env with rn := 0#32 } .Dbl 0#32
    { div kOne root.bits { env with rn := 0#32 } .Dbl with fl := fl }

end Sf

end OpenPowerMac
