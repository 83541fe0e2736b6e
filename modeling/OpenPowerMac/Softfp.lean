/-
The software floating point: `core/src/softfp.cpp`, as far as addition,
multiplication, the fused family and the rounding to single go.

Finite nonzero significands are held with the leading one in bit 63, exponents as
integers (they stay within a few thousand of zero). The fused path accumulates in
two 64-bit halves, `U128`, and rounds once (`roundPack`). In front of it stand
the host fast paths, which answer `none` where they leave an operation to the
model; `off` is `gHostFastOff`. The hit and miss counters are left out.
-/
import OpenPowerMac.HostFloat

set_option autoImplicit false

namespace OpenPowerMac

namespace Sf

/-! ## Flags, environment and target -/

def kOx : U32 := 1#32
def kUx : U32 := 2#32
def kXx : U32 := 8#32
def kFr : U32 := 16#32
def kVxsnan : U32 := 32#32
def kVxisi : U32 := 64#32
def kVximz : U32 := 512#32

def kFastOffSgl : U32 := 1#32
def kFastOffDbl : U32 := 2#32

/-- `R`: a result and what the operation reports. -/
structure R where
  bits : U64
  fl : U32
  deriving DecidableEq

/-- `Env`. -/
structure Env where
  rn : U32
  oe : Bool
  ue : Bool
  ni : Bool

/-- `Tgt`. -/
inductive Tgt where
  | Dbl
  | Sgl
  deriving DecidableEq

def kQNaNGen : U64 := 0x7FF8000000000000#64
def kOne : U64 := 0x3FF0000000000000#64
def kMaxDbl : U64 := 0x7FEFFFFFFFFFFFFF#64
def kMaxSglAsDbl : U64 := 0x47EFFFFFE0000000#64

/-- `std::countl_zero`. -/
def clz64 (x : U64) : ℕ := if x = 0#64 then 64 else 63 - x.toNat.log2

/-- `std::countr_zero`. -/
def ctz64 (x : U64) : ℕ := ((List.range 64).find? fun i => x.getLsbD i).getD 64

/-! ## Unpacking -/

/-- `Cls`. -/
inductive Cls where
  | cZero
  | cFin
  | cInf
  | cQNaN
  | cSNaN
  deriving DecidableEq

/-- `Un`: the class, the sign, and for a finite number the exponent and the
significand. -/
structure Un where
  c : Cls
  s : Bool
  e : ℤ
  m : U64

/-- The exponent field. -/
def expField (f : U64) : BitVec 11 := f.extractLsb' 52 11

/-- The fraction field, in place. -/
def fracField (f : U64) : U64 := f &&& 0x000FFFFFFFFFFFFF#64

/-- `unpack`. -/
def unpack (f : U64) : Un :=
  let s := f >>> 63 != 0#64
  let e := expField f
  let frac := fracField f
  if e = 0x7FF#11 then
    { c := if frac = 0#64 then .cInf else if frac >>> 51 ≠ 0#64 then .cQNaN else .cSNaN
      s := s, e := 0, m := 0#64 }
  else if e = 0#11 then
    if frac = 0#64 then { c := .cZero, s := s, e := 0, m := 0#64 }
    else
      let lz := clz64 frac
      { c := .cFin, s := s, e := (63 - lz) - 1074, m := frac <<< lz }
  else { c := .cFin, s := s, e := (e.toNat : ℤ) - 1023, m := (frac ||| (1#64 <<< 52)) <<< 11 }

def quiet (nan : U64) : U64 := nan ||| (1#64 <<< 51)

def packZero (s : Bool) : U64 := if s then kSignBit else 0#64

def packInf (s : Bool) : U64 := kInf ||| (if s then kSignBit else 0#64)

/-! ## Rounding and packing -/

/-- `packExact`. -/
def packExact (sign : Bool) (vexp : ℤ) (nsig : U64) : U64 :=
  let s := if sign then kSignBit else 0#64
  if vexp < -1022 then
    let sh := (-1011 - vexp).toNat
    s ||| (if sh ≥ 64 then 0#64 else nsig >>> sh)
  else s ||| (BitVec.ofInt 64 (vexp + 1023) <<< 52) ||| ((nsig <<< 1) >>> 12)

/-- The kept digits of a target. -/
def Tgt.p : Tgt → ℕ
  | Sgl => 24
  | Dbl => 53

def Tgt.emin : Tgt → ℤ
  | Sgl => -126
  | Dbl => -1022

def Tgt.emax : Tgt → ℤ
  | Sgl => 127
  | Dbl => 1023

def Tgt.scale : Tgt → ℤ
  | Sgl => 192
  | Dbl => 1536

/-- The denormalizing shift of `roundPack`: the significand and the sticky bit. -/
def denormShift (sig : U64) (sticky : Bool) (sh : ℕ) : U64 × Bool :=
  if sh ≥ 64 then (0#64, sticky || sig != 0#64)
  else if sh ≠ 0 then (sig >>> sh, sticky || sig <<< (64 - sh) != 0#64)
  else (sig, sticky)

/-- The increment of the rounding model. -/
def roundInc (rn : U32) (sign g r x lsb inx : Bool) : Bool :=
  match rn with
  | 0#32 => g && (r || x || lsb)
  | 1#32 => false
  | 2#32 => !sign && inx
  | 3#32 => sign && inx
  | _ => false

/-- The default on a disabled overflow. -/
def overflowDefault (sign : Bool) (rn : U32) (t : Tgt) (fl : U32) : R :=
  let toInf := rn = 0#32 ∨ (rn = 2#32 ∧ !sign) ∨ (rn = 3#32 ∧ sign)
  if toInf then { bits := packInf sign, fl := fl ||| kXx ||| kFr }
  else
    { bits := (if sign then kSignBit else 0#64)
        ||| (match t with | .Sgl => kMaxSglAsDbl | .Dbl => kMaxDbl)
      fl := (fl ||| kXx) &&& ~~~kFr }

/-- The last part of `roundPack`: the kept digits delivered, flushed or packed. -/
def packKept (sign : Bool) (exp : ℤ) (kept : U64) (env : Env) (t : Tgt) : U64 :=
  if kept = 0#64 then packZero sign
  else
    let m : ℤ := 63 - clz64 kept
    let vexp := exp - (t.p - 1) + m
    if env.ni ∧ vexp < t.emin then packZero sign
    else packExact sign vexp (kept <<< clz64 kept)

/-- `roundPack` from its rounding step on, the significand denormalized. -/
def roundDigits (sign tiny : Bool) (exp : ℤ) (sig : U64) (sticky : Bool) (env : Env) (t : Tgt)
    (fl : U32) : R :=
  let lsb : Bool := (sig >>> (64 - t.p)) &&& 1#64 != 0#64
  let g : Bool := (sig >>> (63 - t.p)) &&& 1#64 != 0#64
  let r : Bool := (sig >>> (62 - t.p)) &&& 1#64 != 0#64
  let x := sticky || sig &&& ((1#64 <<< (62 - t.p)) - 1#64) != 0#64
  let inx := g || r || x
  let inc := roundInc env.rn sign g r x lsb inx
  let kept := (sig >>> (64 - t.p)) + (if inc then 1#64 else 0#64)
  -- rounding up can carry past the leading one
  let carry : Bool := kept >>> t.p != 0#64
  let exp := if carry then exp + 1 else exp
  let kept := if carry then kept >>> 1 else kept
  let fl := if inx then fl ||| kXx else fl
  let fl := if inc then fl ||| kFr else fl
  let fl := if tiny ∧ !env.ue ∧ inx then fl ||| kUx else fl
  if !tiny ∧ exp > t.emax then
    if env.oe then
      { bits := packKept sign (exp - t.scale) kept env t, fl := fl ||| kOx }
    else overflowDefault sign env.rn t (fl ||| kOx)
  else { bits := packKept sign exp kept env t, fl := fl }

/-- `roundPack`: a significand with its leading one in bit 63, the exponent of
that one, and whether anything lies below bit 0. -/
def roundPack (sign : Bool) (exp : ℤ) (sig : U64) (sticky : Bool) (env : Env) (t : Tgt)
    (fl : U32) : R :=
  let tiny : Bool := exp < t.emin
  let fl := if tiny ∧ env.ue then fl ||| kUx else fl
  let (sig, sticky) :=
    if tiny ∧ !env.ue then denormShift sig sticky (t.emin - exp).toNat else (sig, sticky)
  let exp := if tiny then (if env.ue then exp + t.scale else t.emin) else exp
  roundDigits sign tiny exp sig sticky env t fl

/-! ## 128-bit values -/

/-- `U128`. -/
structure U128 where
  hi : U64
  lo : U64

/-- `mul64to128`. -/
def mul64to128 (a b : U64) : U128 :=
  let a0 := (a.setWidth 32).setWidth 64
  let a1 := a >>> 32
  let b0 := (b.setWidth 32).setWidth 64
  let b1 := b >>> 32
  let p00 := a0 * b0
  let p01 := a0 * b1
  let p10 := a1 * b0
  let p11 := a1 * b1
  let mid := p01 + p10
  let midCarry := if mid < p01 then 1#64 <<< 32 else 0#64
  let lo := p00 + (mid <<< 32)
  { hi := p11 + (mid >>> 32) + midCarry + (if lo < p00 then 1#64 else 0#64), lo := lo }

/-- `shl128`. -/
def shl128 (v : U128) (n : ℕ) : U128 :=
  if n = 0 then v
  else if n ≥ 64 then { hi := if n ≥ 128 then 0#64 else v.lo <<< (n - 64), lo := 0#64 }
  else { hi := (v.hi <<< n) ||| (v.lo >>> (64 - n)), lo := v.lo <<< n }

/-- `shr128jam`: what is shifted out is kept in the jam. -/
def shr128jam (v : U128) (n : ℕ) (jam : Bool) : U128 × Bool :=
  if n = 0 then (v, jam)
  else if n ≥ 128 then ({ hi := 0#64, lo := 0#64 }, jam || v.hi != 0#64 || v.lo != 0#64)
  else if n ≥ 64 then
    ({ hi := 0#64, lo := v.hi >>> (n - 64) },
      jam || v.lo != 0#64 || (decide (n > 64) && v.hi <<< (128 - n) != 0#64))
  else
    ({ hi := v.hi >>> n, lo := (v.lo >>> n) ||| (v.hi <<< (64 - n)) },
      jam || v.lo <<< (64 - n) != 0#64)

/-- `clz128`. -/
def clz128 (v : U128) : ℕ := if v.hi ≠ 0#64 then clz64 v.hi else 64 + clz64 v.lo

/-- `ge128`. -/
def ge128 (a b : U128) : Bool := if a.hi ≠ b.hi then decide (a.hi > b.hi) else decide (a.lo ≥ b.lo)

/-- `sub128`. -/
def sub128 (a b : U128) : U128 :=
  { hi := a.hi - b.hi - (if a.lo < b.lo then 1#64 else 0#64), lo := a.lo - b.lo }

/-- `add128`: the sum and the carry out of it. -/
def add128 (a b : U128) : U128 × Bool :=
  let lo := a.lo + b.lo
  let carry0 : Bool := lo < a.lo
  let hi := if carry0 then a.hi + b.hi + 1#64 else a.hi + b.hi
  ({ hi := hi, lo := lo }, (carry0 && hi == 0#64) || decide (hi < a.hi))

/-! ## The host's comparisons -/

/-- `==` of two doubles that are not NaNs. -/
def eqD (x y : U64) : Bool := x == y || (x <<< 1 == 0#64 && y <<< 1 == 0#64)

/-- `x != 0.0`. -/
def nonzeroD (x : U64) : Bool := x <<< 1 != 0#64

/-- `x < 0.0`, of a double that is not a NaN. -/
def ltZeroD (x : U64) : Bool := negD x && nonzeroD x

/-- `-x`. -/
def minusD (x : U64) : U64 := x ^^^ kSignBit

/-- `x - y`. -/
def Host.subD (h : Host) (x y : U64) : U64 := h.addD x (minusD y)

/-- The flags of a nearest rounding, from its residue and the result's sign. -/
def residFlags (resid : U64) (neg : Bool) : U32 :=
  if nonzeroD resid then (if ltZeroD resid != neg then kXx ||| kFr else kXx) else 0#32

/-! ## The single-target fast path -/

/-- The operands `hostSglFast` looks at: zero, or a normal double. -/
def nzD (x : U64) : Bool :=
  if expField x ≠ 0#11 then expField x != 0x7FF#11 else x &&& ~~~kSignBit == 0#64

/-- The two-sum of the fast paths, from its sum on. -/
def Host.sumResid (h : Host) (a b s : U64) : U64 :=
  let bv := h.subD s a
  h.addD (h.subD a (h.subD s bv)) (h.subD b bv)

/-- The single result of `hostSglFast`, before it is admitted; `none` where the
host has no fused unit. -/
def Host.sglResult (h : Host) (sa sc sb : U32) (pd : U64) (hasAddend : Bool) : Option U32 :=
  if hasAddend then
    if sc = 0x3F800000#32 then some (h.addS sa sb)
    else if h.haveFma then some (h.fmaS sa sc sb)
    else none
  else some (h.narrow pd)

/-- `hostSglFast`, from the single result on. -/
def sglFinish (h : Host) (r0 : U32) (s t : U64) (negResult : Bool) : Option R :=
  let rexp := (r0 >>> 23) &&& 0xFF#32
  if rexp = 0xFF#32 then none
  else if rexp = 0#32 ∧ r0 &&& 0x007FFFFF#32 ≠ 0#32 then none
  else if nonzeroD t then none
  else
    let r0d := h.widen r0
    let resid := h.subD s r0d
    if r0 <<< 1 = 0#32 ∧ nonzeroD resid then none
    else
      some { bits := if negResult then r0d ^^^ kSignBit else r0d
             fl := residFlags resid (negS r0) }

/-- `hostSglFast`. -/
def hostSglFast (h : Host) (fa fc fb : U64) (hasAddend negResult : Bool) : Option R :=
  if !nzD fa || !nzD fc || (hasAddend && !nzD fb) then none
  else
    let db := if hasAddend then fb else 0#64
    let sa := h.narrow fa
    let sc := h.narrow fc
    let sb := h.narrow db
    if !eqD (h.widen sa) fa || !eqD (h.widen sc) fc || (hasAddend && !eqD (h.widen sb) db) then
      none
    else
      let pd := h.mulD (h.widen sa) (h.widen sc)
      match h.sglResult sa sc sb pd hasAddend with
      | none => none
      | some r0 =>
          if hasAddend then
            let s := h.addD pd db
            sglFinish h r0 s (h.sumResid pd db s) negResult
          else sglFinish h r0 pd 0#64 negResult

/-! ## The double-target fast paths -/

def kDblELo : U32 := 564#32
def kDblEHi : U32 := 1532#32

/-- `admitD`. -/
def admitD (x : U64) : Bool :=
  let e := (expField x).setWidth 32
  decide (e - kDblELo ≤ kDblEHi - kDblELo) || x <<< 1 == 0#64

/-- A significand with its hidden bit. -/
def hidden (f : U64) : U64 := fracField f ||| (1#64 <<< 52)

/-- `lowBitProd`. -/
def lowBitProd (fa fc : U64) : ℤ := 22 + ctz64 (hidden fa) + ctz64 (hidden fc)

/-- `lowBitOne`. -/
def lowBitOne (f : U64) : ℤ := 75 + ctz64 (hidden f)

/-- `finishD`. -/
def finishD (r0 resid : U64) (negResult : Bool) : Option R :=
  let re := expField r0
  if (re < 2#11 ∨ re = 0x7FF#11) ∧ ¬ (re = 0#11 ∧ r0 <<< 1 = 0#64 ∧ !nonzeroD resid) then none
  else
    some { bits := if negResult then r0 ^^^ kSignBit else r0, fl := residFlags resid (negD r0) }

/-- `dblMulFast`. -/
def dblMulFast (h : Host) (fa fc : U64) : Option R :=
  if !h.haveFma then none
  else if !admitD fa || !admitD fc then none
  else
    let r0 := h.mulD fa fc
    finishD r0 (h.fmaD fa fc (minusD r0)) false

/-- `dblAddFast`. -/
def dblAddFast (h : Host) (fa fb : U64) : Option R :=
  if !admitD fa || !admitD fb then none
  else
    let d : ℤ := (expField fa).toNat - (expField fb).toNat
    if nonzeroD fa ∧ nonzeroD fb ∧ (d > lowBitOne fb ∨ d < -lowBitOne fa) then none
    else
      let r0 := h.addD fa fb
      finishD r0 (h.sumResid fa fb r0) false

/-- `dblFmaFast`. -/
def dblFmaFast (h : Host) (fa fc fb : U64) (negResult : Bool) : Option R :=
  if !h.haveFma then none
  else if !admitD fa || !admitD fc || !admitD fb then none
  else
    let d : ℤ := (expField fa).toNat + (expField fc).toNat - (expField fb).toNat - 1023
    if nonzeroD fa ∧ nonzeroD fc ∧ nonzeroD fb
        -- a bit would fall off the model's accumulator and be jammed
        ∧ (d + 1 > lowBitOne fb ∨ d < -lowBitProd fa fc) then none
    else
      let u1 := h.mulD fa fc
      let u2 := h.fmaD fa fc (minusD u1)
      if !nonzeroD u2 then
        let r0 := h.addD u1 fb
        finishD r0 (h.sumResid u1 fb r0) negResult
      else
        let r0 := h.fmaD fa fc fb
        let a1 := h.addD fb u2
        let a2 := h.sumResid fb u2 a1
        let b1 := h.addD u1 a1
        let b2 := h.sumResid u1 a1 b1
        finishD r0 (h.addD (h.addD (h.subD b1 r0) b2) a2) negResult

/-- The environment of the fast paths: to nearest, nothing enabled, no flush. -/
def Env.plain (e : Env) : Bool := e.rn == 0#32 && !e.oe && !e.ue && !e.ni

/-- `plainD`. -/
def plainD (off : U32) (e : Env) (t : Tgt) : Bool :=
  t == .Dbl && e.plain && off &&& kFastOffDbl == 0#32

/-! ## The fused path -/

/-- A rounded value waiting: `acc * 2^(exp-127)` with the leading one in bit 127. -/
structure Acc where
  acc : U128
  exp : ℤ
  sign : Bool
  jam : Bool

/-- The normalized product of two finite significands. -/
def prodAcc (a c : Un) : U128 × ℤ :=
  let acc := mul64to128 a.m c.m
  if acc.hi >>> 63 = 0#64 then (shl128 acc 1, a.e + c.e + 1 - 1) else (acc, a.e + c.e + 1)

/-- The aligned sum of two accumulators of one sign: a carry moves it down. -/
def addAligned (acc bacc : U128) (exp : ℤ) (sign jam : Bool) : Acc :=
  let (sum, carry) := add128 acc bacc
  if carry then
    let (v, jam) := shr128jam sum 1 jam
    { acc := { v with hi := v.hi ||| (1#64 <<< 63) }, exp := exp + 1, sign := sign, jam := jam }
  else { acc := sum, exp := exp, sign := sign, jam := jam }

/-- The aligned difference; `none` is an exact zero. -/
def subAligned (acc bacc : U128) (exp : ℤ) (sign bsign jam : Bool) : Option Acc :=
  let (diff, sign) := if ge128 bacc acc then (sub128 bacc acc, bsign) else (sub128 acc bacc, sign)
  if diff.hi = 0#64 ∧ diff.lo = 0#64 ∧ !jam then none
  else
    let lz := clz128 diff
    some { acc := if lz ≠ 0 then shl128 diff lz else diff, exp := exp - lz, sign := sign, jam := jam }

/-- The product and the addend, aligned on the larger exponent and combined. -/
def fuse (acc : U128) (exp : ℤ) (ps : Bool) (b : Un) : Option Acc :=
  let bacc : U128 := { hi := b.m, lo := 0#64 }
  let d := exp - b.e
  let (bacc, jam) := if d > 0 then shr128jam bacc d.toNat false else (bacc, false)
  let (acc, jam) := if d < 0 then shr128jam acc (-d).toNat jam else (acc, jam)
  let exp := if d < 0 then b.e else exp
  if ps = b.s then some (addAligned acc bacc exp ps jam)
  else subAligned acc bacc exp ps b.s jam

/-- What is rounded: the addend alone, the product alone, or the two fused. -/
def fmaAcc (a c b : Un) (hasAddend : Bool) : Option Acc :=
  if a.c = .cZero ∨ c.c = .cZero then
    some { acc := { hi := b.m, lo := 0#64 }, exp := b.e, sign := b.s, jam := false }
  else
    let (acc, exp) := prodAcc a c
    let ps := a.s != c.s
    if hasAddend ∧ b.c ≠ .cZero then fuse acc exp ps b
    else some { acc := acc, exp := exp, sign := ps, jam := false }

/-- `fmaCore` on finite operands. -/
def fmaFinite (a c b : Un) (hasAddend negResult : Bool) (env : Env) (t : Tgt) (fl : U32) : R :=
  let ps := a.s != c.s
  if (a.c = .cZero ∨ c.c = .cZero) ∧ (!hasAddend ∨ b.c = .cZero) then
    let sign := if !hasAddend then ps else if ps = b.s then ps else env.rn == 3#32
    { bits := packZero (sign != negResult), fl := fl }
  else
    match fmaAcc a c b hasAddend with
    | none => { bits := packZero ((env.rn == 3#32) != negResult), fl := fl }
    | some v =>
        roundPack (v.sign != negResult) v.exp v.acc.hi (v.jam || v.acc.lo != 0#64) env t fl

/-- `fmaCore` behind its fast path: `fb` has the addend's negation in it. -/
def fmaModel (fa fc fb : U64) (hasAddend negAdd negResult : Bool) (env : Env) (t : Tgt) : R :=
  let a := unpack fa
  let c := unpack fc
  let b := unpack fb
  let imz := (a.c = .cInf ∧ c.c = .cZero) ∨ (a.c = .cZero ∧ c.c = .cInf)
  let fl := if imz then kVximz else 0#32
  let fl := if a.c = .cSNaN ∨ (hasAddend ∧ b.c = .cSNaN) ∨ c.c = .cSNaN then fl ||| kVxsnan else fl
  -- the first operand that is a NaN is the answer: a, then b, then c
  if a.c = .cQNaN ∨ a.c = .cSNaN then { bits := quiet fa, fl := fl }
  else if hasAddend ∧ (b.c = .cQNaN ∨ b.c = .cSNaN) then
    { bits := quiet (fb ^^^ (if negAdd then kSignBit else 0#64)), fl := fl }
  else if c.c = .cQNaN ∨ c.c = .cSNaN then { bits := quiet fc, fl := fl }
  else if imz then { bits := kQNaNGen, fl := fl }
  else
    -- no NaN from here on, and infinities before the finite arm
    let ps := a.s != c.s
    if a.c = .cInf ∨ c.c = .cInf then
      if hasAddend ∧ b.c = .cInf ∧ b.s ≠ ps then { bits := kQNaNGen, fl := fl ||| kVxisi }
      else { bits := if negResult then packInf ps ^^^ kSignBit else packInf ps, fl := fl }
    else if hasAddend ∧ b.c = .cInf then
      { bits := if negResult then packInf b.s ^^^ kSignBit else packInf b.s, fl := fl }
    else fmaFinite a c b hasAddend negResult env t fl

/-- `fmaCore`. -/
def fmaCore (h : Host) (off : U32) (fa fc fb : U64) (hasAddend negAdd negResult : Bool) (env : Env)
    (t : Tgt) : R :=
  let fb := if hasAddend && negAdd then fb ^^^ kSignBit else fb
  let model := fmaModel fa fc fb hasAddend negAdd negResult env t
  if t = .Sgl ∧ env.plain ∧ off &&& kFastOffSgl = 0#32 then
    (hostSglFast h fa fc fb hasAddend negResult).getD model
  else model

/-- `add`. -/
def add (h : Host) (off : U32) (a b : U64) (e : Env) (t : Tgt) : R :=
  let model := fmaCore h off a kOne b true false false e t
  if plainD off e t then (dblAddFast h a b).getD model else model

/-- `sub`. -/
def sub (h : Host) (off : U32) (a b : U64) (e : Env) (t : Tgt) : R :=
  let model := fmaCore h off a kOne b true true false e t
  if plainD off e t then (dblAddFast h a (b ^^^ kSignBit)).getD model else model

/-- `mul`. -/
def mul (h : Host) (off : U32) (a c : U64) (e : Env) (t : Tgt) : R :=
  let model := fmaCore h off a c 0#64 false false false e t
  if plainD off e t then (dblMulFast h a c).getD model else model

/-- `madd`. -/
def madd (h : Host) (off : U32) (a c b : U64) (e : Env) (t : Tgt) (negAdd negResult : Bool) : R :=
  let model := fmaCore h off a c b true negAdd negResult e t
  if plainD off e t then
    (dblFmaFast h a c (if negAdd then b ^^^ kSignBit else b) negResult).getD model
  else model

/-! ## Rounding to single -/

/-- The fast arm of `rsp`. -/
def rspFast (h : Host) (fb : U64) : Option R :=
  let e := (expField fb).setWidth 32
  if e - 1#32 < 0x7FE#32 then
    let sb := h.narrow fb
    let se := (sb >>> 23) &&& 0xFF#32
    if se ≥ 2#32 ∧ se ≠ 0xFF#32 then
      let sd := h.widen sb
      some { bits := sd, fl := residFlags (h.subD fb sd) (negS sb) }
    else none
  else none

/-- `rsp` behind its fast arm. -/
def rspModel (fb : U64) (env : Env) : R :=
  let b := unpack fb
  let fl := if b.c = .cSNaN then kVxsnan else 0#32
  if b.c = .cQNaN ∨ b.c = .cSNaN then { bits := quiet fb &&& 0xFFFFFFFFE0000000#64, fl := fl }
  else if b.c = .cInf ∨ b.c = .cZero then { bits := fb, fl := fl }
  else roundPack b.s b.e b.m false env .Sgl fl

/-- `rsp`. -/
def rsp (h : Host) (off : U32) (fb : U64) (env : Env) : R :=
  if env.plain && off &&& kFastOffDbl == 0#32 then (rspFast h fb).getD (rspModel fb env)
  else rspModel fb env

end Sf

end OpenPowerMac
