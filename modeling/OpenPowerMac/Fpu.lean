/-
The floating-point executors: `core/src/fpu.cpp`.

Every result goes through `commit`, which is two tails in one: a short path for a
result that reports nothing but inexact, and the general path for the rest. Two
bits of the FPSCR are derived from the others, VX and FEX. The general path, the
compares and the moves recompute both (`refresh`); the short path does not, because
what it writes can only add FEX. That is sound exactly as long as the two bits are
what `refresh` would make them, which is the invariant here (`Consistent`).
-/
import OpenPowerMac.Divide
import OpenPowerMac.LoadStore

set_option autoImplicit false

namespace OpenPowerMac

open Sf (R Env Tgt Host)

/-! ## The register -/

namespace Fpscr

def fFX : U32 := 0x80000000#32
def fFEX : U32 := 0x40000000#32
def fVX : U32 := 0x20000000#32
def fOX : U32 := 0x10000000#32
def fUX : U32 := 0x08000000#32
def fZX : U32 := 0x04000000#32
def fXX : U32 := 0x02000000#32
def fVXSNAN : U32 := 0x01000000#32
def fVXISI : U32 := 0x00800000#32
def fVXIDI : U32 := 0x00400000#32
def fVXZDZ : U32 := 0x00200000#32
def fVXIMZ : U32 := 0x00100000#32
def fVXVC : U32 := 0x00080000#32
def fFR : U32 := 0x00040000#32
def fFI : U32 := 0x00020000#32
def fFPRF : U32 := 0x0001F000#32
def fVXSOFT : U32 := 0x00000400#32
def fVXSQRT : U32 := 0x00000200#32
def fVXCVI : U32 := 0x00000100#32
def fVE : U32 := 0x00000080#32
def fOE : U32 := 0x00000040#32
def fUE : U32 := 0x00000020#32
def fZE : U32 := 0x00000010#32
def fXE : U32 := 0x00000008#32
def fNI : U32 := 0x00000004#32
def fRN : U32 := 0x00000003#32

def fVxAll : U32 :=
  fVXSNAN ||| fVXISI ||| fVXIDI ||| fVXZDZ ||| fVXIMZ ||| fVXVC ||| fVXSOFT ||| fVXSQRT ||| fVXCVI

def fExcAll : U32 := fFX ||| fOX ||| fUX ||| fZX ||| fXX ||| fVxAll

/-- Some bit of the mask is set. -/
def has (f mask : U32) : Bool := f &&& mask != 0#32

/-- `refresh`: VX and FEX recomputed. -/
def refresh (f : U32) : U32 :=
  let v := f &&& ~~~(fVX ||| fFEX)
  let v := if f &&& fVxAll ≠ 0#32 then v ||| fVX else v
  if ((v >>> 22) &&& v) &&& (fVE ||| fOE ||| fUE ||| fZE ||| fXE) ≠ 0#32 then v ||| fFEX else v

end Fpscr

open Fpscr

/-- `classify`: the FPRF code of a result. -/
def classify (v : U64) (sgl : Bool) : U32 :=
  let s : Bool := v >>> 63 != 0#64
  let e : U32 := (v >>> 52).setWidth 32 &&& 0x7FF#32
  let lo : U32 := if sgl then 897#32 else 1#32
  if e - lo < 0x7FF#32 - lo then (if s then 0x08#32 else 0x04#32)
  else
    let m := v &&& 0x000FFFFFFFFFFFFF#64
    if e = 0x7FF#32 then
      if m ≠ 0#64 then 0x11#32 else if s then 0x09#32 else 0x05#32
    else if e = 0#32 ∧ m = 0#64 then (if s then 0x12#32 else 0x02#32)
    else if s then 0x18#32 else 0x14#32

/-- `Fprf`: whether and how a result is classified. -/
inductive Fprf where
  | None
  | Dbl
  | Sgl
  deriving DecidableEq

/-- `setFprf`. -/
def setFprf (f : U32) (result : U64) (k : Fprf) : U32 :=
  (f &&& ~~~fFPRF) ||| (classify result (k = .Sgl) <<< 12)

/-- `mapFlags`: the exceptions of a result. -/
def mapFlags (sfl : U32) : U32 :=
  let on (k exc : U32) : U32 := if sfl &&& k ≠ 0#32 then exc else 0#32
  on Sf.kOx fOX ||| on Sf.kUx fUX ||| on Sf.kZx fZX ||| on Sf.kXx fXX ||| on Sf.kVxsnan fVXSNAN
    ||| on Sf.kVxisi fVXISI ||| on Sf.kVxidi fVXIDI ||| on Sf.kVxzdz fVXZDZ
    ||| on Sf.kVximz fVXIMZ ||| on Sf.kVxcvi fVXCVI ||| on Sf.kVxsqrt fVXSQRT

/-- `isNan`. -/
def isNan (v : U64) : Bool :=
  (v >>> 52) &&& 0x7FF#64 == 0x7FF#64 && v &&& 0x000FFFFFFFFFFFFF#64 != 0#64

/-- `isSNan`. -/
def isSNan (v : U64) : Bool := isNan v && (v >>> 51) &&& 1#64 == 0#64

/-- `fcmp`: the condition of a compare. -/
def fcmp (a b : U64) : U32 :=
  if isNan a ∨ isNan b then 1#32
  else
    let za : Bool := a <<< 1 == 0#64
    let zb : Bool := b <<< 1 == 0#64
    let sa : Bool := a >>> 63 != 0#64
    let sb : Bool := b >>> 63 != 0#64
    if za ∧ zb then 2#32
    else if za then (if sb then 4#32 else 8#32)
    else if zb then (if sa then 8#32 else 4#32)
    else if sa ≠ sb then (if sa then 8#32 else 4#32)
    else
      let ma := a &&& 0x7FFFFFFFFFFFFFFF#64
      let mb := b &&& 0x7FFFFFFFFFFFFFFF#64
      if ma = mb then 2#32
      else if decide (ma < mb) ≠ sa then 8#32 else 4#32

/-- The exceptions of a compare. -/
def compareExc (f : U32) (a b : U64) (ordered : Bool) : U32 :=
  if isSNan a ∨ isSNan b then
    if ordered ∧ f &&& fVE = 0#32 then fVXSNAN ||| fVXVC else fVXSNAN
  else if ordered ∧ (isNan a ∨ isNan b) then fVXVC
  else 0#32

namespace UserRegs

/-- `env`. -/
def env (u : UserRegs) : Env :=
  { rn := u.fpscr &&& fRN, oe := u.fpscr &&& fOE != 0#32, ue := u.fpscr &&& fUE != 0#32,
    ni := u.fpscr &&& fNI != 0#32 }

/-- `A`, `B` and `C_`: the operands. -/
def A (u : UserRegs) (i : U32) : U64 := u.fpr (f_ra i)
def B (u : UserRegs) (i : U32) : U64 := u.fpr (f_rb i)
def C_ (u : UserRegs) (i : U32) : U64 := u.fpr (f_rc_vec i)

/-- `fpRc`. -/
def fpRc (u : UserRegs) (i : U32) : UserRegs :=
  if f_rcbit i then u.setCrField 1#3 (u.fpscr >>> 28) else u

end UserRegs

namespace Cpu

variable {β : Type}

/-- `trapIfEnabled`. -/
def trapIfEnabled (c : Cpu β) : Cpu β :=
  if c.st.fpscr &&& fFEX ≠ 0#32 ∧ c.st.msr &&& (msr.FE0 ||| msr.FE1) ≠ 0#32 then
    c.raiseExc Exc.Program (c.st.pc - 4#32) kSrr1ProgFpEnabled
  else c

/-! ## `commit` -/

/-- The FPSCR on the short path. -/
def shortFpscr (f : U32) (r : R) (fprf : Fprf) : U32 :=
  let nf := f &&& ~~~(fFR ||| fFI)
  let nf :=
    if r.fl &&& Sf.kXx ≠ 0#32 then
      let nf := if f &&& fXX = 0#32 then nf ||| fFX else nf
      let nf := nf ||| (fXX ||| fFI)
      if nf &&& fXE ≠ 0#32 then nf ||| fFEX else nf
    else nf
  let nf := if r.fl &&& Sf.kFr ≠ 0#32 then nf ||| fFR else nf
  if fprf ≠ .None then setFprf nf r.bits fprf else nf

/-- `commit`'s short path: a result that reports nothing but inexact. -/
def commitShort (c : Cpu β) (i : U32) (r : R) (fprf : Fprf) : Cpu β :=
  (c.onUser fun u =>
    UserRegs.fpRc { u.setFpr (f_rt i) r.bits with fpscr := shortFpscr u.fpscr r fprf } i).trapIfEnabled

/-- An enabled invalid operation or zero divide suppresses the result. -/
def suppressed (f : U32) (r : R) : Bool :=
  (mapFlags r.fl &&& fVxAll != 0#32 && f &&& fVE != 0#32)
    || (mapFlags r.fl &&& fZX != 0#32 && f &&& fZE != 0#32)

/-- The FPSCR on the general path, before `refresh`. -/
def generalFpscr (f : U32) (r : R) (fprf : Fprf) : U32 :=
  let exc := mapFlags r.fl
  let nf := if exc &&& ~~~f ≠ 0#32 then f ||| fFX else f
  let nf := (nf ||| exc) &&& ~~~(fFR ||| fFI)
  let nf := if r.fl &&& Sf.kXx ≠ 0#32 then nf ||| fFI else nf
  let nf := if r.fl &&& Sf.kFr ≠ 0#32 then nf ||| fFR else nf
  if !suppressed f r ∧ fprf ≠ .None then setFprf nf r.bits fprf else nf

/-- `commit`'s general path. -/
def commitGeneral (c : Cpu β) (i : U32) (r : R) (fprf : Fprf) : Cpu β :=
  (c.onUser fun u =>
    let u' := if suppressed u.fpscr r then u else u.setFpr (f_rt i) r.bits
    UserRegs.fpRc { u' with fpscr := refresh (generalFpscr u.fpscr r fprf) } i).trapIfEnabled

/-- The flags of a result that takes the short path. -/
def Ordinary (r : R) : Prop := r.fl &&& ~~~(Sf.kXx ||| Sf.kFr) = 0#32

instance (r : R) : Decidable (Ordinary r) := inferInstanceAs (Decidable (_ = _))

/-- `commit`. -/
def commit (c : Cpu β) (i : U32) (r : R) (fprf : Fprf) : Cpu β :=
  if Ordinary r then c.commitShort i r fprf else c.commitGeneral i r fprf

/-! ## Arithmetic -/

/-- The host's arithmetic, and `gHostFastOff`. -/
structure Fast where
  host : Host
  off : U32

/-- A handler of arithmetic: a result of the operands and the environment. -/
def arith (fprf : Fprf) (op : UserRegs → U32 → R) : Handler β := fun c i =>
  c.commit i (op c.st.user i) fprf

section Arith

variable (h : Fast)

def h_fadd : Handler β := arith .Dbl fun u i => Sf.add h.host h.off (u.A i) (u.B i) u.env .Dbl
def h_fadds : Handler β := arith .Sgl fun u i => Sf.add h.host h.off (u.A i) (u.B i) u.env .Sgl
def h_fsub : Handler β := arith .Dbl fun u i => Sf.sub h.host h.off (u.A i) (u.B i) u.env .Dbl
def h_fsubs : Handler β := arith .Sgl fun u i => Sf.sub h.host h.off (u.A i) (u.B i) u.env .Sgl
def h_fmul : Handler β := arith .Dbl fun u i => Sf.mul h.host h.off (u.A i) (u.C_ i) u.env .Dbl
def h_fmuls : Handler β := arith .Sgl fun u i => Sf.mul h.host h.off (u.A i) (u.C_ i) u.env .Sgl
def h_fdiv : Handler β := arith .Dbl fun u i => Sf.div (u.A i) (u.B i) u.env .Dbl
def h_fdivs : Handler β := arith .Sgl fun u i => Sf.div (u.A i) (u.B i) u.env .Sgl

/-- `MADD`. -/
def fmaddOf (fprf : Fprf) (t : Tgt) (negAdd negRes : Bool) : Handler β :=
  arith fprf fun u i => Sf.madd h.host h.off (u.A i) (u.C_ i) (u.B i) u.env t negAdd negRes

def h_fmadd : Handler β := fmaddOf h .Dbl .Dbl false false
def h_fmadds : Handler β := fmaddOf h .Sgl .Sgl false false
def h_fmsub : Handler β := fmaddOf h .Dbl .Dbl true false
def h_fmsubs : Handler β := fmaddOf h .Sgl .Sgl true false
def h_fnmadd : Handler β := fmaddOf h .Dbl .Dbl false true
def h_fnmadds : Handler β := fmaddOf h .Sgl .Sgl false true
def h_fnmsub : Handler β := fmaddOf h .Dbl .Dbl true true
def h_fnmsubs : Handler β := fmaddOf h .Sgl .Sgl true true

def h_frsp : Handler β := arith .Sgl fun u i => Sf.rsp h.host h.off (u.B i) u.env
def h_fres : Handler β := arith .Sgl fun u i => Sf.res (u.B i) u.env
def h_frsqrte : Handler β := arith .Dbl fun u i => Sf.rsqrte (u.B i) u.env
def h_fctiw : Handler β := arith .None fun u i => Sf.ctiw (u.B i) (u.fpscr &&& fRN)
def h_fctiwz : Handler β := arith .None fun u i => Sf.ctiw (u.B i) 1#32

end Arith

/-! ## Moves and compares -/

/-- A handler that moves a value and reads no flag of it. -/
def fmove (op : UserRegs → U32 → U64) : Handler β := fun c i =>
  c.onUser fun u => (u.setFpr (f_rt i) (op u i)).fpRc i

def h_fsel : Handler β := fmove fun u i =>
  let a := u.A i
  if !isNan a ∧ (a >>> 63 = 0#64 ∨ a <<< 1 = 0#64) then u.C_ i else u.B i
def h_fmr : Handler β := fmove fun u i => u.B i
def h_fneg : Handler β := fmove fun u i => u.B i ^^^ 0x8000000000000000#64
def h_fabs : Handler β := fmove fun u i => u.B i &&& 0x7FFFFFFFFFFFFFFF#64
def h_fnabs : Handler β := fmove fun u i => u.B i ||| 0x8000000000000000#64
def h_mffs : Handler β := fmove fun u _ => 0xFFF8000000000000#64 ||| u.fpscr.setWidth 64

/-- `compare`. -/
def compare (ordered : Bool) : Handler β := fun c i =>
  (c.onUser fun u =>
    let cc := fcmp (u.A i) (u.B i)
    let f := (u.fpscr &&& ~~~0x0000F000#32) ||| (cc <<< 12)
    let exc := compareExc f (u.A i) (u.B i) ordered
    let f := if exc &&& ~~~f ≠ 0#32 then f ||| fFX else f
    { u.setCrField (f_crfd i) cc with fpscr := refresh (f ||| exc) }).trapIfEnabled

def h_fcmpu : Handler β := compare false
def h_fcmpo : Handler β := compare true

/-! ## Moves to the FPSCR -/

/-- The shift of a field of four bits. -/
def fieldShift (field : BitVec 3) : ℕ := (7 - field.toNat) * 4

/-- The copied exception bits are cleared, and no trap is evaluated. -/
def h_mcrfs : Handler β := fun c i =>
  c.onUser fun u =>
    let sh := fieldShift (f_crfs i)
    let u' := u.setCrField (f_crfd i) ((u.fpscr >>> sh) &&& 0xF#32)
    { u' with
      fpscr := refresh (u.fpscr &&& ~~~((0xF#32 <<< sh) &&& fExcAll &&& ~~~(fFEX ||| fVX))) }

/-- What the moves to the FPSCR have in common. -/
def moveFpscr (op : UserRegs → U32 → U32) : Handler β := fun c i =>
  (c.onUser fun u => UserRegs.fpRc { u with fpscr := refresh (op u i) } i).trapIfEnabled

def h_mtfsfi : Handler β := moveFpscr fun u i =>
  let sh := fieldShift (f_crfd i)
  let mask := if f_crfd i = 0#3 then (0xF#32 <<< sh) &&& ~~~(fFEX ||| fVX) else 0xF#32 <<< sh
  let imm : BitVec 4 := ppcbits i 16 19
  (u.fpscr &&& ~~~mask) ||| ((imm.setWidth 32 <<< sh) &&& mask)

/-- The mask of `h_mtfsf`. -/
def mtfsfMask (fm : BitVec 8) : U32 :=
  ((List.range 8).foldl
    (fun mask k => if fm.getLsbD (7 - k) then mask ||| (0xF#32 <<< ((7 - k) * 4)) else mask) 0#32)
    &&& ~~~(fFEX ||| fVX)

def h_mtfsf : Handler β := moveFpscr fun u i =>
  let mask := mtfsfMask (f_fm i)
  (u.fpscr &&& ~~~mask) ||| ((u.B i).setWidth 32 &&& mask)

/-- `mtfsb`. -/
def mtfsb (set : Bool) : Handler β := fun c i =>
  let bit := 1#32 <<< (31 - (f_rt i).toNat)
  if bit &&& (fFEX ||| fVX) ≠ 0#32 then c.onUser fun u => u.fpRc i
  else
    moveFpscr (fun u _ =>
      let f := u.fpscr
      if set then
        (if bit &&& fExcAll &&& ~~~fFX ≠ 0#32 ∧ f &&& bit = 0#32 then f ||| fFX else f) ||| bit
      else f &&& ~~~bit) c i

def h_mtfsb0 : Handler β := mtfsb false
def h_mtfsb1 : Handler β := mtfsb true

/-- `bindFpuHandlers`. -/
def fpuHandlers (h : Fast) : List (String × Handler β) :=
  [("fadd", h_fadd h), ("fadds", h_fadds h), ("fsub", h_fsub h), ("fsubs", h_fsubs h),
    ("fmul", h_fmul h), ("fmuls", h_fmuls h), ("fdiv", h_fdiv), ("fdivs", h_fdivs),
    ("fmadd", h_fmadd h), ("fmadds", h_fmadds h), ("fmsub", h_fmsub h), ("fmsubs", h_fmsubs h),
    ("fnmadd", h_fnmadd h), ("fnmadds", h_fnmadds h), ("fnmsub", h_fnmsub h),
    ("fnmsubs", h_fnmsubs h), ("frsp", h_frsp h), ("fres", h_fres), ("frsqrte", h_frsqrte),
    ("fctiw", h_fctiw), ("fctiwz", h_fctiwz), ("fsel", h_fsel), ("fmr", h_fmr), ("fneg", h_fneg),
    ("fabs", h_fabs), ("fnabs", h_fnabs), ("fcmpu", h_fcmpu), ("fcmpo", h_fcmpo), ("mffs", h_mffs),
    ("mcrfs", h_mcrfs), ("mtfsfi", h_mtfsfi), ("mtfsf", h_mtfsf), ("mtfsb0", h_mtfsb0),
    ("mtfsb1", h_mtfsb1)]

end Cpu

end OpenPowerMac
