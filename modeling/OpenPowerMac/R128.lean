/-
The Rage 128's register file, its blank clock and its DDC slave:
`machine/include/opm/r128.hpp` and the registers of `machine/src/r128.cpp`.

Registers are kept in native order under their aligned offsets. The offsets of the GUI block
(0x1400 to 0x1FFF) are the engine's and not written here. The board's level register is 0xA0
and its enable register 0xA8: a line is high when it is not driven or driven high.
-/
import OpenPowerMac.Sawtooth

set_option autoImplicit false

namespace OpenPowerMac

/-- What the DDC slave is at, by the source's numbers. -/
inductive DdcState where
  | /-- 0 -/ idle
  | /-- 1: the address byte -/ addr
  | /-- 2: the address has come -/ ackAddr
  | /-- 3: a byte from the host -/ data
  | /-- 4: the byte has come -/ ackData
  | /-- 5: a byte to the host -/ serve
  | /-- 6: the byte is out -/ served
  | /-- 7: the address is being acknowledged -/ addrAcked
  | /-- 8: the byte is being acknowledged -/ dataAcked
  deriving DecidableEq

/-- `R128Cell::Ddc`. -/
structure Ddc where
  state : DdcState
  shift : U8
  bits : ℕ
  addr : U8
  ptr : U8
  sdaOut : Bool
  lastScl : Bool
  lastSda : Bool
  deriving DecidableEq

/-- `R128Cell`, without the engine and what only it uses. -/
structure R128Cell where
  regs : U32 → Option U32
  pllAddr : U32
  pll : U32 → Option U32
  palIdx : U32
  pal : U32 → U32
  fbBase : U32
  regBase : U32
  gpioScl : U32
  gpioSda : U32
  ddc : Ddc
  vblNextTb : U64
  tbNow : U64
  vblEnabled : Bool
  /-- `gVblTbPeriod`, a switch of the host's: 0 is the nominal period. -/
  vblTbPeriod : U64
  /-- `gEng2dOn`. -/
  eng2dOn : Bool

/-! ## The DDC slave -/

namespace Ddc

def powerOn : Ddc where
  state := .idle
  shift := 0#8
  bits := 0
  addr := 0#8
  ptr := 0#8
  sdaOut := true
  lastScl := true
  lastSda := true

/-- The bytes of `edidByte` that are not zero, but for the checksum. -/
def edidTable (at' : U8) : U8 :=
  match at'.toNat with
  | 1 | 2 | 3 | 4 | 5 | 6 => 0xFF#8
  | 8 => 0x06#8 | 9 => 0x10#8 | 10 => 0x01#8 | 11 => 0x9D#8
  | 16 => 0x0A#8 | 17 => 0x0B#8 | 18 => 0x01#8 | 19 => 0x03#8
  | 20 => 0x0E#8 | 21 => 0x22#8 | 22 => 0x1B#8 | 23 => 0x78#8
  | 24 => 0x0D#8 | 35 => 0x21#8 | 36 => 0x08#8 | 37 => 0x80#8
  | 38 => 0x61#8 | 39 => 0x40#8 | 40 => 0x81#8 | 41 => 0x40#8
  | 42 => 0x81#8 | 43 => 0x80#8 | 44 => 0xC9#8 | 45 => 0x40#8
  | 46 => 0xD1#8 | 47 => 0xC0#8 | 48 => 0xD1#8 | 49 => 0x40#8
  | 50 | 51 | 52 | 53 => 0x01#8
  | 54 => 0x31#8 | 55 => 0x40#8 | 56 => 0x80#8 | 57 => 0xE0#8
  | 58 => 0x00#8 | 59 => 0x18#8 | 60 => 0x10#8 | 61 => 0x20#8
  | _ => 0x00#8

/-- `edidByte`: the last byte makes the sum zero. -/
def edidByte (at' : U8) : U8 :=
  if at' = 127#8 then
    0#8 - (List.range 127).foldl (fun s k => s + edidTable (BitVec.ofNat 8 k)) 0#8
  else edidTable at'

/-- A bit of the host's is shifted in. Both ends can pull the line down. -/
def shiftIn (d : Ddc) (sda : Bool) : U8 :=
  (d.shift <<< 1) ||| (if sda ∧ d.sdaOut then 1#8 else 0#8)

/-- A rising edge of the clock: a bit is sampled. -/
def rise (d : Ddc) (sda : Bool) : Ddc :=
  match d.state with
  | .addr =>
    let s := d.shiftIn sda
    if d.bits + 1 = 8 then
      { d with
        shift := s, addr := s, bits := 0
        state := if s &&& 0xFE#8 = 0xA0#8 then .ackAddr else .idle }
    else { d with shift := s, bits := d.bits + 1 }
  | .data =>
    let s := d.shiftIn sda
    if d.bits + 1 = 8 then { d with shift := s, ptr := s, bits := 0, state := .ackData }
    else { d with shift := s, bits := d.bits + 1 }
  | .addrAcked =>
    if d.addr &&& 1#8 ≠ 0#8 then { d with state := .serve, shift := edidByte d.ptr, bits := 0 }
    else { d with state := .data, shift := 0#8, bits := 0 }
  | .dataAcked => { d with state := .data, bits := 0 }
  | .serve =>
    if d.bits + 1 = 8 then { d with bits := 0, state := .served, ptr := d.ptr + 1#8 }
    else { d with bits := d.bits + 1 }
  | _ => d

/-- A falling edge: the line is driven. -/
def fall (d : Ddc) : Ddc :=
  match d.state with
  | .ackAddr => { d with sdaOut := false, state := .addrAcked }
  | .ackData => { d with sdaOut := false, state := .dataAcked }
  | .serve => { d with sdaOut := decide (d.shift &&& (0x80#8 >>> d.bits) ≠ 0#8) }
  | .served => { d with sdaOut := true, state := .serve, shift := edidByte d.ptr, bits := 0 }
  | _ => { d with sdaOut := true }

/-- `ddcStep`. A start resets the count of bits wherever it comes, a stop makes it idle. -/
def step (d : Ddc) (scl sda : Bool) : Ddc :=
  if d.lastScl ∧ scl ∧ sda ≠ d.lastSda then
    if sda then { d with state := .idle, sdaOut := true, lastSda := sda }
    else { d with state := .addr, shift := 0#8, bits := 0, sdaOut := true, lastSda := sda }
  else
    let d := if scl ∧ ¬ d.lastScl then d.rise sda
      else if ¬ scl ∧ d.lastScl then d.fall
      else d
    { d with lastScl := scl, lastSda := sda }

end Ddc

/-! ## The registers -/

namespace R128Cell

def kClockCntlIndex : U32 := 0x0008#32
def kClockCntlData : U32 := 0x000C#32
def kGenIntCntl : U32 := 0x0040#32
def kGenIntStatus : U32 := 0x0044#32
def kGpioMonid : U32 := 0x0068#32
def kGpioDvi : U32 := 0x006C#32
def kGpioA0 : U32 := 0x00A0#32
def kGpioA4 : U32 := 0x00A4#32
def kGpioA8 : U32 := 0x00A8#32
def kConfigMemsize : U32 := 0x00F8#32
def kConfigAper0Base : U32 := 0x0100#32
def kConfigAper1Base : U32 := 0x0104#32
def kConfigAperSize : U32 := 0x0108#32
def kConfigReg1Base : U32 := 0x010C#32
def kConfigRegAperSize : U32 := 0x0110#32
def kPm4Stat : U32 := 0x07B8#32
def kGuiStat : U32 := 0x1740#32
def kGuiStatIdle : U32 := 0x00000040#32
def kAper1Offset : U32 := 0x02000000#32
def kDdcSclBit : U32 := 0x00800000#32
def kDdcSdaBit : U32 := 0x00400000#32
def kCrtcVblankInt : U32 := 0x00000001#32
def kGenIntAckMask : U32 := 0x000F040F#32
def kTbPerVblank : U64 := 416666#64

def swap32 (v : U32) : U32 :=
  (v >>> 24) ||| ((v >>> 8) &&& 0xFF00#32) ||| ((v <<< 8) &&& 0xFF0000#32) ||| (v <<< 24)

/-- As it is made. -/
def powerOn : R128Cell where
  regs := fun _ => none
  pllAddr := 0#32
  pll := fun _ => none
  palIdx := 0#32
  pal := fun _ => 0#32
  fbBase := 0#32
  regBase := 0#32
  gpioScl := 0#32
  gpioSda := 0#32
  ddc := Ddc.powerOn
  vblNextTb := 0#64
  tbNow := 0#64
  vblEnabled := true
  vblTbPeriod := 0#64
  eng2dOn := true

variable (c : R128Cell)

/-- `rd`. -/
def rd (off : U32) : U32 := (c.regs off).getD 0#32

def setReg (off v : U32) : R128Cell := { c with regs := Function.update c.regs off (some v) }

theorem rd_setReg_self (c : R128Cell) (off v : U32) : (c.setReg off v).rd off = v := by
  simp [setReg, rd]

theorem rd_setReg_of_ne (c : R128Cell) {off off' : U32} (v : U32) (h : off' ≠ off) :
    (c.setReg off v).rd off' = c.rd off' := by
  simp [setReg, rd, Function.update_of_ne h]

/-- What the master makes of a line: its level where it is driven. -/
def masterHigh (bit : U32) : Bool :=
  decide (c.gpioScl &&& bit = 0#32) || decide (c.gpioSda &&& bit ≠ 0#32)

/-- A line as it is: the slave pulls only the data line down. -/
def pin (bit : U32) : Bool := c.masterHigh bit && (if bit = kDdcSdaBit then c.ddc.sdaOut else true)

/-- `regRead`. -/
def regRead (idx : U32) : U32 :=
  let off := idx <<< 2
  if c.eng2dOn ∧ (off = kGuiStat ∨ off = kPm4Stat) then kGuiStatIdle
  else if off = kConfigAper0Base then c.fbBase
  else if off = kConfigAper1Base then c.fbBase + kAper1Offset
  else if off = kConfigReg1Base then c.regBase
  else if off = kConfigRegAperSize then 0x00004000#32
  else if off = kConfigMemsize ∨ off = kConfigAperSize then (c.regs off).getD 0x02000000#32
  else if off = kGenIntStatus then
    -- without a timed vertical blank one is told whenever its interrupt is enabled
    if c.vblEnabled then c.rd kGenIntStatus
    else if c.rd kGenIntCntl &&& kCrtcVblankInt ≠ 0#32 then c.rd kGenIntStatus ||| kCrtcVblankInt
    else c.rd kGenIntStatus
  else if off = kClockCntlIndex then c.pllAddr
  else if off = kClockCntlData then (c.pll (c.pllAddr &&& 0x3F#32)).getD 0#32
  else if off = kGpioA0 ∨ off = kGpioA4 ∨ off = kGpioA8 then
    (c.rd off &&& 0xFF3FFFFF#32)
      ||| (if c.pin 0x00400000#32 then 0x00400000#32 else 0#32)
      ||| (if c.pin 0x00800000#32 then 0x00800000#32 else 0#32)
  else if off = kGpioMonid ∨ off = kGpioDvi then (c.rd off &&& 0x00FFFFFF#32) ||| 0x0F000000#32
  else c.rd off

/-- `R128Cell::read`. -/
def read (off : U32) (len : ℕ) : U32 :=
  let native := c.regRead (off >>> 2)
  if len = 4 then swap32 native
  else (List.range len).foldl
    (fun r k =>
      (r <<< 8) ||| ((native >>> (8 * ((off + BitVec.ofNat 32 k) &&& 3#32).toNat)) &&& 0xFF#32))
    0#32

/-- The native value a write brings: a narrow one takes its lanes in what is read there. -/
def native (off v : U32) (len : ℕ) : U32 :=
  if len = 4 then swap32 v else SawtoothBus.laneMerge (c.regRead (off >>> 2)) off v len

def vblPeriod : U64 := if c.vblTbPeriod ≠ 0#64 then c.vblTbPeriod else kTbPerVblank

/-- A write to one of the line registers, which the slave steps on. -/
def gpioWrite (aligned native : U32) : R128Cell :=
  let c := if aligned = kGpioA0 then { c with gpioSda := native } else { c with gpioScl := native }
  let c := c.setReg aligned native
  { c with ddc := c.ddc.step (c.masterHigh kDdcSclBit) (c.masterHigh kDdcSdaBit) }

/-- Arming starts the blank clock a whole period out, disarming parks it. -/
def genIntCntlWrite (native : U32) : R128Cell :=
  if native &&& kCrtcVblankInt ≠ 0#32 then
    if c.vblNextTb = 0#64 then { c with vblNextTb := c.tbNow + c.vblPeriod } else c
  else { c with vblNextTb := 0#64 }

/-- `R128Cell::write`, outside the GUI block. -/
def write (off v : U32) (len : ℕ) : R128Cell :=
  let native := c.native off v len
  let aligned := off &&& ~~~3#32
  if aligned = kClockCntlIndex then { c with pllAddr := native &&& 0xFF#32 }.setReg aligned native
  else if aligned = kGpioA0 ∨ aligned = kGpioA8 then c.gpioWrite aligned native
  else if aligned = kClockCntlData then
    { c with pll := Function.update c.pll (c.pllAddr &&& 0x3F#32) (some native) }.setReg
      aligned native
  -- the palette's index, then its data, which moves the index on
  else if aligned = 0x00B0#32 then { c with palIdx := native &&& 0xFF#32 }.setReg aligned native
  else if aligned = 0x00B4#32 then
    { c with
      pal := Function.update c.pal (c.palIdx &&& 0xFF#32) (native &&& 0x00FFFFFF#32)
      palIdx := (c.palIdx + 1#32) &&& 0xFF#32 }.setReg aligned native
  else if aligned = kGenIntCntl ∧ c.vblEnabled then
    (c.genIntCntlWrite native).setReg aligned native
  -- written ones acknowledge
  else if aligned = kGenIntStatus ∧ c.vblEnabled then
    c.setReg kGenIntStatus (c.rd kGenIntStatus &&& ~~~(native &&& kGenIntAckMask))
  else c.setReg aligned native

/-! ## The blank clock -/

/-- CRTC_VBLANK_INT stands latched. -/
def Latched : Prop := c.rd kGenIntStatus &&& kCrtcVblankInt ≠ 0#32

instance : Decidable c.Latched := inferInstanceAs (Decidable (_ ≠ _))

/-- `nextTickTb`. -/
def nextTickTb : U64 :=
  if c.vblEnabled = false ∨ c.vblNextTb = 0#64 then ~~~0#64
  else
    let per := c.vblPeriod
    if c.Latched ∧ per ≤ c.vblNextTb then
      let expiry := (c.vblNextTb - per) + per / 4#64 + 1#64
      if expiry < c.vblNextTb then expiry else c.vblNextTb
    else c.vblNextTb

/-- An unanswered blank has stood for more than a quarter of a period. -/
def Expired (tb : U64) : Prop :=
  c.Latched ∧ c.vblPeriod ≤ c.vblNextTb
    ∧ (c.vblNextTb - c.vblPeriod) + c.vblPeriod / 4#64 < tb

instance (tb : U64) : Decidable (c.Expired tb) := inferInstanceAs (Decidable (_ ∧ _))

/-- The expiry half of `tick`. -/
def tickExpire (tb : U64) : R128Cell :=
  if c.Expired tb then c.setReg kGenIntStatus (c.rd kGenIntStatus &&& ~~~kCrtcVblankInt) else c

/-- The blank itself. -/
def tickBlank (tb : U64) : R128Cell :=
  if tb < c.vblNextTb then c
  else
    let c := { c with vblNextTb := tb + c.vblPeriod }
    if c.rd kGenIntCntl &&& kCrtcVblankInt = 0#32 then c
    else c.setReg kGenIntStatus (c.rd kGenIntStatus ||| kCrtcVblankInt)

/-- `R128Cell::tick`. -/
def tick (tb : U64) : R128Cell :=
  let c := { c with tbNow := tb }
  if c.vblEnabled = false ∨ c.vblNextTb = 0#64 then c
  else (c.tickExpire tb).tickBlank tb

/-- `irqLine`. -/
def irqLine : Bool :=
  c.vblEnabled && decide (c.rd kGenIntCntl &&& c.rd kGenIntStatus &&& kGenIntAckMask ≠ 0#32)

end R128Cell

end OpenPowerMac
