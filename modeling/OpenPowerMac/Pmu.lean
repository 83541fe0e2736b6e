/-
The PMU and its VIA: `machine/src/pmu.cpp`.

The VIA is a 6522 at a stride of 0x200. The PMU behind it takes and gives one byte a
cycle of the REQ line (port B bit 4, low when asserted), in the direction that the shift
register's mode says. What a frame answers is `buildReply`.
-/
import OpenPowerMac.MacIo

set_option autoImplicit false

namespace OpenPowerMac

open ViaReg

/-- What the timers count by: the timebase where it is wired, else instructions. -/
structure PmuClock where
  now : U64
  tb : Option U64

/-- `PmuVia::vclk`. -/
def PmuClock.vclk (k : PmuClock) : U64 :=
  match k.tb with
  | some tb => tb >>> 5
  | none => k.now / 128#64

/-- `PmuVia`. -/
structure PmuVia where
  portAIn : U8
  resetRequest : Bool
  orb : U8
  ora : U8
  ddrb : U8
  ddra : U8
  t1ll : U8
  t1lh : U8
  t2cl : U8
  t1Load : U16
  t2Load : U16
  t1At : U64
  t2At : U64
  sr : U8
  acr : U8
  pcr : U8
  ifr : U8
  ier : U8
  ack : Bool
  lastReq : Bool
  lastDirIn : Bool
  frame : List U8
  reply : List U8
  replyAt : ℕ

namespace PmuVia

/-- As it is made. -/
def powerOn (straps : U8) : PmuVia where
  portAIn := straps
  resetRequest := false
  orb := 0#8
  ora := 0#8
  ddrb := 0#8
  ddra := 0#8
  t1ll := 0#8
  t1lh := 0#8
  t2cl := 0#8
  t1Load := 0xFFFF#16
  t2Load := 0xFFFF#16
  t1At := 0#64
  t2At := 0#64
  sr := 0#8
  acr := 0#8
  pcr := 0#8
  ifr := 0#8
  ier := 0#8
  ack := true
  lastReq := true
  lastDirIn := false
  frame := []
  reply := []
  replyAt := 0

/-- `regOf`. -/
def regOf (off : U32) : ViaReg :=
  match ((off >>> 9) &&& 0xF#32).toNat with
  | 0 => vORB | 1 => vORA | 2 => vDDRB | 3 => vDDRA
  | 4 => vT1CL | 5 => vT1CH | 6 => vT1LL | 7 => vT1LH
  | 8 => vT2CL | 9 => vT2CH | 10 => vSR | 11 => vACR
  | 12 => vPCR | 13 => vIFR | 15 => vORAnh | _ => vIER

/-! ## The PMU -/

/-- What a frame answers. -/
def replyOf : List U8 → List U8
  | [] => []
  | cmd :: rest =>
    if cmd = 0xEA#8 then [0x0C#8]
    else if cmd = 0xDF#8 then
      match rest with
      | _ :: _ :: d :: k :: _ => [d, k]
      | _ => [0#8, 0#8]
    else [0#8]

/-- `PmuVia::buildReply`. -/
def buildReply (s : PmuVia) : PmuVia := { s with reply := replyOf s.frame, replyAt := 0 }

/-- `PmuVia::nextReply`. -/
def nextReply (s : PmuVia) : U8 × PmuVia :=
  match s.reply[s.replyAt]? with
  | some b => (b, { s with replyAt := s.replyAt + 1 })
  | none => (0#8, s)

/-- The shift register's mode is one of those out. -/
def ShiftsOut (s : PmuVia) : Prop := s.acr &&& 0x10#8 ≠ 0#8

instance (s : PmuVia) : Decidable s.ShiftsOut := inferInstanceAs (Decidable (_ ≠ _))

/-- A byte from the host. PMU_RESET is acted on when it lands as the frame's first. -/
def takeByte (s : PmuVia) : PmuVia :=
  let frame := if s.lastDirIn then [] else s.frame
  let frame := frame ++ [s.sr]
  { s with
    frame := frame
    resetRequest := if frame.length = 1 ∧ s.sr = 0xD0#8 then true else s.resetRequest
    lastDirIn := false
    ack := false }

/-- A byte for the host. -/
def giveByte (s : PmuVia) : PmuVia :=
  let (b, s) := s.nextReply
  { s with sr := b, lastDirIn := true, ack := false }

/-- `PmuVia::reqEdge`. -/
def reqEdge (s : PmuVia) (asserted : Bool) : PmuVia :=
  if asserted then
    if s.ShiftsOut then s.takeByte else s.giveByte
  else
    let s := { s with ack := true }
    if s.ShiftsOut ∧ s.frame ≠ [] then s.buildReply else s

/-! ## The VIA -/

/-- `PmuVia::timerNow`. -/
def timerNow (loaded : U16) (loadedAtV : U64) (k : PmuClock) : U16 :=
  loaded - (k.vclk - loadedAtV).setWidth 16

/-- A timer has counted past zero. -/
def Ran (loaded : U16) (loadedAtV : U64) (k : PmuClock) : Prop :=
  loaded.setWidth 64 + 1#64 ≤ k.vclk - loadedAtV

instance (loaded : U16) (loadedAtV : U64) (k : PmuClock) : Decidable (Ran loaded loadedAtV k) :=
  inferInstanceAs (Decidable (_ ≤ _))

/-- IFR as it is read: the stored flags, and those the counts tell. -/
def flags (s : PmuVia) (k : PmuClock) : U8 :=
  let f := if Ran s.t1Load s.t1At k then s.ifr ||| 0x40#8 else s.ifr
  let f := if Ran s.t2Load s.t2At k then f ||| 0x20#8 else f
  if f &&& s.ier &&& 0x7F#8 ≠ 0#8 then f ||| 0x80#8 else f

/-- `PmuVia::read`. -/
def readReg (s : PmuVia) (k : PmuClock) : ViaReg → U8 × PmuVia
  | vORB =>
    let pins := if s.ack then 0x08#8 else 0#8
    ((s.orb &&& s.ddrb) ||| (pins &&& ~~~s.ddrb), s)
  | vORA | vORAnh => ((s.ora &&& s.ddra) ||| (s.portAIn &&& ~~~s.ddra), s)
  | vDDRB => (s.ddrb, s)
  | vDDRA => (s.ddra, s)
  | vT1CL => ((timerNow s.t1Load s.t1At k).setWidth 8, { s with ifr := s.ifr &&& ~~~0x40#8 })
  | vT1CH => ((timerNow s.t1Load s.t1At k >>> 8).setWidth 8, s)
  | vT1LL => (s.t1ll, s)
  | vT1LH => (s.t1lh, s)
  | vT2CL => ((timerNow s.t2Load s.t2At k).setWidth 8, { s with ifr := s.ifr &&& ~~~0x20#8 })
  | vT2CH => ((timerNow s.t2Load s.t2At k >>> 8).setWidth 8, s)
  | vSR => (s.sr, s)
  | vACR => (s.acr, s)
  | vPCR => (s.pcr, s)
  | vIFR => (s.flags k, s)
  | vIER => (s.ier, s)

/-- Port B: an edge of REQ is the PMU's business. -/
def orbWrite (s : PmuVia) (v : U8) : PmuVia :=
  let s := { s with orb := v }
  let req := decide (v &&& 0x10#8 ≠ 0#8)
  if req ≠ s.lastReq then { s with lastReq := req }.reqEdge (!req) else s

/-- `PmuVia::write`. -/
def writeReg (s : PmuVia) (k : PmuClock) : ViaReg → U8 → PmuVia
  | vORB, v => s.orbWrite v
  | vORA, v | vORAnh, v => { s with ora := v }
  | vDDRB, v => { s with ddrb := v }
  | vDDRA, v => { s with ddra := v }
  | vT1CL, v | vT1LL, v => { s with t1ll := v }
  | vT1CH, v =>
    { s with
      t1Load := (v.setWidth 16 <<< 8) ||| s.t1ll.setWidth 16
      t1At := k.vclk
      ifr := s.ifr &&& ~~~0x40#8 }
  | vT1LH, v => { s with t1lh := v }
  | vT2CL, v => { s with t2cl := v }
  | vT2CH, v =>
    { s with
      t2Load := (v.setWidth 16 <<< 8) ||| s.t2cl.setWidth 16
      t2At := k.vclk
      ifr := s.ifr &&& ~~~0x20#8 }
  | vSR, v => { s with sr := v }
  | vACR, v => { s with acr := v }
  | vPCR, v => { s with pcr := v }
  | vIFR, v => { s with ifr := s.ifr &&& ~~~v }
  | vIER, v =>
    if v &&& 0x80#8 ≠ 0#8 then { s with ier := s.ier ||| (v &&& 0x7F#8) }
    else { s with ier := s.ier &&& ~~~v }

def read (s : PmuVia) (off : U32) (k : PmuClock) : U8 × PmuVia := s.readReg k (regOf off)

def write (s : PmuVia) (off : U32) (v : U8) (k : PmuClock) : PmuVia := s.writeReg k (regOf off) v

/-! ## Accesses -/

/-- What the host does to the cell. -/
inductive Access where
  | read (off : U32) (k : PmuClock)
  | write (off : U32) (v : U8) (k : PmuClock)

/-- What the cell is after an access. -/
def after (s : PmuVia) : Access → PmuVia
  | .read off k => (s.read off k).2
  | .write off v k => s.write off v k

end PmuVia

end OpenPowerMac
