/-
The VIA of the mac-io and the wires to the Cuda: `machine/src/macio.cpp`.

Three lines of port B pace the bytes of a transfer through the shift register: the host
opens it with TIP and clocks it with TACK, the Cuda asks for one with TREQ, all of them low
when asserted. Which way a transfer goes is the Cuda's to say when the host opens it
(`transferOpens`).

What is behind the wires is a parameter, as it is a class of its own in the source.
-/
import OpenPowerMac.Cuda

set_option autoImplicit false

namespace OpenPowerMac

/-- The packet engine as the VIA sees it. -/
structure PacketEngine (κ : Type) where
  hostPacket : κ → List U8 → κ
  response : κ → List U8
  consumeResponse : κ → κ

namespace PacketEngine

variable {κ : Type}

def hasResponse (E : PacketEngine κ) (k : κ) : Prop := E.response k ≠ []

instance (E : PacketEngine κ) (k : κ) : Decidable (E.hasResponse k) :=
  inferInstanceAs (Decidable (E.response k ≠ []))

end PacketEngine

/-- The engine that the machine has. -/
def Cuda.engine : PacketEngine Cuda where
  hostPacket := Cuda.hostPacket
  response := Cuda.resp
  consumeResponse := Cuda.consumeResponse

/-- The registers of the VIA. -/
inductive ViaReg where
  | vORB | vORA | vDDRB | vDDRA | vT1CL | vT1CH | vT1LL | vT1LH
  | vT2CL | vT2CH | vSR | vACR | vPCR | vIFR | vIER | vORAnh
  deriving DecidableEq

open ViaReg

def bTREQ : U8 := 0x08#8
def bTACK : U8 := 0x10#8
def bTIP : U8 := 0x20#8

def iSR : U8 := 0x04#8
def iT2 : U8 := 0x20#8
def iT1 : U8 := 0x40#8

/-- A line of port B is asserted, that is low. -/
def Low (bit orb : U8) : Prop := orb &&& bit = 0#8

instance (bit orb : U8) : Decidable (Low bit orb) := inferInstanceAs (Decidable (_ = _))

/-- `MacIo`, as much of it as the VIA reads and writes. -/
structure MacIo (κ : Type) where
  cuda : κ
  via : ViaReg → U8
  ifr : U8
  ier : U8
  picEvent : U32
  t1 : U16
  t2 : U16
  t1Running : Bool
  t2Running : Bool
  viaDivider : ℕ
  hostPkt : List U8
  respIndex : ℕ
  respDelay : ℕ
  syncPulse : ℕ
  sending : Bool
  receiving : Bool
  syncing : Bool
  treq : Bool

namespace MacIo

variable {κ : Type}

/-- `MacIo::MacIo`: TREQ is negated at rest. -/
def powerOn (k : κ) : MacIo κ where
  cuda := k
  via := fun r => if r = vORB then bTREQ else 0#8
  ifr := 0#8
  ier := 0#8
  picEvent := 0#32
  t1 := 0xFFFF#16
  t2 := 0xFFFF#16
  t1Running := true
  t2Running := false
  viaDivider := 0
  hostPkt := []
  respIndex := 0
  respDelay := 0
  syncPulse := 0
  sending := false
  receiving := false
  syncing := false
  treq := false

/-- Any of the modes in which the shift register shifts out. -/
def ShiftsOut (s : MacIo κ) : Prop := s.via vACR &&& 0x10#8 ≠ 0#8

instance (s : MacIo κ) : Decidable s.ShiftsOut := inferInstanceAs (Decidable (_ ≠ _))

def setVia (s : MacIo κ) (r : ViaReg) (v : U8) : MacIo κ :=
  { s with via := Function.update s.via r v }

/-- `picLevels`, of the first block: the VIA holds source 18. -/
def picLevels (s : MacIo κ) : U32 := if s.ifr &&& s.ier &&& 0x7F#8 ≠ 0#8 then 1#32 <<< 18 else 0#32

def picLatch (s : MacIo κ) : MacIo κ := { s with picEvent := s.picEvent ||| s.picLevels }

def setIfr (s : MacIo κ) (bits : U8) : MacIo κ :=
  { s with ifr := s.ifr ||| (bits &&& 0x7F#8) }.picLatch

def clearIfr (s : MacIo κ) (bits : U8) : MacIo κ := { s with ifr := s.ifr &&& ~~~(bits &&& 0x7F#8) }

/-- TREQ on the wire: asserted is low. -/
def wired (treq : Bool) (orb : U8) : U8 := if treq then orb &&& ~~~bTREQ else orb ||| bTREQ

/-- `updateTreq`: the wire follows, and its falling edge is a flag of its own. -/
def updateTreq (s : MacIo κ) : MacIo κ :=
  let old := s.via vORB
  let now := wired s.treq old
  if ¬ Low bTREQ old ∧ Low bTREQ now then (s.setVia vORB now).setIfr 0x10#8 else s.setVia vORB now

/-- `treq_ = v` with the `updateTreq` behind it. -/
def setTreq (s : MacIo κ) (v : Bool) : MacIo κ := { s with treq := v }.updateTreq

variable (E : PacketEngine κ)

/-- The next byte of the response goes to the shift register. TREQ is negated with the last
one, so that the host knows to stop. -/
def shiftByte (s : MacIo κ) (b : U8) : MacIo κ :=
  let s := ({ s with respIndex := s.respIndex + 1 }.setVia vSR b).setIfr iSR
  if (E.response s.cuda).length ≤ s.respIndex then s.setTreq false else s

/-- `cudaClockByte`: one byte, paced by an edge of TACK. -/
def cudaClockByte (s : MacIo κ) : MacIo κ :=
  if ¬ Low bTIP (s.via vORB) then s
  else if s.ShiftsOut then
    { s with receiving := true, hostPkt := s.hostPkt ++ [s.via vSR] }.setIfr iSR
  else if s.sending = true ∧ E.hasResponse s.cuda then
    match (E.response s.cuda)[s.respIndex]? with
    | none => s
    | some b => s.shiftByte E b
  else s

/-- An edge of TACK inside a transfer. In the null one the Cuda releases the bus. -/
def tackEdge (s : MacIo κ) : MacIo κ :=
  if s.syncing then (s.setTreq false).setIfr iSR else s.cudaClockByte E

/-- A transfer opens. A response that is queued makes it the host's coming to collect it. -/
def transferOpens (s : MacIo κ) : MacIo κ :=
  match E.response s.cuda with
  | b :: _ => { s with sending := true, respIndex := 0 }.shiftByte E b
  | [] =>
    if s.ShiftsOut then
      { s with receiving := true, hostPkt := [s.via vSR] }.setIfr iSR
    else ({ s with syncing := true }.setTreq true).setIfr iSR

/-- The host's packet is over. -/
def packetEnds (s : MacIo κ) : MacIo κ :=
  if s.receiving then
    let s := { s with receiving := false }
    if s.hostPkt ≠ [] then
      let s := { s with cuda := E.hostPacket s.cuda s.hostPkt, hostPkt := [] }
      if E.hasResponse s.cuda then { s with respDelay := 65536 } else s
    else s
  else s

/-- The response is over. -/
def responseEnds (s : MacIo κ) : MacIo κ :=
  if s.sending then
    { s with sending := false, cuda := E.consumeResponse s.cuda, respIndex := 0 }.setTreq false
  else s

/-- A transfer closes. -/
def transferCloses (s : MacIo κ) : MacIo κ :=
  { (s.packetEnds E).responseEnds E with syncing := false }.setIfr iSR

/-- Sync stepping: outside a transfer TREQ answers TACK. -/
def syncStep (s : MacIo κ) : MacIo κ :=
  let s := s.setTreq (decide (Low bTACK (s.via vORB)))
  if s.treq then s.setIfr iSR else { s with syncPulse := 64 }

/-- A write to port B: the output bits change, and the edges of TIP and TACK act. -/
def orbWrite (s : MacIo κ) (v : U8) : MacIo κ :=
  let old := s.via vORB
  let outMask := s.via vDDRB
  let s := (s.setVia vORB ((old &&& ~~~outMask) ||| (v &&& outMask))).updateTreq
  let now := s.via vORB
  let tackFlipped := (old ^^^ now) &&& bTACK ≠ 0#8
  if Low bTIP now ∧ ¬ Low bTIP old then s.transferOpens E
  else if ¬ Low bTIP now ∧ Low bTIP old then s.transferCloses E
  else if Low bTIP now ∧ tackFlipped then s.tackEdge E
  else if ¬ Low bTIP now ∧ tackFlipped ∧ s.sending = false ∧ s.receiving = false
      ∧ (¬ E.hasResponse s.cuda ∨ s.respDelay ≠ 0) then s.syncStep
  else s

/-- `viaRead`. -/
def viaRead (s : MacIo κ) : ViaReg → U8 × MacIo κ
  | vORB => (s.via vORB, s)
  | vORA | vORAnh =>
    -- the straps of the board are all ones
    ((s.via vORA &&& s.via vDDRA) ||| (0xFF#8 &&& ~~~(s.via vDDRA)), s)
  | vDDRB => (s.via vDDRB, s)
  | vDDRA => (s.via vDDRA, s)
  | vT1CL => (s.t1.setWidth 8, s.clearIfr iT1)
  | vT1CH => ((s.t1 >>> 8).setWidth 8, s)
  | vT1LL => (s.via vT1LL, s)
  | vT1LH => (s.via vT1LH, s)
  | vT2CL => (s.t2.setWidth 8, s.clearIfr iT2)
  | vT2CH => ((s.t2 >>> 8).setWidth 8, s)
  | vSR => (s.via vSR, s.clearIfr iSR)
  | vACR => (s.via vACR, s)
  | vPCR => (s.via vPCR, s)
  | vIFR => (if s.ifr &&& s.ier &&& 0x7F#8 ≠ 0#8 then s.ifr ||| 0x80#8 else s.ifr, s)
  | vIER => (s.ier ||| 0x80#8, s)

/-- `viaWrite`. -/
def viaWrite (s : MacIo κ) : ViaReg → U8 → MacIo κ
  | vORB, v => s.orbWrite E v
  | vORA, v | vORAnh, v => s.setVia vORA v
  | vDDRB, v => s.setVia vDDRB v
  | vDDRA, v => s.setVia vDDRA v
  | vT1CL, v | vT1LL, v => s.setVia vT1LL v
  | vT1LH, v => s.setVia vT1LH v
  | vT1CH, v =>
    { s.setVia vT1CH v with
      t1 := (v.setWidth 16 <<< 8) ||| (s.via vT1LL).setWidth 16, t1Running := true }.clearIfr iT1
  | vT2CL, v => s.setVia vT2CL v
  | vT2CH, v =>
    { s with
      t2 := (v.setWidth 16 <<< 8) ||| (s.via vT2CL).setWidth 16, t2Running := true }.clearIfr iT2
  | vSR, v => (s.setVia vSR v).clearIfr iSR
  | vACR, v => s.setVia vACR v
  | vPCR, v => s.setVia vPCR v
  | vIFR, v => s.clearIfr v
  | vIER, v =>
    if v &&& 0x80#8 ≠ 0#8 then { s with ier := s.ier ||| (v &&& 0x7F#8) }.picLatch
    else { s with ier := s.ier &&& ~~~(v &&& 0x7F#8) }.picLatch

/-! ## The tick -/

/-- A queued response asks for the bus when its delay is over. -/
def tickResponse (s : MacIo κ) : MacIo κ :=
  if s.respDelay ≠ 0 then
    let s := { s with respDelay := s.respDelay - 1 }
    if s.respDelay = 0 ∧ s.sending = false ∧ s.receiving = false ∧ E.hasResponse s.cuda then
      s.setTreq true
    else s
  else s

/-- The pulse of a sync step lands. -/
def tickSync (s : MacIo κ) : MacIo κ :=
  if s.syncPulse ≠ 0 then
    let s := { s with syncPulse := s.syncPulse - 1 }
    if s.syncPulse = 0 then s.setIfr iSR else s
  else s

def tickT1 (s : MacIo κ) : MacIo κ :=
  if s.t1Running then
    if s.t1 = 0#16 then
      let s := s.setIfr iT1
      if s.via vACR &&& 0x40#8 ≠ 0#8 then
        { s with t1 := ((s.via vT1LH).setWidth 16 <<< 8) ||| (s.via vT1LL).setWidth 16 }
      else { s with t1Running := false, t1 := 0xFFFF#16 }
    else { s with t1 := s.t1 - 1#16 }
  else s

def tickT2 (s : MacIo κ) : MacIo κ :=
  if s.t2Running then
    if s.t2 = 0#16 then { s.setIfr iT2 with t2Running := false, t2 := 0xFFFF#16 }
    else { s with t2 := s.t2 - 1#16 }
  else s

/-- `MacIo::tick`: the VIA counts at an eighth of the processor. -/
def tick (s : MacIo κ) : MacIo κ :=
  if s.viaDivider + 1 < 8 then { s with viaDivider := s.viaDivider + 1 }
  else ({ s with viaDivider := 0 }.tickResponse E).tickSync.tickT1.tickT2

end MacIo

end OpenPowerMac
