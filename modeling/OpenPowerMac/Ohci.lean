/-
The OHCI host controller and the HID device behind it: `machine/src/ohci.cpp` and
`machine/include/opm/ohci.hpp`.

The memory is the whole of the host's, of which guest RAM is the part below `ramSize`:
nothing keeps an index from leaving it but the checks of the source. What a snooped access
sees is what it holds, so the snoop hooks have no trace here. Censuses and logs are left
out, and so are the registers that nothing but a register read looks at.
-/
import OpenPowerMac.Word
import Mathlib.Data.List.Basic
import Mathlib.Logic.Function.Basic
import Mathlib.Logic.Function.Iterate

set_option autoImplicit false

namespace OpenPowerMac

/-- `Hid`. -/
inductive Hid where
  | keyboard
  | mouse
  deriving DecidableEq

/-- `reportLen_`. -/
def Hid.reportLen : Hid → ℕ
  | keyboard => 8
  | mouse => 4

/-- `OhciCell`. The last two fields are not in the source: the indices at which memory was
accessed, and the descriptors that were followed. -/
structure OhciCell where
  hasRam : Bool
  ram : U32 → U8
  ramSize : U32
  control : U32
  intStatus : U32
  hcca : U32
  ctrlHead : U32
  bulkHead : U32
  doneHead : U32
  fmNumber : U32
  rhDescA : U32
  rhDescB : U32
  rhPort : Fin 2 → U32
  portReset : Fin 2 → U32
  portPower : Fin 2 → U32
  livePortPower : Bool
  setup : Fin 8 → U8
  reply : List U8
  address : U8
  pendingAddress : U8
  pending : List U8
  hid : Hid
  accDx : ℤ
  accDy : ℤ
  buttons : U8
  sentButtons : U8
  lastFrameTb : U64
  used : List U32
  met : List U32

namespace OhciCell

def kTbPerFrame : U64 := 25000#64
def kResetFrames : U32 := 10#32
def kConnectFrames : U32 := 3#32

/-! ## Memory -/

/-- Memory is accessed at `n` places from `pa` on. -/
def touch (c : OhciCell) (pa : U32) (n : ℕ) : OhciCell :=
  { c with used := ((List.range n).map fun k => pa + BitVec.ofNat 32 k) ++ c.used }

/-- A descriptor is followed. -/
def meet (c : OhciCell) (pa : U32) : OhciCell := { c with met := pa :: c.met }

/-- The word at an address. -/
def wordLE (m : U32 → U8) (pa : U32) : U32 :=
  (m pa).setWidth 32 ||| ((m (pa + 1#32)).setWidth 32 <<< 8) ||| ((m (pa + 2#32)).setWidth 32 <<< 16)
    ||| ((m (pa + 3#32)).setWidth 32 <<< 24)

/-- A word stored. -/
def storeLE (m : U32 → U8) (pa v : U32) : U32 → U8 :=
  Function.update (Function.update (Function.update (Function.update m pa (v.setWidth 8))
    (pa + 1#32) ((v >>> 8).setWidth 8)) (pa + 2#32) ((v >>> 16).setWidth 8))
    (pa + 3#32) ((v >>> 24).setWidth 8)

/-- The check of `ldLe` and `stLe`. -/
def Refused (c : OhciCell) (pa : U32) : Prop := c.hasRam = false ∨ pa + 4#32 > c.ramSize

instance (c : OhciCell) (pa : U32) : Decidable (c.Refused pa) := inferInstanceAs (Decidable (_ ∨ _))

/-- `ldLe`, its value. -/
def word (c : OhciCell) (pa : U32) : U32 := if c.Refused pa then 0#32 else wordLE c.ram pa

/-- `ldLe`, what it does. -/
def look (c : OhciCell) (pa : U32) : OhciCell := if c.Refused pa then c else c.touch pa 4

/-- The four words of a descriptor are read. -/
def readDesc (c : OhciCell) (pa : U32) : OhciCell :=
  ((((c.meet pa).look pa).look (pa + 4#32)).look (pa + 8#32)).look (pa + 12#32)

/-- `stLe`. -/
def stLe (c : OhciCell) (pa v : U32) : OhciCell :=
  if c.Refused pa then c else { c.touch pa 4 with ram := storeLE c.ram pa v }

/-- The loop that takes a SETUP packet's bytes, from byte `k` on. -/
def takeSetup (c : OhciCell) (cbp : U32) : ℕ → ℕ → OhciCell
  | 0, _ => c
  | n + 1, k =>
      let pa := cbp + BitVec.ofNat 32 k
      if h : k < 8 ∧ pa < c.ramSize then
        takeSetup { c.touch pa 1 with setup := Function.update c.setup ⟨k, h.1⟩ (c.ram pa) } cbp n (k + 1)
      else c

/-- The loop that hands bytes to the guest's buffer. -/
def putBytes (c : OhciCell) (pa : U32) : List U8 → OhciCell
  | [] => c
  | b :: bs =>
      if pa < c.ramSize then
        putBytes { c.touch pa 1 with ram := Function.update c.ram pa b } (pa + 1#32) bs
      else c

/-! ## The device -/

/-- The device descriptor. -/
def deviceDescriptor (hid : Hid) : List U8 :=
  [18#8, 1#8, 0x10#8, 0x01#8, 0#8, 0#8, 0#8, 8#8, 0xAC#8, 0x05#8, 0x01#8,
    if hid = .mouse then 0x03#8 else 0x02#8, 0x00#8, 0x01#8, 1#8, 2#8, 0#8, 1#8]

/-- The configuration, interface, HID and endpoint descriptors. -/
def configDescriptor (hid : Hid) : List U8 :=
  [9#8, 2#8, 34#8, 0#8, 1#8, 1#8, 0#8, 0xA0#8, 25#8,
    9#8, 4#8, 0#8, 0#8, 1#8, 3#8, 1#8, if hid = .mouse then 2#8 else 1#8, 0#8,
    9#8, 0x21#8, 0x11#8, 0x01#8, 0#8, 1#8, 0x22#8, if hid = .mouse then 52#8 else 63#8, 0#8,
    7#8, 5#8, 0x81#8, 3#8, 8#8, 0#8, 10#8]

/-- The product strings. -/
def productString (hid : Hid) (index : U16) : List U8 :=
  if index = 1#16 then
    [0x4F#8, 0x70#8, 0x65#8, 0x6E#8, 0x50#8, 0x6F#8, 0x77#8, 0x65#8, 0x72#8, 0x4D#8, 0x61#8, 0x63#8]
  else if hid = .mouse then [0x4D#8, 0x6F#8, 0x75#8, 0x73#8, 0x65#8]
  else [0x4B#8, 0x65#8, 0x79#8, 0x62#8, 0x6F#8, 0x61#8, 0x72#8, 0x64#8]

def stringDescriptor (hid : Hid) (index : U16) : List U8 :=
  if index = 0#16 then [4#8, 3#8, 0x09#8, 0x04#8]
  else
    let s := productString hid index
    BitVec.ofNat 8 (2 + 2 * s.length) :: 3#8 :: s.flatMap fun b => [b, 0#8]

/-- The HID report descriptor. -/
def reportDescriptor : Hid → List U8
  | .mouse =>
      [0x05#8, 0x01#8, 0x09#8, 0x02#8, 0xA1#8, 0x01#8, 0x09#8, 0x01#8, 0xA1#8, 0x00#8,
        0x05#8, 0x09#8, 0x19#8, 0x01#8, 0x29#8, 0x05#8, 0x15#8, 0x00#8, 0x25#8, 0x01#8,
        0x95#8, 0x05#8, 0x75#8, 0x01#8, 0x81#8, 0x02#8, 0x95#8, 0x01#8, 0x75#8, 0x03#8,
        0x81#8, 0x01#8, 0x05#8, 0x01#8, 0x09#8, 0x30#8, 0x09#8, 0x31#8, 0x09#8, 0x38#8,
        0x15#8, 0x81#8, 0x25#8, 0x7F#8, 0x75#8, 0x08#8, 0x95#8, 0x03#8, 0x81#8, 0x06#8,
        0xC0#8, 0xC0#8]
  | .keyboard =>
      [0x05#8, 0x01#8, 0x09#8, 0x06#8, 0xA1#8, 0x01#8, 0x05#8, 0x07#8, 0x19#8, 0xE0#8,
        0x29#8, 0xE7#8, 0x15#8, 0x00#8, 0x25#8, 0x01#8, 0x75#8, 0x01#8, 0x95#8, 0x08#8,
        0x81#8, 0x02#8, 0x95#8, 0x01#8, 0x75#8, 0x08#8, 0x81#8, 0x03#8, 0x95#8, 0x05#8,
        0x75#8, 0x01#8, 0x05#8, 0x08#8, 0x19#8, 0x01#8, 0x29#8, 0x05#8, 0x91#8, 0x02#8,
        0x95#8, 0x01#8, 0x75#8, 0x03#8, 0x91#8, 0x03#8, 0x95#8, 0x06#8, 0x75#8, 0x08#8,
        0x15#8, 0x00#8, 0x25#8, 0x65#8, 0x05#8, 0x07#8, 0x19#8, 0x00#8, 0x29#8, 0x65#8,
        0x81#8, 0x00#8, 0xC0#8]

/-- `buildDescriptor`: the reply to the packet in `setup_`. -/
def buildDescriptor (c : OhciCell) : OhciCell :=
  let type := c.setup 0
  let req := c.setup 1
  let val : U16 := (c.setup 2).setWidth 16 ||| ((c.setup 3).setWidth 16 <<< 8)
  let len : U16 := (c.setup 6).setWidth 16 ||| ((c.setup 7).setWidth 16 <<< 8)
  let answer (r : List U8) : OhciCell := { c with reply := r.take len.toNat }
  if type = 0x80#8 ∧ req = 0x06#8 then
    match val >>> 8 with
    | 1#16 => answer (deviceDescriptor c.hid)
    | 2#16 => answer (configDescriptor c.hid)
    | 3#16 => answer (stringDescriptor c.hid (val &&& 0xFF#16))
    | _ => answer []
  else if type = 0x81#8 ∧ req = 0x06#8 ∧ val >>> 8 = 0x22#16 then answer (reportDescriptor c.hid)
  else if type = 0xA1#8 ∧ req = 0x01#8 then
    if c.hid = .mouse then answer [c.buttons, 0#8, 0#8, 0#8]
    else answer (List.replicate c.hid.reportLen 0#8)
  else if type = 0x00#8 ∧ req = 0x05#8 then
    { answer [] with pendingAddress := val.setWidth 8 &&& 0x7F#8 }
  else answer []

/-- The address that a SET_ADDRESS left takes effect. -/
def adopt (c : OhciCell) : OhciCell :=
  if c.pendingAddress ≠ 0#8 then { c with address := c.pendingAddress, pendingAddress := 0#8 } else c

/-- The part of an axis that one report carries. -/
def axisStep (acc : ℤ) : ℤ := if acc > 127 then 127 else if acc < -127 then -127 else acc

/-- A SETUP packet. -/
def setupStage (c : OhciCell) (cbp : U32) : U32 × OhciCell :=
  (8#32, (takeSetup c cbp 8 0).buildDescriptor)

/-- The bytes a buffer has room for. -/
def movedOf (avail : U32) (size : ℕ) : U32 := if avail.toNat < size then avail else BitVec.ofNat 32 size

/-- IN on endpoint zero: what is owed of the reply. -/
def inControl (c : OhciCell) (cbp avail : U32) : U32 × OhciCell :=
  let moved := movedOf avail c.reply.length
  let c' := { putBytes c cbp (c.reply.take moved.toNat) with reply := c.reply.drop moved.toNat }
  (moved, if c'.reply.isEmpty then c'.adopt else c')

/-- IN on the mouse's endpoint, NAKed while nothing has changed. -/
def inMouse (c : OhciCell) (cbp avail : U32) : Option (U32 × OhciCell) :=
  if c.accDx = 0 ∧ c.accDy = 0 ∧ c.buttons = c.sentButtons then none
  else
    let dx := axisStep c.accDx
    let dy := axisStep c.accDy
    let moved := movedOf avail c.hid.reportLen
    let rep := [c.buttons, BitVec.ofInt 8 dx, BitVec.ofInt 8 dy, 0#8]
    let c' := { c with accDx := c.accDx - dx, accDy := c.accDy - dy, sentButtons := c.buttons }
    some (moved, putBytes c' cbp (rep.take moved.toNat))

/-- IN on the keyboard's endpoint, NAKed while no report is queued. -/
def inKeyboard (c : OhciCell) (cbp avail : U32) : Option (U32 × OhciCell) :=
  if c.pending.length ≥ c.hid.reportLen then
    let moved := movedOf avail c.hid.reportLen
    let c' := putBytes c cbp (c.pending.take moved.toNat)
    some (moved, { c' with pending := c.pending.drop c.hid.reportLen })
  else none

/-- What a transfer descriptor moves, by its direction; nothing for a NAK. -/
def transfer (c : OhciCell) (dp epn cbp avail : U32) : Option (U32 × OhciCell) :=
  if dp = 0#32 then some (setupStage c cbp)
  else if dp = 2#32 then
    if epn = 0#32 then some (inControl c cbp avail)
    else if c.hid = .mouse then inMouse c cbp avail
    else inKeyboard c cbp avail
  else some (avail, c.adopt)

/-! ## The lists -/

/-- `retire`. -/
def retire (c : OhciCell) (td cc : U32) : OhciCell :=
  let t0 := (c.word td &&& 0x0FFFFFFF#32) ||| (cc <<< 28)
  let c := (c.look td).stLe td t0
  { c.stLe (td + 8#32) c.doneHead with doneHead := td }

/-- `doTd`: the next descriptor, or nothing for a NAK. -/
def doTd (c : OhciCell) (ed0 td : U32) : Option U32 × OhciCell :=
  let t0 := c.word td
  let cbp := c.word (td + 4#32)
  let next := c.word (td + 8#32) &&& ~~~0xF#32
  let be := c.word (td + 12#32)
  let c := c.readDesc td
  let dp := (t0 >>> 19) &&& 3#32
  let epn := (ed0 >>> 7) &&& 0xF#32
  let avail := if cbp ≠ 0#32 ∧ be ≥ cbp then be - cbp + 1#32 else 0#32
  match transfer c dp epn cbp avail with
  | none => (none, c)
  | some (moved, c) =>
      let c := c.stLe (td + 4#32) (if moved ≠ 0#32 ∧ cbp + moved ≤ be then cbp + moved else 0#32)
      (some next, c.retire td 0#32)

/-- The descriptors of one endpoint: what is left of the budget, and the one it stops at. -/
def tdLoop (ed0 tail : U32) : ℕ → U32 → OhciCell → ℕ × U32 × OhciCell
  | 0, h, c => (0, h, c)
  | left + 1, h, c =>
      if h = 0#32 ∨ h = tail then (left + 1, h, c)
      else
        match c.doTd ed0 h with
        | (none, c) => (left + 1, h, c)
        | (some next, c) => tdLoop ed0 tail left next c

/-- The first descriptor of an endpoint. -/
def headOf (c : OhciCell) (ed : U32) : U32 := c.word (ed + 8#32) &&& ~~~0xF#32

/-- The endpoint that follows. -/
def nextOf (c : OhciCell) (ed : U32) : U32 := c.word (ed + 12#32) &&& ~~~0xF#32

/-- `runList` between two of its endpoints: the one to visit, and how many descriptors may still
be retired. -/
structure Walk where
  left : ℕ
  ed : U32
  cell : OhciCell

namespace Walk

/-- The loop ends. -/
def Over (w : Walk) : Prop := w.ed = 0#32 ∨ w.left = 0

instance (w : Walk) : Decidable w.Over := inferInstanceAs (Decidable (_ ∨ _))

/-- The descriptors of an endpoint, unless it is skipped or halted. -/
def work (w : Walk) : ℕ × U32 × OhciCell :=
  let e0 := w.cell.word w.ed
  let tail := w.cell.word (w.ed + 4#32) &&& ~~~0xF#32
  let hp := w.cell.word (w.ed + 8#32)
  let c := w.cell.readDesc w.ed
  if e0 &&& 0x4000#32 ≠ 0#32 ∨ hp &&& 1#32 ≠ 0#32 then (w.left, w.cell.headOf w.ed, c)
  else tdLoop e0 tail w.left (w.cell.headOf w.ed) c

/-- One endpoint. -/
def visit (w : Walk) : Walk :=
  let hp := w.cell.word (w.ed + 8#32)
  let r := w.work
  { left := r.1
    ed := w.cell.nextOf w.ed
    cell := r.2.2.stLe (w.ed + 8#32) ((hp &&& 0xF#32) ||| r.2.1) }

/-- One turn of the loop. -/
def step (w : Walk) : Walk := if w.Over then w else w.visit

end Walk

/-- `runList`, up to `n` endpoints of it: the loop is over by then or it is not. -/
def runList (c : OhciCell) (head : U32) (n : ℕ) : Walk := Walk.step^[n] ⟨64, head, c⟩

/-- `runList` returns. -/
def Returns (c : OhciCell) (head : U32) : Prop := ∃ n, (c.runList head n).Over

/-! ## The frame -/

/-- `raise`. -/
def raise (c : OhciCell) (bits : U32) : OhciCell := { c with intStatus := c.intStatus ||| bits }

/-- `rhSignal`. -/
def rhSignal (c : OhciCell) (before after : U32) : OhciCell :=
  if (after &&& ~~~before) &&& 0x001F0000#32 ≠ 0#32 then c.raise 0x40#32 else c

/-- The power-good countdown of a port. -/
def powerTimer (c : OhciCell) (n : Fin 2) : OhciCell :=
  if c.portPower n = 0#32 then c
  else
    let left := c.portPower n - 1#32
    let c := { c with portPower := Function.update c.portPower n left }
    if left ≠ 0#32 then c
    else
      let port := c.rhPort n ||| 0x00000001#32 ||| 0x00000200#32 ||| 0x00010000#32
      { c with rhPort := Function.update c.rhPort n port }.rhSignal (c.rhPort n) port

/-- The reset of a port that is in progress. -/
def resetTimer (c : OhciCell) (n : Fin 2) : OhciCell :=
  if c.portReset n = 0#32 then c
  else
    let left := c.portReset n - 1#32
    let c := { c with portReset := Function.update c.portReset n left }
    if left ≠ 0#32 then c
    else
      let port := (c.rhPort n &&& ~~~0x00000010#32) ||| (0x00000002#32 ||| 0x00100000#32)
      { c with rhPort := Function.update c.rhPort n port }.rhSignal (c.rhPort n) port

/-- The frame number, where the host reads it. -/
def writeFrame (c : OhciCell) : OhciCell :=
  if c.hcca ≠ 0#32 ∧ c.hasRam ∧ c.hcca + 0x84#32 ≤ c.ramSize then
    { c.touch (c.hcca + 0x80#32) 4 with ram := storeLE c.ram (c.hcca + 0x80#32) (c.fmNumber &&& 0xFFFF#32) }
  else c

/-- A list that is enabled, up to `n` endpoints of it: nothing where the loop goes on. -/
def serve (n : ℕ) (on : Bool) (head : U32) (r : Bool × OhciCell) : Bool × OhciCell :=
  if r.1 ∧ on then
    let w := r.2.runList head n
    (decide w.Over, w.cell)
  else r

/-- The head of the periodic list of this frame, if there is one. -/
def periodHead (c : OhciCell) : Option U32 :=
  let slot := (c.fmNumber &&& 31#32) * 4#32
  if c.control &&& 0x04#32 ≠ 0#32 ∧ c.hcca ≠ 0#32 ∧ c.hasRam ∧ c.hcca + slot + 4#32 ≤ c.ramSize then
    some (c.hcca + slot)
  else none

/-- The periodic list. -/
def servePeriodic (n : ℕ) (r : Bool × OhciCell) : Bool × OhciCell :=
  match r.2.periodHead with
  | none => r
  | some pa => if r.1 then serve n true (r.2.word pa &&& ~~~0xF#32) (true, r.2.look pa) else r

/-- The done queue is handed over. -/
def handOver (c : OhciCell) : OhciCell :=
  if c.doneHead ≠ 0#32 ∧ c.intStatus &&& 0x02#32 = 0#32 ∧ c.hcca ≠ 0#32 ∧ c.hasRam
      ∧ c.hcca + 0x88#32 ≤ c.ramSize then
    { c.stLe (c.hcca + 0x84#32) c.doneHead with doneHead := 0#32 }.raise 0x02#32
  else c

/-- The frame of an operational controller. -/
def frame (c : OhciCell) (n : ℕ) : Bool × OhciCell :=
  let c := { c with fmNumber := (c.fmNumber + 1#32) &&& 0xFFFF#32 }
  let c := c.writeFrame.raise 0x04#32
  let r := serve n (c.control &&& 0x10#32 ≠ 0#32) c.ctrlHead (true, c)
  let r := serve n (r.2.control &&& 0x20#32 ≠ 0#32) r.2.bulkHead r
  let r := servePeriodic n r
  if r.1 then (true, r.2.handOver) else r

/-- `tick`, each list up to `n` endpoints of it, and whether it gets to its end. -/
def tick (c : OhciCell) (n : ℕ) (tb : U64) : Bool × OhciCell :=
  if tb - c.lastFrameTb < kTbPerFrame then (true, c)
  else
    let c : OhciCell := { c with lastFrameTb := tb }
    let c : OhciCell := (c.powerTimer 0).powerTimer 1
    let c : OhciCell := (c.resetTimer 0).resetTimer 1
    if (c.control >>> 6) &&& 3#32 = 2#32 then c.frame n else (true, c)

/-! ## The registers -/

/-- `portPowerSet`. -/
def portPowerSet (c : OhciCell) (n : Fin 2) (on : Bool) : OhciCell :=
  let before := c.rhPort n
  if on then
    if before &&& 0x100#32 ≠ 0#32 then c
    else
      let port := before ||| 0x100#32
      let potpgt := ((c.rhDescA >>> 24) &&& 0xFF#32) * 2#32
      let delay := if n = 0 then (if potpgt ≠ 0#32 then potpgt else kConnectFrames) else 0#32
      { c with
        rhPort := Function.update c.rhPort n port
        portPower := Function.update c.portPower n delay }.rhSignal before port
  else
    let port := (before &&& ~~~0x317#32) ||| (if before &&& 1#32 ≠ 0#32 then 0x10000#32 else 0#32)
    { c with
      rhPort := Function.update c.rhPort n port
      portPower := Function.update c.portPower n 0#32
      portReset := Function.update c.portReset n 0#32 }.rhSignal before port

/-- The write of a port's status. -/
def writePort (c : OhciCell) (n : Fin 2) (v : U32) : OhciCell :=
  let c :=
    if c.livePortPower then
      let c := if v &&& 0x200#32 ≠ 0#32 then c.portPowerSet n false else c
      if v &&& 0x100#32 ≠ 0#32 then c.portPowerSet n true else c
    else c
  let before := c.rhPort n
  let p := before
  let p := if !c.livePortPower ∧ v &&& 0x100#32 ≠ 0#32 then p ||| 0x100#32 else p
  let p := if !c.livePortPower ∧ v &&& 0x200#32 ≠ 0#32 then p &&& ~~~0x100#32 else p
  -- without live power what is plugged in is fixed: port 0 alone
  let connected : Bool := if c.livePortPower then p &&& 1#32 ≠ 0#32 else n = 0
  let p := if v &&& 2#32 ≠ 0#32 then (if connected then p ||| 2#32 else p ||| 0x10000#32) else p
  let p := if v &&& 1#32 ≠ 0#32 then p &&& ~~~2#32 else p
  let reset : Bool := v &&& 0x10#32 ≠ 0#32 ∧ connected
  let p := if v &&& 0x10#32 ≠ 0#32 then (if connected then p ||| 0x10#32 else p ||| 0x10000#32) else p
  -- the change bits are cleared by writing them
  let p := p &&& ~~~(v &&& 0x001F0000#32)
  { c with
    rhPort := Function.update c.rhPort n p
    portReset := if reset then Function.update c.portReset n kResetFrames else c.portReset }.rhSignal
      before p

/-- The power bits of a write of the hub's status, for one port. -/
def globalPower (c : OhciCell) (v : U32) (n : Fin 2) : OhciCell :=
  if c.rhDescB &&& (0x00020000#32 <<< n.val) ≠ 0#32 then c
  else
    let c := if v &&& 0x10000#32 ≠ 0#32 then c.portPowerSet n true else c
    if v &&& 1#32 ≠ 0#32 then c.portPowerSet n false else c

/-- `regWrite`, by the register's offset. -/
def regWrite (c : OhciCell) (off v : U32) : OhciCell :=
  match off with
  | 0x04#32 => { c with control := v }
  | 0x08#32 =>
      -- a host controller reset suspends the bus and forgets the frame
      if v &&& 1#32 ≠ 0#32 then
        let c := { c with
          control := (c.control &&& ~~~0xC0#32) ||| 0xC0#32
          intStatus := 0#32
          hcca := 0#32
          fmNumber := 0#32 }
        -- port changes the reset left standing are told again
        if (c.rhPort 0 ||| c.rhPort 1) &&& 0x001F0000#32 ≠ 0#32 then c.raise 0x40#32 else c
      else c
  | 0x0C#32 => { c with intStatus := c.intStatus &&& ~~~v }
  | 0x18#32 => { c with hcca := v &&& 0xFFFFFF00#32 }
  | 0x20#32 => { c with ctrlHead := v &&& ~~~0xF#32 }
  | 0x28#32 => { c with bulkHead := v &&& ~~~0xF#32 }
  | 0x48#32 =>
      if c.livePortPower then
        { c with rhDescA := (c.rhDescA &&& 0x00001FFF#32) ||| (v &&& 0xFF000000#32) }
      else { c with rhDescA := (c.rhDescA &&& 0x000000FF#32) ||| (v &&& 0xFFFFFF00#32) }
  | 0x4C#32 => if c.livePortPower then c else { c with rhDescB := v }
  | 0x50#32 => if c.livePortPower then (c.globalPower v 0).globalPower v 1 else c
  | 0x54#32 => c.writePort 0 v
  | 0x58#32 => c.writePort 1 v
  | _ => c

/-! ## What happens to a cell -/

/-- A cell at power-on, over a memory of this size. -/
def powerOn (hasRam : Bool) (ram : U32 → U8) (ramSize : U32) (hid : Hid) : OhciCell where
  hasRam := hasRam
  ram := ram
  ramSize := ramSize
  control := 0#32
  intStatus := 0#32
  hcca := 0#32
  ctrlHead := 0#32
  bulkHead := 0#32
  doneHead := 0#32
  fmNumber := 0#32
  rhDescA := 0x02000102#32
  rhDescB := 0x00060000#32
  rhPort _ := 0#32
  portReset _ := 0#32
  portPower _ := 0#32
  livePortPower := true
  setup _ := 0#8
  reply := []
  address := 0#8
  pendingAddress := 0#8
  pending := []
  hid := hid
  accDx := 0
  accDy := 0
  buttons := 0#8
  sentButtons := 0#8
  lastFrameTb := 0#64
  used := []
  met := []

/-- What may happen: the guest writes a register or its memory, the clock advances, the user
moves the mouse or types. -/
inductive Event where
  | reg (off v : U32)
  | memory (ram : U32 → U8)
  | tick (n : ℕ) (tb : U64)
  | moveMouse (dx dy : ℤ) (buttons : U8)
  | keys (reports : List U8)

def apply (c : OhciCell) : Event → OhciCell
  | .reg off v => c.regWrite off v
  | .memory ram => { c with ram := ram }
  | .tick n tb => (c.tick n tb).2
  | .moveMouse dx dy buttons =>
      { c with accDx := c.accDx + dx, accDy := c.accDy + dy, buttons := buttons &&& 0x07#8 }
  | .keys reports => { c with pending := c.pending ++ reports }

end OhciCell

end OpenPowerMac
