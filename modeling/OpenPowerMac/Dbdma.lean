/-
The DBDMA channels and the bus they ride on: `machine/src/dbdma.cpp`,
`machine/include/opm/dbdma.hpp`, and the DBDMA and ATA windows of
`SawtoothBus::write`.

A descriptor can store anywhere, a channel's registers and a drive's task file
included, so `run` and the flush of a control write are entered again from inside
themselves. Here they are frames: `enter d stack f` runs frame `f` inside those of
`stack` with a budget of `d` further levels, and `quit`s without one. Everything a
frame does is logged.

The rest of the machine is a `World`: memory, the drives and the codec, the caches
that a snoop looks at. Its operations are actors, because a snoop pushes dirty
lines with bus writes of its own and a line can lie over a channel's registers;
what reaches the channels is a `Hit`. All channels have their bus (`dmaBus` is set
in the constructor), so the tests for it are left out, with the logs and counters.
-/
import OpenPowerMac.Sawtooth
import OpenPowerMac.Trace

set_option autoImplicit false

namespace OpenPowerMac

open Trace Trace.Prog

/-! ## The channel's registers -/

/-- `DbdmaChannel`. -/
structure DbdmaChannel where
  status : U32 := 0#32
  cmdPtr : U32 := 0#32
  intSel : U32 := 0#32
  brSel : U32 := 0#32
  waitSel : U32 := 0#32
  /-- The bytes of the current descriptor already moved. -/
  xferDone : U32 := 0#32
  irq : Bool := false
  deriving DecidableEq

namespace DbdmaChannel

def kRun : U32 := 0x8000#32
def kPause : U32 := 0x4000#32
def kFlush : U32 := 0x2000#32
def kWake : U32 := 0x1000#32
def kDead : U32 := 0x0800#32
def kActive : U32 := 0x0400#32

def swap32 (v : U32) : U32 :=
  (v >>> 24) ||| ((v >>> 8) &&& 0xFF00#32) ||| ((v <<< 8) &&& 0xFF0000#32) ||| (v <<< 24)

/-- A status bit. -/
def has (ch : DbdmaChannel) (bit : U32) : Bool := ch.status &&& bit != 0#32

def running (ch : DbdmaChannel) : Bool := ch.has kRun

def parked (ch : DbdmaChannel) : Bool := ch.has kRun && ch.has kActive

def setStatus (ch : DbdmaChannel) (bit : U32) : DbdmaChannel :=
  { ch with status := ch.status ||| bit }

def clearStatus (ch : DbdmaChannel) (bit : U32) : DbdmaChannel :=
  { ch with status := ch.status &&& ~~~bit }

/-- The register's index in the window. -/
def regIndex (off : U32) : ℕ := ((off >>> 2) &&& 0x3F#32).toNat

/-- `DbdmaChannel::read`. -/
def read (ch : DbdmaChannel) (off : U32) (len : ℕ) : U32 :=
  let native := match regIndex off with
    | 0 | 1 => ch.status
    | 3 => ch.cmdPtr
    | 4 => ch.intSel
    | 5 => ch.brSel
    | 6 => ch.waitSel
    | _ => 0#32
  if len = 4 then swap32 native
  else (List.range len).foldl
    (fun r k =>
      (r <<< 8) ||| ((native >>> (8 * ((off + BitVec.ofNat 32 k) &&& 3#32).toNat)) &&& 0xFF#32))
    0#32

/-- The value a write brings, a narrow one merged into the register's image. -/
def native (ch : DbdmaChannel) (off v : U32) (len : ℕ) : U32 :=
  if len = 4 then swap32 v
  else SawtoothBus.laneMerge (swap32 (ch.read (off &&& ~~~3#32) 4)) off v len

/-- The status bits after the mask and value halves of a control write, which also
lowers the interrupt. -/
def latch (ch : DbdmaChannel) (native : U32) : DbdmaChannel :=
  let mask := native >>> 16
  let val := native &&& 0xFFFF#32
  { ch with status := (ch.status &&& ~~~mask) ||| (val &&& mask), irq := false }

end DbdmaChannel

open DbdmaChannel

/-- The device at the other end, if any. -/
def ChannelId.dev : ChannelId → Option Device
  | .ataDma => some .cd
  | .hdDma => some .hd
  | .dropDma => some .drop
  | .dmaGen _ => none
  | .sndOut | .sndIn => some .snd

/-- The channel that a write to a drive's task file wakes. -/
def Device.channel : Device → Option ChannelId
  | .cd => some .ataDma
  | .hd => some .hdDma
  | .drop => some .dropDma
  | .snd => none

/-! ## What is logged -/

/-- The nested activations: a `run` of a channel, and the flush of a control
write. -/
inductive Frame where
  | run (c : ChannelId)
  | flush (c : ChannelId)
  deriving DecidableEq, Fintype

/-- A transfer asked of a device: the descriptor's `reqCount` and address, how many
bytes of it were moved before, the count asked for, and the guest addresses
touched. -/
structure Request where
  chan : ChannelId
  req : U32
  addr : U32
  cursor : U32
  want : U32
  touched : List U32

inductive Event where
  /-- A write of `ChannelControl`, inside the frames of `stack`. -/
  | control (c : ChannelId) (stack : List Frame) (before : DbdmaChannel) (native : U32)
  /-- A `wake` that runs the channel. -/
  | wake (c : ChannelId) (stack : List Frame)
  | enter (f : Frame) (stack : List Frame)
  | fetch (c : ChannelId) (ptr w0 cursor : U32)
  | request (r : Request)

/-! ## The machine -/

/-- What reaches the channels: a register write, or a wake. -/
inductive Hit where
  | reg (c : ChannelId) (off v : U32) (len : ℕ)
  | wake (c : ChannelId)

/-- What a device supplies of `n` bytes asked for. -/
abbrev Supply (n : U32) : Type := {bs : List U8 // bs.length ≤ n.toNat}

theorem length_nil_le (n : U32) : ([] : List U8).length ≤ n.toNat := Nat.zero_le _

/-- The rest of the machine. An operation of it reaches the channels at most
`limit` times. -/
structure World (ρ : Type) where
  limit : ℕ
  /-- What the address decode reads. -/
  bus : ρ → SawtoothBus
  /-- `++devGen_; noteNow()`. -/
  noteNow : ρ → ρ
  /-- `SawtoothBus::read` of anything but a channel's register. -/
  read : U32 → ℕ → ρ → Act ρ Hit U32 limit
  /-- `SawtoothBus::write` to anything but a channel's register. -/
  write : U32 → U32 → ℕ → ρ → Act ρ Hit Unit limit
  snoopBeforeDmaRead : U32 → U32 → ρ → Act ρ Hit Unit limit
  snoopBeforeDmaWrite : U32 → U32 → ρ → Act ρ Hit Unit limit
  dmaTake : Device → (n : U32) → ρ → Act ρ Hit (Supply n) limit
  dmaGive : Device → (bs : List U8) → ρ → Act ρ Hit (Fin (bs.length + 1)) limit
  dmaWriteSink : Device → ρ → Bool
  dmaStreams : Device → ρ → Bool

structure Machine (ρ : Type) where
  chan : ChannelId → DbdmaChannel
  rest : ρ

abbrev Dma (ρ α : Type) : Type := Prog (Machine ρ) Event α

namespace Machine

variable {ρ α : Type}

def part : Part (Machine ρ) ρ where
  get := Machine.rest
  set r m := { m with rest := r }

def setChan (c : ChannelId) (f : DbdmaChannel → DbdmaChannel) (m : Machine ρ) : Machine ρ :=
  { m with chan := Function.update m.chan c (f (m.chan c)) }

end Machine

namespace Dma

variable {ρ α : Type}

def chan (c : ChannelId) : Dma ρ DbdmaChannel := do
  let m ← look
  pure (m.chan c)

def setChan (c : ChannelId) (f : DbdmaChannel → DbdmaChannel) : Dma ρ Unit :=
  change (Machine.setChan c f)

/-- An operation of the rest of the machine, its hits served by `hit`. -/
def act {n : ℕ} (hit : Hit → Dma ρ Unit) (f : ρ → Act ρ Hit α n) : Dma ρ α := do
  let m ← look
  (f m.rest).exec Machine.part hit

/-! ## The registers' side -/

/-- FLUSH: an active channel gives up the descriptor it holds. -/
def flushArm (call : Frame → Dma ρ Unit) (c : ChannelId) : Dma ρ Unit := do
  let ch ← chan c
  if ch.has kFlush then do
    setChan c fun ch => ch.clearStatus kFlush
    if ch.has kActive && ch.cmdPtr != 0#32 then call (.flush c) else pure ()
  else pure ()

/-- WAKE: a running channel runs. -/
def wakeArm (call : Frame → Dma ρ Unit) (c : ChannelId) : Dma ρ Unit := do
  let ch ← chan c
  if ch.has kWake then do
    setChan c fun ch => ch.clearStatus kWake
    if ch.has kRun then call (.run c) else pure ()
  else pure ()

/-- A fresh list: it starts at the head of a descriptor. -/
def fresh (ch : DbdmaChannel) : DbdmaChannel :=
  { (ch.clearStatus kDead).setStatus kActive with xferDone := 0#32 }

/-- RUN rises. -/
def startArm (call : Frame → Dma ρ Unit) (c : ChannelId) (wasRun : Bool) : Dma ρ Unit := do
  let ch ← chan c
  if ch.has kRun && !wasRun then do
    setChan c fresh
    call (.run c)
  else pure ()

/-- What a STOP descriptor, a flush and a cleared RUN leave of the channel. -/
def stopped (ch : DbdmaChannel) : DbdmaChannel := { ch.clearStatus kActive with xferDone := 0#32 }

/-- RUN is clear. -/
def stopArm (c : ChannelId) : Dma ρ Unit := do
  let ch ← chan c
  if !ch.has kRun then setChan c stopped else pure ()

/-- `DbdmaChannel::write`, its `channelControl` arm. -/
def channelControl (call : Frame → Dma ρ Unit) (c : ChannelId) (native : U32) : Dma ρ Unit := do
  let before ← chan c
  setChan c fun ch => ch.latch native
  flushArm call c
  wakeArm call c
  startArm call c (before.has kRun)
  stopArm c

/-- `DbdmaChannel::write`. -/
def channelWrite (call : Frame → Dma ρ Unit) (stack : List Frame) (c : ChannelId)
    (off v : U32) (len : ℕ) : Dma ρ Unit := do
  let ch ← chan c
  let native := ch.native off v len
  match regIndex off with
  | 0 => do
      note (.control c stack ch native)
      channelControl call c native
  | 3 =>
      if ch.has kActive then pure ()
      else setChan c fun ch => { ch with cmdPtr := native &&& ~~~15#32 }
  | 4 => setChan c fun ch => { ch with intSel := native }
  | 5 => setChan c fun ch => { ch with brSel := native }
  | 6 => setChan c fun ch => { ch with waitSel := native }
  | _ => pure ()

/-- `DbdmaChannel::wake`. -/
def wake (call : Frame → Dma ρ Unit) (stack : List Frame) (c : ChannelId) : Dma ρ Unit := do
  let ch ← chan c
  if ch.has kRun && ch.has kActive then do
    note (.wake c stack)
    call (.run c)

def hit (call : Frame → Dma ρ Unit) (stack : List Frame) : Hit → Dma ρ Unit
  | .reg c off v len => channelWrite call stack c off v len
  | .wake c => wake call stack c

/-! ## The bus -/

variable (w : World ρ) (serve : Hit → Dma ρ Unit)

/-- `SawtoothBus::read`: a channel's register, or the rest of the machine. -/
def busRead (pa : U32) (len : ℕ) : Dma ρ U32 := do
  let m ← look
  match (w.bus m.rest).readPlace pa len with
  | .dbdma c off => do
      change fun m => { m with rest := w.noteNow m.rest }
      pure ((m.chan c).read off len)
  | _ => act serve (w.read pa len)

/-- `SawtoothBus::write`: a channel's register, a drive's task file, which wakes
its channel, or the rest of the machine. -/
def busWrite (pa v : U32) (len : ℕ) : Dma ρ Unit := do
  let m ← look
  match (w.bus m.rest).writePlace pa len with
  | .dbdma c off => do
      change fun m => { m with rest := w.noteNow m.rest }
      serve (.reg c off v len)
  | .ata (some d) _ => do
      act serve (w.write pa v len)
      match d.channel with
      | some c => serve (.wake c)
      | none => pure ()
  | _ => act serve (w.write pa v len)

def rd32le (pa : U32) : Dma ρ U32 := do
  let be ← busRead w serve pa 4
  pure (swap32 be)

def wr32le (pa x : U32) : Dma ρ Unit := busWrite w serve pa (swap32 x) 4

/-! ## The engine -/

/-- What a descriptor leaves: the engine stops on it, or goes on, having moved some
bytes. -/
inductive Fate where
  | park
  | done (moved : U32)

/-- A descriptor as fetched. -/
structure Desc where
  w0 : U32
  addr : U32

def Desc.op (d : Desc) : ℕ := (d.w0 >>> 28).toNat
def Desc.req (d : Desc) : U32 := d.w0 &&& 0xFFFF#32

/-- The status word of a completed descriptor, in its word 3. -/
def complete (c : ChannelId) (residual : U32) : Dma ρ Unit := do
  let ch ← chan c
  wr32le w serve (ch.cmdPtr + 12#32) ((0x8400#32 <<< 16) ||| residual)

def addresses (at_ : U32) (n : ℕ) : List U32 :=
  (List.range n).map fun k => at_ + BitVec.ofNat 32 k

def streams (c : ChannelId) : Dma ρ Bool := do
  let m ← look
  pure (match c.dev with
    | some d => w.dmaStreams d m.rest
    | none => false)

/-- The bytes of an INPUT descriptor that the device has now, put in memory. -/
def takeBytes (c : ChannelId) (d : Desc) : Dma ρ U32 := do
  let ch ← chan c
  match c.dev with
  | some dev => do
      let want := d.req - ch.xferDone
      let at_ := d.addr + ch.xferDone
      let tmp ← act serve (w.dmaTake dev want)
      let touched := addresses at_ tmp.val.length
      note (.request ⟨c, d.req, d.addr, ch.xferDone, want, touched⟩)
      act serve (w.snoopBeforeDmaWrite at_ (BitVec.ofNat 32 tmp.val.length))
      forEach (touched.zip tmp.val) fun (a, x) => busWrite w serve a (x.setWidth 32) 1
      pure (BitVec.ofNat 32 tmp.val.length)
  | none => pure 0#32

/-- Ops 2 and 3, `INPUT_MORE` and `INPUT_LAST`: device to memory. -/
def input (c : ChannelId) (d : Desc) : Dma ρ Fate := do
  let moved ← takeBytes w serve c d
  setChan c fun ch => { ch with xferDone := ch.xferDone + moved }
  let ch ← chan c
  if ch.xferDone < d.req then
    if ch.xferDone = 0#32 then pure .park
    else do
      let stall ← streams w c
      if stall then pure .park
      else do
        complete w serve c (d.req - ch.xferDone)
        pure (.done moved)
  else do
    complete w serve c 0#32
    pure (.done moved)

/-- Ops 0 and 1, `OUTPUT_MORE` and `OUTPUT_LAST`: memory to device. A device that
is no sink absorbs the descriptor. -/
def output (c : ChannelId) (d : Desc) : Dma ρ Fate := do
  let m ← look
  match c.dev.filter fun dev => w.dmaWriteSink dev m.rest with
  | some dev => do
      let ch ← chan c
      let want := d.req - ch.xferDone
      let at_ := d.addr + ch.xferDone
      let touched := addresses at_ want.toNat
      note (.request ⟨c, d.req, d.addr, ch.xferDone, want, touched⟩)
      act serve (w.snoopBeforeDmaRead at_ want)
      let tmp ← collect touched fun a => do
        let x ← busRead w serve a 1
        pure (x.setWidth 8 : U8)
      let taken ← act serve (w.dmaGive dev tmp)
      let moved := BitVec.ofNat 32 taken.val
      setChan c fun ch => { ch with xferDone := ch.xferDone + moved }
      let ch ← chan c
      -- a device that takes nothing parks the channel until it asks again
      if ch.xferDone = 0#32 then pure .park
      else do
        let stall ← streams w c
        -- a streaming device takes the rest later; another one ends short
        if ch.xferDone < d.req && stall then pure .park
        else do
          complete w serve c (d.req - ch.xferDone)
          pure (.done moved)
  | none => do
      complete w serve c 0#32
      pure (.done 0#32)

/-- Op 4, `STORE_QUAD`: the literal in word 2 to `address`, as wide as `req`
says. -/
def storeQuad (c : ChannelId) (d : Desc) : Dma ρ Fate := do
  let ch ← chan c
  let lit ← rd32le w serve (ch.cmdPtr + 8#32)
  act serve (w.snoopBeforeDmaWrite d.addr (if d.req ≠ 0#32 then d.req else 4#32))
  if 4#32 ≤ d.req then wr32le w serve d.addr lit
  else if d.req = 2#32 then
    busWrite w serve d.addr (((lit &&& 0xFF#32) <<< 8) ||| ((lit >>> 8) &&& 0xFF#32)) 2
  else busWrite w serve d.addr (lit &&& 0xFF#32) 1
  complete w serve c 0#32
  pure (.done 0#32)

/-- The image of the quadlet at `address`, in its leading bytes. -/
def loadImage (addr : U32) (size : ℕ) : Dma ρ U32 :=
  if size = 4 then busRead w serve addr 4
  else if size = 2 then do
    let hi ← busRead w serve addr 1
    let lo ← busRead w serve (addr + 1#32) 1
    pure ((hi <<< 24) ||| (lo <<< 16))
  else do
    let hi ← busRead w serve addr 1
    pure (hi <<< 24)

/-- Op 5, `LOAD_QUAD`: the quadlet at `address` to the descriptor's word 2. -/
def loadQuad (c : ChannelId) (d : Desc) : Dma ρ Fate := do
  let size := if d.req &&& 4#32 ≠ 0#32 then 4 else if d.req &&& 2#32 ≠ 0#32 then 2 else 1
  act serve (w.snoopBeforeDmaRead d.addr (BitVec.ofNat 32 size))
  let img ← loadImage w serve d.addr size
  let ch ← chan c
  busWrite w serve (ch.cmdPtr + 8#32) img 4
  complete w serve c 0#32
  pure (.done 0#32)

/-- The command switch of `run`. -/
def command (c : ChannelId) (d : Desc) : Dma ρ Fate :=
  match d.op with
  | 7 => do -- STOP
      setChan c stopped
      pure .park
  | 2 | 3 => input w serve c d
  | 0 | 1 => output w serve c d
  | 4 => storeQuad w serve c d
  | 5 => loadQuad w serve c d
  | 6 => do -- NOP
      complete w serve c 0#32
      pure (.done 0#32)
  | _ => do
      setChan c fun ch => (ch.setStatus kDead).clearStatus kActive
      pure .park

/-- The head of a turn: snoop the descriptor and fetch its first two words. -/
def fetch (c : ChannelId) : Dma ρ Desc := do
  let ch ← chan c
  act serve (w.snoopBeforeDmaWrite ch.cmdPtr 16#32)
  let ch ← chan c
  let w0 ← rd32le w serve ch.cmdPtr
  let ch ← chan c
  let addr ← rd32le w serve (ch.cmdPtr + 4#32)
  let ch ← chan c
  note (.fetch c ch.cmdPtr w0 ch.xferDone)
  pure ⟨w0, addr⟩

/-- Whether the branch field takes the branch: always, or by the channel's low
status byte against `branchSelect`. -/
def branchTaken (ch : DbdmaChannel) (d : Desc) : Bool :=
  let br := if d.op = 4 ∨ d.op = 5 then 0#32 else (d.w0 >>> 18) &&& 3#32
  let mask := (ch.brSel >>> 16) &&& 0xFF#32
  let val := ch.brSel &&& 0xFF#32
  let cond := ((ch.status &&& 0xFF#32) &&& mask) == (val &&& mask)
  if br = 3#32 then true else if br = 1#32 then cond else if br = 2#32 then !cond else false

/-- The next descriptor: the branch target, or the one behind this. -/
def goOn (c : ChannelId) (d : Desc) : Dma ρ Unit := do
  let ch ← chan c
  if branchTaken ch d then do
    let target ← rd32le w serve (ch.cmdPtr + 8#32)
    setChan c fun ch => { ch with cmdPtr := target &&& ~~~15#32 }
  else setChan c fun ch => { ch with cmdPtr := ch.cmdPtr + 16#32 }

/-- The tail of a turn: the cursor, the interrupt, and the next descriptor. -/
def advance (c : ChannelId) (d : Desc) : Dma ρ Unit := do
  setChan c fun ch =>
    { ch with xferDone := 0#32, irq := ch.irq || (d.w0 >>> 20) &&& 3#32 != 0#32 }
  goOn w serve c d

/-- The loop of `run`: at most `n` more descriptors, and at most 512 in a row that
move nothing. -/
def turns (c : ChannelId) : ℕ → U32 → Dma ρ Unit
  | 0, _ => pure ()
  | n + 1, idle => do
      let ch ← chan c
      if !ch.has kRun then pure ()
      else do
        let d ← fetch w serve c
        let fate ← command w serve c d
        match fate with
        | .park => pure ()
        | .done moved => do
            advance w serve c d
            if moved ≠ 0#32 then turns c n 0#32
            else if 512#32 < idle + 1#32 then pure ()
            else turns c n (idle + 1#32)

/-- `DbdmaChannel::run`. -/
def run (c : ChannelId) : Dma ρ Unit := turns w serve c 65536 0#32

/-- What a FLUSH does to an active channel: the descriptor in progress ends here,
its status word takes the residual. -/
def flush (c : ChannelId) : Dma ρ Unit := do
  let ch ← chan c
  act serve (w.snoopBeforeDmaWrite ch.cmdPtr 16#32)
  let ch ← chan c
  let w0 ← rd32le w serve ch.cmdPtr
  let ch ← chan c
  wr32le w serve (ch.cmdPtr + 12#32)
    ((0x8400#32 <<< 16) ||| (((w0 &&& 0xFFFF#32) - ch.xferDone) &&& 0xFFFF#32))
  setChan c stopped

/-- The body of a frame. -/
def body : Frame → Dma ρ Unit
  | .run c => run w serve c
  | .flush c => flush w serve c

end Dma

/-! ## Nesting -/

/-- Enter a frame inside those of `stack`, with `d` levels left. -/
def enter {ρ : Type} (w : World ρ) : ℕ → List Frame → Frame → Dma ρ Unit
  | 0, stack, f => do
      note (.enter f stack)
      quit
  | d + 1, stack, f => do
      note (.enter f stack)
      Dma.body w (Dma.hit (enter w d (f :: stack)) (f :: stack)) f

/-- What happens to the channels from outside: a bus write by the processor, a wake
by a device, and whatever the guest and time do to the rest of the machine. -/
inductive Op (ρ : Type) where
  | write (pa v : U32) (len : ℕ)
  | wake (c : ChannelId)
  | guest (f : ρ → ρ)

def Op.exec {ρ : Type} (w : World ρ) (d : ℕ) : Op ρ → Dma ρ Unit
  | .write pa v len => Dma.busWrite w (Dma.hit (enter w d []) []) pa v len
  | .wake c => Dma.wake (enter w d []) [] c
  | .guest f => change fun m => { m with rest := f m.rest }

end OpenPowerMac
