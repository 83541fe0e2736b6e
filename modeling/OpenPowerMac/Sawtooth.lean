/-
The Sawtooth's address decode: which array or which device answers an access,
and at which index (`machine/include/opm/sawtooth.hpp`,
`SawtoothBus::dimms` of `machine/src/sawtooth.cpp`).

`readPlace` and `writePlace` are the chains of range tests of `SawtoothBus::read`
and `SawtoothBus::write` in the source's order. A place in one of the backing
arrays carries the index handed to `get` or `put`, which then touch `len`
consecutive bytes whatever the array's size is. `cfgWrite` is the write half of
`cfgAccess`: it is what moves the base address registers the chains test.

The bus here is what the decode reads. The bytes of the arrays, the logs and the
counters are left out; the devices stand behind their places.
-/
import OpenPowerMac.Word
import Mathlib.Data.Fintype.Sum
import Mathlib.Tactic.DeriveFintype

set_option autoImplicit false

namespace OpenPowerMac

/-- The DBDMA channels of the machine. -/
inductive ChannelId where
  | ataDma | hdDma | dropDma
  | dmaGen (i : Fin 8)
  | sndOut | sndIn
  deriving DecidableEq, Fintype

/-- The devices at the other end of a channel. -/
inductive Device where
  | cd | hd | drop | snd
  deriving DecidableEq

/-- The arrays behind the address space. -/
inductive Region where
  | ram | rom | kl | unin | vram
  deriving DecidableEq

/-- The widths of one bus access. A doubleword is two words, one after the other. -/
inductive Width where
  | byte | half | word
  deriving DecidableEq

def Width.bytes : Width → ℕ
  | .byte => 1
  | .half => 2
  | .word => 4

/-- The windows that open on an array. RAM has three: the plain one that is tested
first, the sizing window, and the test that is left for addresses above. -/
inductive Window where
  | ramFast | sizeWin | ram | rom | kl | unin | fb
  deriving DecidableEq

def Window.region : Window → Region
  | .ramFast | .sizeWin | .ram => .ram
  | .rom => .rom
  | .kl => .kl
  | .unin => .unin
  | .fb => .vram

inductive FlashMode where
  | kFlashArray | kFlashStatus | kFlashEraseSetup | kFlashProgram
  deriving DecidableEq

/-- `SawtoothBus`, as far as the decode reads it. -/
structure SawtoothBus where
  ramSize : ℕ
  romSize : ℕ
  macioBar : U32 := 0#32
  ohciBar : Fin 2 → U32 := fun _ => 0#32
  atiFbBar : U32 := 0#32
  atiRegBar : U32 := 0#32
  atiRomBar : U32 := 0#32
  atiIoBar : U32 := 0#32
  atiRomSize : ℕ := 0
  cfgAddr : Fin 3 → U32 := fun _ => 0#32
  cfgSpace : U32 → Option U32 := fun _ => none
  flashMode : FlashMode := .kFlashArray
  flashErase : U32 := 0#32
  soundOn : Bool := true
  klTimerOn : Bool := true
  /-- `AtaCell::present` of the three drives. -/
  present : Device → Bool := fun _ => false
  /-- The display card answers no configuration cycles now (`atiVisibleAt`,
  `atiHideFrom`, `atiHideTo`). -/
  atiHidden : Bool := false

/-- What answers an access. -/
inductive Place where
  /-- `get` or `put` at an index of the window's array. -/
  | store (w : Window) (i : ℕ)
  | pmu (off : U32)
  | scc (off : U32)
  | i2c (n : Fin 2) (off : U32)
  | pic (off : U32)
  | dbdma (c : ChannelId) (off : U32)
  | awacs (off : U32)
  | ata (cell : Option Device) (off : U32)
  | klTimer (off : U32)
  | ohci (f : Fin 2) (off : U32)
  | atiRom (off : U32)
  | atiIo (off : U32)
  | atiReg (off : U32)
  /-- The boot flash as a command machine. -/
  | flash (off : U32)
  | cfg (b : Fin 3)
  | unmapped
  deriving DecidableEq

namespace SawtoothBus

def kRomBase : U32 := 0xFFF00000#32
def kUniNBase : U32 := 0xF8000000#32
def kUniNSize : ℕ := 0x3000
def kMacIoBase : U32 := 0xF3000000#32
def kMacIoBar : U32 := 0x80000000#32
def kMacIoSize : ℕ := 0x80000
def kKlTimerLo : U32 := 0x15038#32
def kI2cBase : U32 := 0xF8001000#32
def kSizeWin : U32 := 0x78000000#32
def kDeviceWindowBase : U32 := 0x80000000#32
def kVramSize : ℕ := 32 * 2 ^ 20
def kAwacsRegBase : U32 := 0x14000#32
def kAwacsRegSize : U32 := 0x60#32
def kOhciSel (f : Fin 2) : U32 := if f = 0 then 0x00014000#32 else 0x00014800#32
def kMacIoSel : U32 := 0x00013800#32

variable (b : SawtoothBus)

/-- The sizes of the backing arrays. -/
def size : Region → ℕ
  | .ram => b.ramSize
  | .rom => b.romSize
  | .kl => kMacIoSize
  | .unin => kUniNSize
  | .vram => kVramSize

/-! ## The memory modules -/

structure Dimms where
  count : ℕ
  mb : ℕ
  rows : U8
  cols : U8
  ranks : U8
  density : U8
  deriving DecidableEq

/-- `kShapes`: the geometries offered, as one module of each. -/
def kShapes : List Dimms :=
  [⟨1, 64, 12#8, 9#8, 1#8, 0x10#8⟩, ⟨1, 128, 12#8, 10#8, 1#8, 0x20#8⟩,
    ⟨1, 256, 13#8, 10#8, 1#8, 0x40#8⟩, ⟨1, 512, 13#8, 10#8, 2#8, 0x40#8⟩]

/-- `SawtoothBus::dimms`: the fewest modules that carry the allocation, and one
64 MB module for a size that none do. -/
def dimms : Dimms :=
  let totalMb := b.ramSize / 2 ^ 20 % 2 ^ 32
  let shapes := [1, 2, 3].flatMap fun n => kShapes.map fun s => { s with count := n }
  (shapes.find? fun d => d.mb * d.count == totalMb).getD ⟨1, 64, 12#8, 9#8, 1#8, 0x10#8⟩

/-- The bytes the SPD advertises. -/
def advertised : ℕ := b.dimms.count * (b.dimms.mb * 2 ^ 20)

/-- The sizing window's offset in the module under test. -/
def sizeWinOff (pa : U32) : U32 :=
  (pa - kSizeWin) &&& (((BitVec.ofNat 32 b.dimms.mb) <<< 20) - 1#32)

/-! ## The decode -/

/-- `ramFast`. -/
def ramFast (pa : U32) (len : ℕ) : Bool :=
  decide (pa < kDeviceWindowBase) && decide (pa.toNat + len ≤ b.ramSize)

/-- `macioOff`. -/
def macioOff (pa : U32) : Option U32 :=
  if (pa - kMacIoBase).toNat < kMacIoSize then some (pa - kMacIoBase)
  else if (pa - kMacIoBar).toNat < kMacIoSize then some (pa - kMacIoBar)
  else if b.macioBar ≠ 0#32 ∧ (pa - b.macioBar).toNat < kMacIoSize then some (pa - b.macioBar)
  else none

/-- The drive that answers at an offset of the ATA windows. -/
def ataCell (off : U32) : Option Device :=
  if off - 0x20000#32 < 0x1000#32 ∧ b.present .cd then some .cd
  else if off < 0x20000#32 ∧ b.present .hd then some .hd
  else if off - 0x21000#32 < 0x1000#32 ∧ b.present .drop then some .drop
  else none

/-- The DBDMA windows: the three ATA channels, channels 0-7, and the codec's pair
while there is sound. -/
def dmaWindow (off : U32) : Option (ChannelId × U32) :=
  if off - 0x8B00#32 < 0x100#32 then some (.ataDma, off - 0x8B00#32)
  else if off - 0x8A00#32 < 0x100#32 then some (.hdDma, off - 0x8A00#32)
  else if off - 0x8C00#32 < 0x100#32 then some (.dropDma, off - 0x8C00#32)
  else if off - 0x8000#32 < 0x800#32 then
    some (.dmaGen (off.extractLsb' 8 3).toFin, off &&& 0xFF#32)
  else if b.soundOn ∧ off - 0x8800#32 < 0x100#32 then some (.sndOut, off - 0x8800#32)
  else if b.soundOn ∧ off - 0x8900#32 < 0x100#32 then some (.sndIn, off - 0x8900#32)
  else none

/-- The windows behind the DBDMA ones, and KeyLargo's register store. -/
def macioRest (off : U32) (len : ℕ) : Place :=
  if b.soundOn ∧ off - kAwacsRegBase < kAwacsRegSize then .awacs (off - kAwacsRegBase)
  else if off - 0x1F000#32 < 0x3000#32 then .ata (b.ataCell off) off
  else if b.klTimerOn ∧ (off - kKlTimerLo).toNat < 8 ∧ (off - kKlTimerLo).toNat + len ≤ 8 then
    .klTimer off
  else .store .kl off.toNat

/-- The mac-io windows, the same chain on both sides. -/
def macioPlace (off : U32) (len : ℕ) : Place :=
  if 0x16000#32 ≤ off ∧ off < 0x18000#32 then .pmu (off - 0x16000#32)
  else if 0x13000#32 ≤ off ∧ off < 0x14000#32 then .scc (off - 0x13000#32)
  else if 0x18000#32 ≤ off ∧ off < 0x18100#32 then .i2c 1 (off - 0x18000#32)
  else if off - 0x40000#32 < 0x40000#32 then .pic (off - 0x40000#32)
  else match b.dmaWindow off with
    | some (c, o) => .dbdma c o
    | none => b.macioRest off len

/-- `cfgBus`: the bridge whose latch or window this is. -/
def cfgBus (pa : U32) : Option (Fin 3) :=
  let top := pa >>> 24
  let sub := pa &&& 0x00FFFFFF#32
  if sub - 0x800000#32 < 4#32 ∨ sub - 0xC00000#32 < 8#32 then
    if top = 0xF0#32 then some 0
    else if top = 0xF2#32 then some 1
    else if top = 0xF4#32 then some 2
    else none
  else none

/-- The OHCI function whose window holds the address. -/
def ohciAt (pa : U32) : Option (Fin 2) :=
  if b.ohciBar 0 ≠ 0#32 ∧ pa - b.ohciBar 0 < 0x1000#32 then some 0
  else if b.ohciBar 1 ≠ 0#32 ∧ pa - b.ohciBar 1 < 0x1000#32 then some 1
  else none

/-- The card's apertures: the I/O window, the registers, the frame buffer. -/
def inAtiIo (pa : U32) : Bool :=
  decide (b.atiIoBar ≠ 0#32) && decide (b.atiIoBar < 0x00100000#32)
    && decide (pa - (0xF0000000#32 + b.atiIoBar) < 0x100#32)

def inAtiReg (pa : U32) : Bool :=
  decide (b.atiRegBar ≠ 0#32) && decide (pa - b.atiRegBar < 0x4000#32)

def inAtiFb (pa : U32) : Bool :=
  decide (b.atiFbBar ≠ 0#32) && decide (pa - b.atiFbBar < 0x04000000#32)

def inSizeWin (pa : U32) : Bool := decide (pa - kSizeWin < 0x20000000#32)

/-- The second RAM test: `pa + len` is a 32-bit sum here. -/
def inRam (pa : U32) (len : ℕ) : Bool :=
  decide (pa.toNat < b.ramSize) && decide ((pa + BitVec.ofNat 32 len).toNat ≤ b.ramSize)

def inRom (pa : U32) (len : ℕ) : Bool :=
  decide (kRomBase ≤ pa) && decide ((pa - kRomBase + BitVec.ofNat 32 len).toNat ≤ b.romSize)

def inI2c (pa : U32) (len : ℕ) : Bool :=
  decide (kI2cBase ≤ pa) && decide (pa + BitVec.ofNat 32 len ≤ kI2cBase + 0x100#32)

def inUniN (pa : U32) (len : ℕ) : Bool :=
  decide (kUniNBase ≤ pa)
    && decide (pa + BitVec.ofNat 32 len ≤ kUniNBase + BitVec.ofNat 32 kUniNSize)

/-- The index in the frame buffer: both halves of the aperture address the same
VRAM. -/
def vramOff (pa : U32) : U32 := (pa - b.atiFbBar) &&& 0x01FFFFFF#32

/-- The bridge's own registers and what is left. -/
def bridgePlace (pa : U32) (len : ℕ) (otherwise : Place) : Place :=
  if inI2c pa len then .i2c 0 (pa - kI2cBase)
  else if inUniN pa len then .store .unin (pa - kUniNBase).toNat
  else match cfgBus pa with
    | some f => .cfg f
    | none => otherwise

/-- The frame buffer, the sizing window and RAM, on both sides. -/
def memoryPlace (pa : U32) (len : ℕ) (otherwise : Place) : Place :=
  if b.inAtiIo pa then .atiIo (pa - (0xF0000000#32 + b.atiIoBar))
  else if b.inAtiReg pa then .atiReg (pa - b.atiRegBar)
  else if b.inAtiFb pa then .store .fb (b.vramOff pa).toNat
  else if inSizeWin pa then .store .sizeWin (b.sizeWinOff pa).toNat
  else if b.inRam pa len then .store .ram pa.toNat
  else otherwise

/-- `SawtoothBus::read`, past the mac-io and the OHCI windows. -/
def readBeyond (pa : U32) (len : ℕ) : Place :=
  if 1#32 < b.atiRomBar ∧ pa - (b.atiRomBar &&& ~~~1#32) < 0x20000#32 ∧ b.atiRomSize ≠ 0 then
    .atiRom (pa - (b.atiRomBar &&& ~~~1#32))
  else b.memoryPlace pa len
    (if b.inRom pa len then
      if b.flashMode ≠ .kFlashArray then .flash (pa - kRomBase)
      else .store .rom (pa - kRomBase).toNat
    else bridgePlace pa len .unmapped)

/-- `SawtoothBus::write`, past the same windows. The boot flash comes last and is
never stored to as an array. -/
def writeBeyond (pa : U32) (len : ℕ) : Place :=
  b.memoryPlace pa len
    (bridgePlace pa len (if b.inRom pa len then .flash (pa - kRomBase) else .unmapped))

/-- The tests that come first on both sides: plain RAM, mac-io, the OHCI windows. -/
def place (beyond : Place) (pa : U32) (len : ℕ) : Place :=
  if b.ramFast pa len then .store .ramFast pa.toNat
  else match b.macioOff pa with
    | some off => b.macioPlace off len
    | none => match b.ohciAt pa with
      | some f => .ohci f (pa - b.ohciBar f)
      | none => beyond

/-- `SawtoothBus::read`. -/
def readPlace (pa : U32) (len : ℕ) : Place := b.place (b.readBeyond pa len) pa len

/-- `SawtoothBus::write`. -/
def writePlace (pa : U32) (len : ℕ) : Place := b.place (b.writeBeyond pa len) pa len

/-! ## The indices an access uses -/

/-- `get` and `put`: `len` bytes from an index on. -/
def span (r : Region) (i len : ℕ) : List (Region × ℕ) := (List.range len).map fun k => (r, i + k)

/-- The flash's own stores, for a written value `v`: a program cycle clears bits
of the bytes that exist, an erase confirm fills the block that exists. -/
def flashIndices (off v : U32) (len : ℕ) : List (Region × ℕ) :=
  if b.flashMode = .kFlashProgram then
    ((List.range len).takeWhile fun k => (off + BitVec.ofNat 32 k).toNat < b.romSize).map
      fun k => (.rom, (off + BitVec.ofNat 32 k).toNat)
  else if v.setWidth 8 = 0xD0#8 ∧ b.flashMode = .kFlashEraseSetup then
    let base := b.flashErase &&& ~~~0x1FFF#32
    ((List.range 0x2000).takeWhile fun k => (base + BitVec.ofNat 32 k).toNat < b.romSize).map
      fun k => (.rom, (base + BitVec.ofNat 32 k).toNat)
  else []

def readIndices (pa : U32) (len : ℕ) : List (Region × ℕ) :=
  match b.readPlace pa len with
  | .store w i => span w.region i len
  | _ => []

def writeIndices (pa v : U32) (len : ℕ) : List (Region × ℕ) :=
  match b.writePlace pa len with
  | .store w i => span w.region i len
  | .flash off => b.flashIndices off v len
  | _ => []

/-! ## Writes that change the decode -/

/-- The lanes of a little-endian word that a `len`-byte access at `pa` covers take
the bytes of `v`, the most significant first. -/
def laneMerge (word pa v : U32) (len : ℕ) : U32 :=
  (List.range len).foldl
    (fun w k =>
      let lane := ((pa + BitVec.ofNat 32 k) &&& 3#32).toNat
      (w &&& ~~~(0xFF#32 <<< (8 * lane)))
        ||| (((v >>> (8 * (len - 1 - k))) &&& 0xFF#32) <<< (8 * lane)))
    word

/-- What a configuration write does to the word it composed and to the base
registers: a single-function device sizes its base registers by masking, follows
an address and not a sizing probe, and hardwires the rest to zero. -/
def latchBars (f : Fin 3) (sel reg word : U32) : SawtoothBus × U32 :=
  -- the sizing write of all ones is answered with the mask, and moves no window
  if f = 1 ∧ sel = kMacIoSel ∧ reg = 0x10#32 then
    let w := word &&& 0xFFF80000#32
    (if w ≠ 0xFFF80000#32 ∧ w ≠ 0#32 then { b with macioBar := w } else b, w)
  else if f = 1 ∧ (sel = kOhciSel 0 ∨ sel = kOhciSel 1) then
    let i : Fin 2 := if sel = kOhciSel 0 then 0 else 1
    if reg = 0x10#32 then
      let w := word &&& 0xFFFFF000#32
      (if w ≠ 0xFFFFF000#32 then { b with ohciBar := Function.update b.ohciBar i w } else b, w)
    else if (0x14#32 ≤ reg ∧ reg ≤ 0x2C#32) ∨ reg = 0x30#32 then (b, 0#32)
    else (b, word)
  else if f = 0 ∧ sel = 0x00010000#32 then
    if reg = 0x10#32 then
      let w := word &&& 0xFC000000#32
      (if w ≠ 0xFC000000#32 then { b with atiFbBar := w } else b, w)
    else if reg = 0x14#32 then
      let w := (word &&& 0xFFFFFF00#32) ||| 1#32
      let at_ := w &&& 0xFFFFFF00#32
      (if at_ ≠ 0xFFFFFF00#32 ∧ at_ < 0x00100000#32 then { b with atiIoBar := at_ } else b, w)
    else if reg = 0x18#32 then
      let w := word &&& 0xFFFFC000#32
      (if w ≠ 0xFFFFC000#32 then { b with atiRegBar := w } else b, w)
    else if reg = 0x30#32 then
      -- no option ROM, no ROM window
      if b.atiRomSize = 0 then (b, 0#32)
      else
        let w := (word &&& 0xFFFE0000#32) ||| (word &&& 1#32)
        (if w &&& 0xFFFE0000#32 ≠ 0xFFFE0000#32 then { b with atiRomBar := w } else b, w)
    else if 0x1C#32 ≤ reg ∧ reg ≤ 0x2C#32 then (b, 0#32)
    else (b, word)
  else (b, word)

/-- `cfgAccess` with `wr` set: the address latch, or the data window. -/
def cfgWrite (f : Fin 3) (pa v : U32) (len : ℕ) : SawtoothBus :=
  if pa &&& 0x00FFFFFF#32 < 0xC00000#32 then
    { b with cfgAddr := Function.update b.cfgAddr f (laneMerge (b.cfgAddr f) pa v len) }
  else if f = 0 ∧ b.cfgAddr 0 &&& 0x0FFFFF00#32 = 0x00010000#32 ∧ b.atiHidden then b
  else
    let latch := b.cfgAddr f
    let reg := (latch &&& 0xFC#32) ||| (pa &&& 7#32)
    let key := ((BitVec.ofNat 32 f.val <<< 28) ||| (latch &&& 0x00FFFF00#32)
      ||| (latch &&& 0xFC#32) ||| (pa &&& 7#32)) &&& ~~~3#32
    let word := laneMerge ((b.cfgSpace key).getD 0#32) pa v len
    let (b', w) := b.latchBars f (latch &&& 0x0FFFFF00#32) reg word
    { b' with cfgSpace := Function.update b'.cfgSpace key (some w) }

/-- The flash command a write carries. -/
def flashWrite (off v : U32) : SawtoothBus :=
  if b.flashMode = .kFlashProgram then { b with flashMode := .kFlashStatus }
  else
    let cmd : U8 := v.setWidth 8
    if cmd = 0xFF#8 ∨ cmd = 0x50#8 then { b with flashMode := .kFlashArray }
    else if cmd = 0x20#8 then { b with flashErase := off, flashMode := .kFlashEraseSetup }
    else if cmd = 0x40#8 ∨ cmd = 0x10#8 then { b with flashMode := .kFlashProgram }
    else { b with flashMode := .kFlashStatus }

/-- What a guest write leaves of the decode. -/
def write (pa v : U32) (len : ℕ) : SawtoothBus :=
  match b.writePlace pa len with
  | .cfg f => b.cfgWrite f pa v len
  | .flash off => b.flashWrite off v
  | _ => b

/-- The buses a guest can bring about: from power-on, any accesses, while drives
come and go, the card hides and the host throws its switches. -/
inductive Reachable : SawtoothBus → Prop
  | powerOn (ramSize romSize : ℕ) : Reachable { ramSize := ramSize, romSize := romSize }
  | write {b : SawtoothBus} (pa v : U32) (len : ℕ) : Reachable b → Reachable (b.write pa v len)
  | host {b : SawtoothBus} (soundOn klTimerOn atiHidden : Bool) (present : Device → Bool)
      (atiRomSize : ℕ) : Reachable b →
      Reachable { b with soundOn := soundOn, klTimerOn := klTimerOn, atiHidden := atiHidden,
                         present := present, atiRomSize := atiRomSize }

end SawtoothBus

end OpenPowerMac
