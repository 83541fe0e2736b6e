/-
The Gossamer's address map: `machine/include/opm/gossamer.hpp`,
`machine/src/gossamer.cpp`, and what it reads of `pci.cpp` and `ati.cpp`.

Six accessors decode an address, each with its own list of the windows it knows. What
stands behind the windows is here too: the banks the MPC106 claims, the direct-mapped
lookaside cache in front of them, the configuration space and the ATI aperture. The
registers of the mac-io and of the ATI are `Chips`: any four functions. A mac-io register
may start a transfer on this very bus, so its functions take and give the whole bus.

The watch windows, the logs and the counters of the instruments are left out.
-/
import OpenPowerMac.Bytes
import Mathlib.Data.Nat.Bitwise

set_option autoImplicit false

namespace OpenPowerMac

namespace Gossamer

/-- The bytes at the addresses of a list, read one after the other. -/
def readEach {σ κ : Type} (f : κ → σ → U8 × σ) : List κ → σ → List U8 × σ
  | [], s => ([], s)
  | a :: as, s =>
    let (b, s) := f a s
    let (bs, s) := readEach f as s
    (b :: bs, s)

/-- Bytes written one after the other, each at its address. -/
def writeEach {σ κ : Type} (f : κ → U8 → σ → σ) (ws : List (κ × U8)) (s : σ) : σ :=
  ws.foldl (fun s w => f w.1 w.2 s) s

/-! ## Configuration space -/

/-- `PciConfig::Dev`. -/
structure Dev where
  cfg : U8 → U8
  barMask : Fin 6 → U32

/-- `PciConfig::RamBank`. A bank that is enabled begins and ends on a megabyte. -/
structure RamBank where
  lo : U32
  hi : U32
  en : Bool
  megs : en = true → lo.toNat % 2 ^ 20 = 0 ∧ hi.toNat % 2 ^ 20 = 2 ^ 20 - 1

/-- A bank that claims nothing. -/
def RamBank.off : RamBank := ⟨0#32, 0#32, false, by simp⟩

/-- `PciConfig`. -/
structure PciConfig where
  devs : U32 → Option Dev
  addr : U32
  memGen : U32

def kAtiAperture : U32 := 0x00800000#32

/-- Four bytes of a register file, least significant first. -/
def le32 (c : U8 → U8) (o : U8) : U32 :=
  (c o).setWidth 32 ||| ((c (o + 1#8)).setWidth 32 <<< 8)
    ||| ((c (o + 2#8)).setWidth 32 <<< 16) ||| ((c (o + 3#8)).setWidth 32 <<< 24)

namespace PciConfig

/-- The register `CONFIG_ADDR` points at, in the lane of the access. -/
def reg (p : PciConfig) (lane : U32) : U8 := ((p.addr &&& 0xFC#32) ||| lane).setWidth 8

def devNum (p : PciConfig) : U32 := (p.addr >>> 11) &&& 0x1F#32

/-- The device the address selects: none while it is disabled, and none off bus 0. -/
def selected (p : PciConfig) : Option Dev :=
  if p.addr &&& 0x80000000#32 = 0#32 then none
  else if (p.addr >>> 16) &&& 0xFF#32 ≠ 0#32 then none
  else p.devs p.devNum

/-- `PciConfig::readData`. -/
def readData (p : PciConfig) (lane : U32) : U8 :=
  match p.selected with
  | none => 0xFF#8
  | some d => d.cfg (p.reg lane)

/-- What a write leaves in the selected device: a base address register takes only the
bits of its mask, the identification is read-only. `none` when nothing is written. -/
def writeDev (d : Dev) (reg v : U8) : Option Dev :=
  if 0x10#8 ≤ reg ∧ reg < 0x28#8 then
    let mask := d.barMask (Fin.ofNat 6 ((reg.toNat - 0x10) / 4))
    if mask = 0#32 then none
    else
      let maskByte : U8 := (mask >>> (8 * (reg.toNat % 4))).setWidth 8
      let keep := d.cfg reg &&& ~~~maskByte
      some { d with cfg := fun r => if r = reg then (v &&& maskByte) ||| keep else d.cfg r }
  else if reg < 0x08#8 then none
  else some { d with cfg := fun r => if r = reg then v else d.cfg r }

/-- `PciConfig::writeData`. The generation moves with the memory interface of the
bridge. -/
def writeData (p : PciConfig) (lane : U32) (v : U8) : PciConfig :=
  match p.selected with
  | none => p
  | some d =>
    match writeDev d (p.reg lane) v with
    | none => p
    | some d' =>
      { p with
        devs := fun n => if n = p.devNum then some d' else p.devs n
        memGen := if p.devNum = 0#32 ∧ 0x80#8 ≤ p.reg lane then p.memGen + 1#32 else p.memGen }

/-- A bank's boundary, of its two register bytes. -/
def bankStart (ext start : U8) : U32 :=
  ((ext.setWidth 32 &&& 3#32) <<< 28) ||| (start.setWidth 32 <<< 20)

theorem bankStart_megs (ext start : U8) : (bankStart ext start).toNat % 2 ^ 20 = 0 := by
  have h : ∀ (x : U32) (n : ℕ), 20 ≤ n → (x <<< n).toNat % 2 ^ 20 = 0 := by
    intro x n hn
    obtain ⟨m, rfl⟩ := Nat.exists_eq_add_of_le hn
    rw [BitVec.toNat_shiftLeft, Nat.shiftLeft_eq, Nat.mod_mod_of_dvd _ (by norm_num), pow_add,
      Nat.mul_left_comm, Nat.mul_mod_right]
  rw [bankStart, BitVec.toNat_or, Nat.or_mod_two_pow, h _ 28 (by norm_num),
    h _ 20 (by norm_num)]
  rfl

theorem bankEnd_megs (ext start : U8) :
    (bankStart ext start ||| 0xFFFFF#32).toNat % 2 ^ 20 = 2 ^ 20 - 1 := by
  rw [BitVec.toNat_or, Nat.or_mod_two_pow, bankStart_megs]
  rfl

/-- `PciConfig::ramBanks`, for a bridge that is there. -/
def ramBanks (c : U8 → U8) (n : Fin 8) : RamBank :=
  let lowBank : U8 := BitVec.ofNat 8 (n.val % 4)
  let of (lo hi : U8) : U8 := c ((if n.val < 4 then lo else hi) + lowBank)
  { lo := bankStart (of 0x88#8 0x8C#8) (of 0x80#8 0x84#8)
    hi := bankStart (of 0x98#8 0x9C#8) (of 0x90#8 0x94#8) ||| 0xFFFFF#32
    en := (c 0xA0#8).getLsbD n.val
    megs := fun _ => ⟨bankStart_megs _ _, bankEnd_megs _ _⟩ }

/-- `PciConfig::memGo`, for a bridge that is there. -/
def memGo (c : U8 → U8) : Bool := (le32 c 0xF0#8).getLsbD 19

/-- `PciConfig::atiBase`. -/
def atiBase (p : PciConfig) : U32 :=
  match p.devs 0x12#32 with
  | none => 0#32
  | some d => le32 d.cfg 0x10#8 &&& ~~~(kAtiAperture - 1#32)

/-- `PciConfig::atiIoBase`. -/
def atiIoBase (p : PciConfig) : U32 :=
  match p.devs 0x12#32 with
  | none => 0#32
  | some d => le32 d.cfg 0x14#8 &&& 0xFFFFFF00#32

end PciConfig

/-! ## The bus -/

/-- `GossamerBus::Ml2Line`, and what `assign` puts in every slot. -/
structure Ml2Line where
  v : Bool := false
  d : Bool := false
  tag : U32 := 0#32
  b : BitVec 5 → U8 := fun _ => 0#8

/-- `AtiRage`: the memory behind the aperture, and the chip. -/
structure AtiRage (α : Type) where
  vram : U32 → U8
  chip : α

/-- `GossamerBus`. The module behind the banks has a power of two of bytes, as the
constructor sees to; what a read past the image of the ROM would find is part of `rom`. -/
structure GossamerBus (μ α : Type) where
  ramLog : ℕ
  ram : U32 → U8
  rom : ℕ → U8
  macio : μ
  pci : PciConfig
  ati : AtiRage α
  forceBank0 : Bool := false
  bankGen : U32 := 0xFFFFFFFF#32
  banks : Fin 8 → RamBank := fun _ => .off
  memGo : Bool := false
  ml2 : U32 → Ml2Line := fun _ => {}
  ml2Lines : U32 := 0#32
  ml2On : Bool := false
  configAddr : U32 := 0#32

/-- The registers of the two chips, byte by byte. -/
structure Chips (μ α : Type) where
  macRead8 : U32 → GossamerBus μ α → U8 × GossamerBus μ α
  macWrite8 : U32 → U8 → GossamerBus μ α → GossamerBus μ α
  regRead8 : U32 → Bool → α → U8 × α
  regWrite8 : U32 → U8 → Bool → α → α

/-- Chips that answer zero and keep nothing. -/
def quietChips : Chips Unit Unit where
  macRead8 _ s := (0#8, s)
  macWrite8 _ _ s := s
  regRead8 _ _ r := (0#8, r)
  regWrite8 _ _ _ r := r

def kRomAlias : U32 := 0xFF800000#32
def kRomMask : U32 := 0x003FFFFF#32
def kRomSize : ℕ := 0x00400000
def kMacIoBase : U32 := 0xF3000000#32
def kMacIoSize : U32 := 0x00100000#32
def kConfigAddr : U32 := 0xFEC00000#32
def kConfigData : U32 := 0xFEE00000#32
def kRegTop : U32 := kAtiAperture - 0x800#32
/-- Where the 60x memory space ends. -/
def kMemSpace : U32 := 0x40000000#32

namespace GossamerBus

variable {μ α : Type} (chips : Chips μ α)

/-- `ram_.size() - 1`, the mask of the module's address lines. -/
def ramMask (s : GossamerBus μ α) : U32 := BitVec.ofNat 32 (2 ^ s.ramLog) - 1#32

/-- Whether the configuration turns the internal lookaside cache on. -/
def ml2Enabled (c : U8 → U8) : Bool :=
  let picr1 := le32 c 0xA8#8
  let picr2 := le32 c 0xAC#8
  let mp := picr1 &&& 3#32
  (decide (mp = 1#32) || decide (mp = 2#32)) && !picr1.getLsbD 8 && picr2.getLsbD 30

/-- How many lines it then has. -/
def ml2Size (c : U8 → U8) : U32 :=
  (0x40000#32 <<< ((le32 c 0xAC#8 >>> 4) &&& 3#32).toNat) / 32#32

/-- `GossamerBus::memCfgRefresh`. -/
def memCfgRefresh (s : GossamerBus μ α) : GossamerBus μ α :=
  if s.bankGen = s.pci.memGen then s
  else
    match s.pci.devs 0#32 with
    | none => { s with bankGen := s.pci.memGen, memGo := false, ml2On := false }
    | some d =>
      let s := { s with
        bankGen := s.pci.memGen
        banks := PciConfig.ramBanks d.cfg
        memGo := PciConfig.memGo d.cfg
        ml2On := ml2Enabled d.cfg }
      if ml2Enabled d.cfg ∧ ml2Size d.cfg ≠ s.ml2Lines then
        { s with ml2Lines := ml2Size d.cfg, ml2 := fun _ => {} }
      else s

/-- One bank's claim. -/
def bankClaim (s : GossamerBus μ α) (pa : U32) (n : Fin 8) : Option U32 :=
  if (s.banks n).en ∧ (s.banks n).lo ≤ pa ∧ pa ≤ (s.banks n).hi then
    some ((pa - (s.banks n).lo) &&& s.ramMask)
  else none

/-- `GossamerBus::ramClaim`, once the decode is fresh. -/
def ramClaim (s : GossamerBus μ α) (pa : U32) : Option U32 :=
  if s.forceBank0 ∧ pa.toNat < 2 ^ s.ramLog then some pa
  else if s.memGo then (List.finRange 8).findSome? (s.bankClaim pa)
  else none

/-- The slot of an address. -/
def ml2Index (s : GossamerBus μ α) (pa : U32) : U32 := (pa >>> 5) % s.ml2Lines

/-- `GossamerBus::ml2Lookup`, once the decode is fresh: the slot that holds the line. -/
def ml2Lookup (s : GossamerBus μ α) (pa : U32) : Option U32 :=
  if s.ml2On ∧ pa < kMemSpace then
    let e := s.ml2 (s.ml2Index pa)
    if e.v ∧ e.tag = pa >>> 5 then some (s.ml2Index pa) else none
  else none

/-- The byte of an address in its line. -/
def lineOff (pa : U32) : BitVec 5 := pa.setWidth 5

/-- Bytes put in a slot, which is then dirty. -/
def ml2Write (i : U32) (o : BitVec 5) (v : U8) (s : GossamerBus μ α) : GossamerBus μ α :=
  { s with
    ml2 := fun j => if j = i then
      { s.ml2 i with d := true, b := fun k => if k = o then v else (s.ml2 i).b k } else s.ml2 j }

def ramWrite (off : U32) (v : U8) (s : GossamerBus μ α) : GossamerBus μ α :=
  { s with ram := fun a => if a = off then v else s.ram a }

/-- `GossamerBus::atiWindow`. -/
def atiWindow (s : GossamerBus μ α) (pa : U32) : Option U32 :=
  if s.pci.atiBase ≠ 0#32 ∧ pa - s.pci.atiBase < kAtiAperture then some (pa - s.pci.atiBase)
  else if pa - 0x8F800000#32 < kAtiAperture then some (pa - 0x8F800000#32)
  else none

/-- `GossamerBus::atiIoWindow`. -/
def atiIoWindow (s : GossamerBus μ α) (pa : U32) : Option U32 :=
  let io := s.pci.atiIoBase
  if io = 0#32 ∨ pa < 0xFE000000#32 + io ∨ 0x100#32 ≤ pa - (0xFE000000#32 + io) then none
  else some (pa - (0xFE000000#32 + io))

def inMacIo (pa : U32) : Bool := decide (kMacIoBase ≤ pa) && decide (pa < kMacIoBase + kMacIoSize)

/-- `AtiRage::apRead8`. -/
def apRead8 (off : U32) (s : GossamerBus μ α) : U8 × GossamerBus μ α :=
  if kRegTop ≤ off then
    let (v, chip) := chips.regRead8 ((off - kRegTop) &&& 0x3FF#32) false s.ati.chip
    (v, { s with ati := { s.ati with chip := chip } })
  else (s.ati.vram off, s)

/-- `AtiRage::apWrite8`. -/
def apWrite8 (off : U32) (v : U8) (s : GossamerBus μ α) : GossamerBus μ α :=
  if kRegTop ≤ off then
    { s with ati := { s.ati with
      chip := chips.regWrite8 ((off - kRegTop) &&& 0x3FF#32) v false s.ati.chip } }
  else { s with ati := { s.ati with vram := fun a => if a = off then v else s.ati.vram a } }

/-- `AtiRage::ioRead8`. -/
def ioRead8 (off : U32) (s : GossamerBus μ α) : U8 × GossamerBus μ α :=
  let (v, chip) := chips.regRead8 (off &&& 0xFF#32) true s.ati.chip
  (v, { s with ati := { s.ati with chip := chip } })

/-- `AtiRage::ioWrite8`. -/
def ioWrite8 (off : U32) (v : U8) (s : GossamerBus μ α) : GossamerBus μ α :=
  { s with ati := { s.ati with chip := chips.regWrite8 (off &&& 0xFF#32) v true s.ati.chip } }

def dataRead8 (lane : U32) (s : GossamerBus μ α) : U8 × GossamerBus μ α := (s.pci.readData lane, s)

def dataWrite8 (lane : U32) (v : U8) (s : GossamerBus μ α) : GossamerBus μ α :=
  { s with pci := s.pci.writeData lane v }

/-- `GossamerBus::readWord`: nothing but the address latch answers. -/
def readWord (s : GossamerBus μ α) (pa : U32) : U32 :=
  if pa = kConfigAddr then s.configAddr else 0xFFFFFFFF#32

/-- `GossamerBus::writeWord`. -/
def writeWord (pa v : U32) (s : GossamerBus μ α) : GossamerBus μ α :=
  if pa = kConfigAddr then
    { s with
      configAddr := v
      pci := { s.pci with
        addr := ((v &&& 0xFF#32) <<< 24) ||| ((v &&& 0xFF00#32) <<< 8)
          ||| ((v >>> 8) &&& 0xFF00#32) ||| (v >>> 24) } }
  else s

/-! ## Reads -/

/-- `GossamerBus::read8` from the ROM's test on. -/
def read8Beyond (pa : U32) (s : GossamerBus μ α) : U8 × GossamerBus μ α :=
  if kRomAlias ≤ pa then (s.rom (pa &&& kRomMask).toNat, s)
  else if inMacIo pa then chips.macRead8 (pa - kMacIoBase) s
  else if pa &&& ~~~3#32 = kConfigData then dataRead8 (pa &&& 3#32) s
  else
    match s.atiWindow pa with
    | some off => apRead8 chips off s
    | none =>
      match s.atiIoWindow pa with
      | some off => ioRead8 chips off s
      | none =>
        ((s.readWord (pa &&& ~~~3#32) >>> (8 * (3 - (pa &&& 3#32).toNat))).setWidth 8, s)

/-- `GossamerBus::read8`. Below `0x40000000` the lookup and the claim both begin by
refreshing the decode, and the second of the two finds it fresh. -/
def read8 (pa : U32) (s : GossamerBus μ α) : U8 × GossamerBus μ α :=
  if pa < kMemSpace then
    let s := s.memCfgRefresh
    match s.ml2Lookup pa with
    | some i => ((s.ml2 i).b (lineOff pa), s)
    | none =>
      match s.ramClaim pa with
      | some ro => (s.ram ro, s)
      | none => read8Beyond chips pa s
  else read8Beyond chips pa s

/-- `GossamerBus::read16` from the ROM's test on. -/
def read16Beyond (pa : U32) (s : GossamerBus μ α) : List U8 × GossamerBus μ α :=
  if kRomAlias ≤ pa then
    ([s.rom (pa &&& kRomMask).toNat, s.rom ((pa + 1#32) &&& kRomMask).toNat], s)
  else if inMacIo pa then
    readEach chips.macRead8 [pa - kMacIoBase, pa - kMacIoBase + 1#32] s
  else
    (bytes16 ((s.readWord (pa &&& ~~~3#32) >>> (if pa &&& 2#32 ≠ 0#32 then 0 else 16)).setWidth 16), s)

/-- The bytes of `GossamerBus::read16`, most significant first. -/
def read16Bytes (pa : U32) (s : GossamerBus μ α) : List U8 × GossamerBus μ α :=
  if pa < kMemSpace then
    if 30#32 < pa &&& 31#32 then readEach (read8 chips) [pa, pa + 1#32] s
    else
      let s := s.memCfgRefresh
      match s.ml2Lookup pa with
      | some i => ([(s.ml2 i).b (lineOff pa), (s.ml2 i).b (lineOff pa + 1#5)], s)
      | none =>
        match s.ramClaim pa with
        | some ro => ([s.ram ro, s.ram ((ro + 1#32) &&& s.ramMask)], s)
        | none => read16Beyond chips pa s
  else read16Beyond chips pa s

/-- `GossamerBus::read16`. -/
def read16 (pa : U32) (s : GossamerBus μ α) : U16 × GossamerBus μ α :=
  let (bs, s) := read16Bytes chips pa s
  (ofBytes 16 bs, s)

/-- `GossamerBus::read32` from the ROM's test on. -/
def read32Beyond (pa : U32) (s : GossamerBus μ α) : List U8 × GossamerBus μ α :=
  if kRomAlias ≤ pa then
    let off := (pa &&& kRomMask).toNat
    ([s.rom off, s.rom (off + 1), s.rom (off + 2), s.rom (off + 3)], s)
  else if inMacIo pa then
    let off := pa - kMacIoBase
    readEach chips.macRead8 [off, off + 1#32, off + 2#32, off + 3#32] s
  else if pa &&& ~~~3#32 = kConfigData then readEach dataRead8 [0#32, 1#32, 2#32, 3#32] s
  else
    match s.atiWindow pa with
    | some off => readEach (apRead8 chips) [off, off + 1#32, off + 2#32, off + 3#32] s
    | none =>
      match s.atiIoWindow pa with
      | some off => readEach (ioRead8 chips) [off, off + 1#32, off + 2#32, off + 3#32] s
      | none => (bytes32 (s.readWord pa), s)

/-- The bytes of `GossamerBus::read32`, most significant first. -/
def read32Bytes (pa : U32) (s : GossamerBus μ α) : List U8 × GossamerBus μ α :=
  if pa < kMemSpace then
    -- across a line: byte by byte
    if 28#32 < pa &&& 31#32 then
      readEach (read8 chips) [pa, pa + 1#32, pa + 2#32, pa + 3#32] s
    else
      let s := s.memCfgRefresh
      match s.ml2Lookup pa with
      | some i =>
        let o := lineOff pa
        let e := s.ml2 i
        ([e.b o, e.b (o + 1#5), e.b (o + 2#5), e.b (o + 3#5)], s)
      | none =>
        match s.ramClaim pa with
        | some ro =>
          let m := s.ramMask
          ([s.ram ro, s.ram ((ro + 1#32) &&& m), s.ram ((ro + 2#32) &&& m),
            s.ram ((ro + 3#32) &&& m)], s)
        | none => read32Beyond chips pa s
  else read32Beyond chips pa s

/-- `GossamerBus::read32`. -/
def read32 (pa : U32) (s : GossamerBus μ α) : U32 × GossamerBus μ α :=
  let (bs, s) := read32Bytes chips pa s
  (ofBytes 32 bs, s)

/-- `GossamerBus::read64`. -/
def read64 (pa : U32) (s : GossamerBus μ α) : U64 × GossamerBus μ α :=
  let (hi, s) := read32 chips pa s
  let (lo, s) := read32 chips (pa + 4#32) s
  ((hi.setWidth 64 <<< 32) ||| lo.setWidth 64, s)

/-! ## Writes -/

/-- `GossamerBus::write8` from the ROM's test on. -/
def write8Beyond (pa : U32) (v : U8) (s : GossamerBus μ α) : GossamerBus μ α :=
  if kRomAlias ≤ pa then s
  else if inMacIo pa then chips.macWrite8 (pa - kMacIoBase) v s
  else if pa &&& ~~~3#32 = kConfigData then dataWrite8 (pa &&& 3#32) v s
  else
    match s.atiWindow pa with
    | some off => apWrite8 chips off v s
    | none =>
      match s.atiIoWindow pa with
      | some off => ioWrite8 chips off v s
      | none => writeWord (pa &&& ~~~3#32) (v.setWidth 32 <<< (8 * (3 - (pa &&& 3#32).toNat))) s

/-- `GossamerBus::write8`. -/
def write8 (pa : U32) (v : U8) (s : GossamerBus μ α) : GossamerBus μ α :=
  if pa < kMemSpace then
    let s := s.memCfgRefresh
    match s.ml2Lookup pa with
    | some i => ml2Write i (lineOff pa) v s
    | none =>
      match s.ramClaim pa with
      | some ro => ramWrite ro v s
      | none => write8Beyond chips pa v s
  else write8Beyond chips pa v s

/-- `GossamerBus::write16` from the ROM's test on. -/
def write16Beyond (pa : U32) (v : U16) (s : GossamerBus μ α) : GossamerBus μ α :=
  if kRomAlias ≤ pa then s
  else if inMacIo pa then
    writeEach chips.macWrite8
      ([pa - kMacIoBase, pa - kMacIoBase + 1#32].zip (bytes16 v)) s
  else
    writeWord (pa &&& ~~~3#32) (v.setWidth 32 <<< (if pa &&& 2#32 ≠ 0#32 then 0 else 16)) s

/-- `GossamerBus::write16`. -/
def write16 (pa : U32) (v : U16) (s : GossamerBus μ α) : GossamerBus μ α :=
  if pa < kMemSpace then
    if 30#32 < pa &&& 31#32 then
      writeEach (write8 chips) ([pa, pa + 1#32].zip (bytes16 v)) s
    else
      let s := s.memCfgRefresh
      match s.ml2Lookup pa with
      | some i =>
        writeEach (ml2Write i) ([lineOff pa, lineOff pa + 1#5].zip (bytes16 v)) s
      | none =>
        match s.ramClaim pa with
        | some ro => writeEach ramWrite ([ro, (ro + 1#32) &&& s.ramMask].zip (bytes16 v)) s
        | none => write16Beyond chips pa v s
  else write16Beyond chips pa v s

/-- `GossamerBus::write32` from the ROM's test on. -/
def write32Beyond (pa v : U32) (s : GossamerBus μ α) : GossamerBus μ α :=
  if kRomAlias ≤ pa then s
  else if inMacIo pa then
    let off := pa - kMacIoBase
    writeEach chips.macWrite8
      ([off, off + 1#32, off + 2#32, off + 3#32].zip (bytes32 v)) s
  else if pa &&& ~~~3#32 = kConfigData then
    writeEach dataWrite8 ([0#32, 1#32, 2#32, 3#32].zip (bytes32 v)) s
  else
    match s.atiWindow pa with
    | some off =>
      writeEach (apWrite8 chips) ([off, off + 1#32, off + 2#32, off + 3#32].zip (bytes32 v)) s
    | none =>
      match s.atiIoWindow pa with
      | some off =>
        writeEach (ioWrite8 chips) ([off, off + 1#32, off + 2#32, off + 3#32].zip (bytes32 v)) s
      | none => writeWord pa v s

/-- `GossamerBus::write32`. -/
def write32 (pa v : U32) (s : GossamerBus μ α) : GossamerBus μ α :=
  if pa < kMemSpace then
    -- across a line: byte by byte
    if 28#32 < pa &&& 31#32 then
      writeEach (write8 chips) ([pa, pa + 1#32, pa + 2#32, pa + 3#32].zip (bytes32 v)) s
    else
      let s := s.memCfgRefresh
      match s.ml2Lookup pa with
      | some i =>
        let o := lineOff pa
        writeEach (ml2Write i) ([o, o + 1#5, o + 2#5, o + 3#5].zip (bytes32 v)) s
      | none =>
        match s.ramClaim pa with
        | some ro =>
          let m := s.ramMask
          writeEach ramWrite
            ([ro, (ro + 1#32) &&& m, (ro + 2#32) &&& m, (ro + 3#32) &&& m].zip (bytes32 v)) s
        | none => write32Beyond chips pa v s
  else write32Beyond chips pa v s

/-- `GossamerBus::write64`. -/
def write64 (pa : U32) (v : U64) (s : GossamerBus μ α) : GossamerBus μ α :=
  write32 chips (pa + 4#32) (v.setWidth 32)
    (write32 chips pa ((v >>> 32).setWidth 32) s)

/-! ## Bursts -/

/-- The bytes of a line put back where the banks have them: the cast-out of
`GossamerBus::ml2Route`. -/
def ml2CastOut (e : Ml2Line) (s : GossamerBus μ α) : GossamerBus μ α :=
  (List.range 32).foldl
    (fun s k =>
      match s.ramClaim ((e.tag <<< 5) + BitVec.ofNat 32 k) with
      | some off => ramWrite off (e.b (BitVec.ofNat 5 k)) s
      | none => s)
    s

/-- The line as the banks have it, all ones where none does: the fill. -/
def ml2Fill (s : GossamerBus μ α) (pa : U32) : Ml2Line :=
  { v := true
    d := false
    tag := pa >>> 5
    b := fun k =>
      match s.ramClaim ((pa &&& ~~~31#32) + k.setWidth 32) with
      | some off => s.ram off
      | none => 0xFF#8 }

/-- `GossamerBus::ml2Route`: the slot that holds the line now, or `none` when the cache
does not take the address. -/
def ml2Route (pa : U32) (s : GossamerBus μ α) : Option U32 × GossamerBus μ α :=
  let s := s.memCfgRefresh
  if s.ml2On = false ∨ kMemSpace ≤ pa then (none, s)
  else
    let idx := s.ml2Index pa
    let e := s.ml2 idx
    if e.v ∧ e.tag = pa >>> 5 then (some idx, s)
    else
      let s := if e.v ∧ e.d then ml2CastOut e s else s
      (some idx, { s with ml2 := fun j => if j = idx then s.ml2Fill pa else s.ml2 j })

/-- `Bus::readLine32`, which the bus falls back on. -/
def busReadLine32 (pa : U32) (s : GossamerBus μ α) : List U8 × GossamerBus μ α :=
  (List.range 8).foldl
    (fun (out, s) k =>
      let (w, s) := read32 chips (pa + BitVec.ofNat 32 (4 * k)) s
      (out ++ bytes32 w, s))
    ([], s)

/-- `Bus::writeLine32`. -/
def busWriteLine32 (pa : U32) (b : BitVec 5 → U8) (s : GossamerBus μ α) : GossamerBus μ α :=
  (List.range 8).foldl
    (fun s k =>
      write32 chips (pa + BitVec.ofNat 32 (4 * k))
        (ofBytes 32 ((List.range 4).map fun j => b (BitVec.ofNat 5 (4 * k + j)))) s)
    s

/-- The bytes of a line, first byte first. -/
def lineBytes (b : BitVec 5 → U8) : List U8 := (List.range 32).map fun k => b (BitVec.ofNat 5 k)

/-- `GossamerBus::readLine32`. -/
def readLine32 (pa : U32) (s : GossamerBus μ α) : List U8 × GossamerBus μ α :=
  if pa < kMemSpace then
    match ml2Route pa s with
    | (some i, s) => (lineBytes (s.ml2 i).b, s)
    | (none, s) => busReadLine32 chips pa s
  else busReadLine32 chips pa s

/-- `GossamerBus::writeLine32`. -/
def writeLine32 (pa : U32) (b : BitVec 5 → U8) (s : GossamerBus μ α) : GossamerBus μ α :=
  if pa < kMemSpace then
    match ml2Route pa s with
    | (some i, s) =>
      { s with ml2 := fun j => if j = i then { s.ml2 i with b := b, d := true } else s.ml2 j }
    | (none, s) => busWriteLine32 chips pa b s
  else busWriteLine32 chips pa b s

end GossamerBus

end Gossamer

end OpenPowerMac
