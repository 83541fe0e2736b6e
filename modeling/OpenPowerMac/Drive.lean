/-
The whole of an ATA cell, from `machine/src/ata.cpp` and `machine/include/opm/ata.hpp`: the
task file, the write path, the packet commands, the medium and the deferred command.

The data phases are those of `Ata`, which this extends. A file of the host that an image is
opened from is what opening it gives; how many bytes of a sector the host takes when one is
written is `takes`. The command log, the traces and the counters that only a report reads are
left out.
-/
import OpenPowerMac.AtaRead
import Mathlib.Logic.Function.Basic

set_option autoImplicit false

namespace OpenPowerMac

namespace Ata

open Cell

/-! ## The medium -/

/-- A row of a disc's table (`CdTrack`), as far as READ TOC tells it. -/
structure TocTrack where
  number : ℕ
  audio : Bool
  startLba : ℕ

/-- What `CdImage::open` makes of a file. -/
structure Medium where
  disc : Disc
  blocks : ℕ
  tracks : List TocTrack

/-- `CdImage::close`: every block reads as zeros. -/
def Medium.closed : Medium where
  disc := { audioAt := fun _ => false, readBlock := fun _ _ => 0#8 }
  blocks := 0
  tracks := []

/-- The path of a file of the host. -/
abbrev Path := List U8

/-- `AtaCell`, with what the data phases of `Cell` do not look at. -/
structure Drive extends Cell where
  iso : Bool
  diskSectors : ℕ
  takes : ℕ → ℕ
  blocks : ℕ
  tracks : List TocTrack
  wrLeft : ℕ
  wrLba : ℕ
  features : U8
  devctl : U8
  cdbPhase : Bool
  cdb : Fin 12 → U8
  cdbAt : ℕ
  asc : U8
  ascq : U8
  seated : Bool
  ejected : Bool
  locked : Bool
  noDoorLock : Bool
  unitAttention : Bool
  absentSeen : Bool
  stagedPath : Path
  ejectedAtTb : U64
  pending : Bool
  pendCmd : U8
  pendAtTb : U64
  pendNsect : U8
  pendLba0 : U8
  pendBcLo : U8
  pendBcHi : U8
  pendDev : U8
  cmdDelayTb : U64
  multiple : U8
  dmaIrqLatch : Bool
  ctl : Fin 16 → U32
  tbRef : Option U64

namespace Drive

def kBsy : U8 := 0x80#8

/-- `media_.ok()`. -/
def mediaOk (d : Drive) : Bool := !d.tracks.isEmpty

/-- `present`. -/
def present (d : Drive) : Bool := d.seated || d.iso || d.mediaOk

/-- `mediaPresent`. -/
def mediaPresent (d : Drive) : Bool := if d.disk then d.iso else d.mediaOk && !d.ejected

def kSwapDwellTb : U64 := 25000000#64
def kSwapFallbackTb : U64 := 125000000#64

/-- `hostEject`. -/
def hostEject (d : Drive) : Drive :=
  if d.disk ∨ d.ejected then d
  else
    { d with
      ejected := true
      absentSeen := false
      ejectedAtTb := d.tbRef.getD 0#64
      readLeft := 0 }

/-- A medium takes the place of the one that was open. -/
def seatMedium (d : Drive) (m : Medium) : Drive :=
  { d with media := m.disc, blocks := m.blocks, tracks := m.tracks }

/-- `hostInsert`, of a file that opens or does not. -/
def hostInsert (d : Drive) (found : Option Medium) : Bool × Drive :=
  if d.disk then (false, d)
  else
    match found with
    | none => (false, { d.seatMedium .closed with ejected := true })
    | some m =>
        (true, { d.seatMedium m with
          seated := true
          ejected := false
          unitAttention := true
          absentSeen := false
          readsSinceInsert := 0 })

/-- `hostSwap`. -/
def hostSwap (d : Drive) (files : Path → Option Medium) (path : Path) : Bool × Drive :=
  if d.disk then (false, d)
  else if !d.mediaPresent then d.hostInsert (files path)
  else (true, { d with stagedPath := path }.hostEject)

/-- `hostStage`. -/
def hostStage (d : Drive) (files : Path → Option Medium) (path : Path) : Bool × Drive :=
  if d.disk then (false, d)
  else if !d.mediaPresent ∨ d.readsSinceInsert = 0 then d.hostSwap files path
  else (true, { d with stagedPath := path })

/-- `checkCondition`. -/
def checkCondition (d : Drive) (key asc ascq : U8) : Drive :=
  { d with
    sense := key
    asc := asc
    ascq := ascq
    error := 0x04#8 ||| (key <<< 4)
    data := []
    dataAt := 0
    readLeft := 0
    nsect := kIo ||| kCoD
    status := kDrdy ||| kErr
    irq := true }

/-- `needsMedium`. -/
def needsMedium (op : U8) : Bool :=
  op ∈ [0x00#8, 0x25#8, 0x28#8, 0x2B#8, 0x42#8, 0x43#8, 0x44#8, 0x4B#8, 0x51#8, 0x52#8, 0xA4#8,
    0xA8#8, 0xAD#8, 0xB9#8, 0xBE#8]

/-! ## Data phases -/

/-- `diskStartRead`. -/
def diskStartRead (d : Drive) : Drive := { d with toCell := d.toCell.diskStartRead }

/-- `finishPio`. -/
def finishPio (d : Drive) (chunkDrained : Bool) : Drive :=
  { d with toCell := d.toCell.finishPio chunkDrained }

/-- `dmaTake`, with a bound on the turns of its loop. -/
def dmaTake (fuel : ℕ) (d : Drive) (n : ℕ) : Option (List U8 × Drive) :=
  (d.toCell.dmaTake fuel n).map fun r => (r.1, { d with toCell := r.2 })

/-- `fwrite` at an offset: a gap behind the end of the file is filled with zeros. -/
def writeImage (image : List U8) (at_ : ℕ) (bs : List U8) : List U8 :=
  if bs = [] then image
  else
    (image ++ List.replicate (at_ - image.length) 0#8).take at_ ++ bs ++ image.drop (at_ + bs.length)

/-- `commitWriteSector`. -/
def commitWriteSector (d : Drive) : Bool × Drive :=
  let landed := d.data.take (d.takes d.wrLba)
  let d := { d with image := writeImage d.image (d.wrLba * 512) landed }
  -- a short write to the image ends the command with an error
  if landed.length ≠ d.data.length then
    (false, { d with
      error := 0x04#8
      status := kDrdy ||| kDsc ||| kErr
      wrLeft := 0
      dataAt := 0
      data := []
      irq := true })
  else
    let left := d.wrLeft - 1
    (true, { d with
      wrLba := d.wrLba + 1
      wrLeft := left
      dataAt := 0
      status := (if left ≠ 0 ∧ !d.dmaArmed then kDrq else 0#8) ||| (kDrdy ||| kDsc)
      data := if left = 0 then [] else d.data
      irq := true })

/-- Bytes of the host stored in the buffer. -/
def fill (d : Drive) (bs : List U8) : Drive :=
  { d with
    data := d.data.take d.dataAt ++ bs ++ d.data.drop (d.dataAt + bs.length)
    dataAt := d.dataAt + bs.length }

/-- How many bytes the buffer has room for. -/
def room (d : Drive) : ℕ := d.data.length - d.dataAt

/-- The loop of `dmaGive`, which a committed sector turns: how many bytes are taken. -/
def giveLoop : ℕ → Drive → List U8 → ℕ × Drive
  | 0, d, _ => (0, d)
  | left + 1, d, src =>
      if src = [] ∨ d.data = [] then (0, d)
      else
        let bs := src.take d.room
        let d := d.fill bs
        if d.dataAt < d.data.length then (bs.length, d)
        else
          let (wrote, d) := d.commitWriteSector
          if wrote then
            let (moved, d) := giveLoop left d (src.drop bs.length)
            (bs.length + moved, d)
          else (bs.length, d)

/-- `dmaGive`. -/
def dmaGive (d : Drive) (src : List U8) : ℕ × Drive := giveLoop d.wrLeft d src

/-! ## The hard disk's commands -/

/-- A word of the IDENTIFY data, low byte first. -/
def w16 (data : List U8) (word : ℕ) (val : U16) : List U8 :=
  (data.set (2 * word) (val.setWidth 8)).set (2 * word + 1) ((val >>> 8).setWidth 8)

/-- A text of the IDENTIFY data: blanks behind it, and the bytes of each word swapped. -/
def text (data : List U8) (word words : ℕ) (s : String) : List U8 :=
  (List.range (words * 2)).foldl
    (fun data k => data.set (2 * word + (k ^^^ 1))
      (BitVec.ofNat 8 ((s.toList[k]?).getD ' ').toNat)) data

/-- The data of IDENTIFY DEVICE. -/
def identify (d : Drive) : List U8 :=
  let secs : U32 := BitVec.ofNat 32 (if d.diskSectors > 0x0FFFFFFF then 0x0FFFFFFF else d.diskSectors)
  let data := List.replicate 512 0#8
  let data := w16 (w16 (w16 (w16 data 0 0x0040#16) 1 16383#16) 3 16#16) 6 63#16
  let data := text (text (text data 10 10 "OPM00000001") 23 4 "1.0 ") 27 20 "OpenPowerMac Hard Disk"
  let data := w16 (w16 (w16 (w16 data 47 0x8010#16) 49 0x0300#16) 53 0x0003#16) 54 16383#16
  let data := w16 (w16 data 55 (d.curHeads.setWidth 16)) 56 (d.curSectors.setWidth 16)
  let data := w16 (w16 data 57 (secs.setWidth 16)) 58 ((secs >>> 16).setWidth 16)
  let data := w16 data 59 (0x0100#16 ||| 16#16)
  let data := w16 (w16 data 60 (secs.setWidth 16)) 61 ((secs >>> 16).setWidth 16)
  let data := w16 (w16 (w16 (w16 data 63 0x0007#16) 51 0x0200#16) 64 0x0003#16) 65 120#16
  let data := w16 (w16 (w16 (w16 data 67 120#16) 68 120#16) 80 0x001E#16) 82 0x0000#16
  w16 data 88 0x0000#16

/-- The signature of a drive that is no packet drive. -/
def diskSignature (d : Drive) : Drive :=
  { d with nsect := 0x01#8, lba0 := 0x01#8, bcLo := 0x00#8, bcHi := 0x00#8 }

/-- The WRITE commands of `diskCommand`. -/
def writeCommands : List U8 := [0x30#8, 0x31#8, 0xC5#8, 0xCA#8, 0xCB#8]

/-- The commands that `diskCommand` only acknowledges. -/
def idleCommands : List U8 :=
  [0x40#8, 0x41#8, 0xE7#8, 0xEA#8, 0xEF#8, 0x10#8, 0xE0#8, 0xE1#8, 0xE2#8, 0xE3#8, 0xE6#8]

/-- A command that is done. -/
def acknowledge (d : Drive) : Drive := { d with status := kDrdy ||| kDsc, irq := true }

/-- The WRITE arm of `diskCommand`. -/
def startWrite (d : Drive) : Drive :=
  { d with
    wrLba := d.diskLba.toNat
    wrLeft := if d.nsect ≠ 0#8 then d.nsect.toNat else 256
    data := List.replicate 512 0#8
    dataAt := 0
    status := (if d.dmaArmed then 0#8 else kDrq) ||| (kDrdy ||| kDsc) }

/-- `diskCommand`. -/
def diskCommand (d : Drive) (cmd : U8) : Drive :=
  let d := { d with error := 0#8 }
  -- IDENTIFY DEVICE
  if cmd = 0xEC#8 then
    { d with
      data := d.identify
      dataAt := 0
      nsect := 0#8
      status := kDrq ||| (kDrdy ||| kDsc)
      irq := true }
  else if cmd ∈ readCommands then
    { d with
      readLba := d.diskLba.toNat
      -- a sector count of zero asks for 256
      readLeft := if d.nsect ≠ 0#8 then d.nsect.toNat else 256 }.diskStartRead
  else if cmd ∈ writeCommands then d.startWrite
  -- SET MULTIPLE MODE, then INITIALIZE DEVICE PARAMETERS
  else if cmd = 0xC6#8 then { d with multiple := d.nsect }.acknowledge
  else if cmd = 0x91#8 then
    { d with
      curSectors := if d.nsect ≠ 0#8 then d.nsect else d.curSectors
      curHeads := (d.dev &&& 0x0F#8) + 1#8 }.acknowledge
  else if cmd ∈ idleCommands then d.acknowledge
  -- CHECK POWER MODE: the drive is awake
  else if cmd = 0xE5#8 then { d with nsect := 0xFF#8 }.acknowledge
  -- DEVICE RESET and EXECUTE DEVICE DIAGNOSTIC leave the signature, as a refusal does
  else if cmd = 0x08#8 ∨ cmd = 0x90#8 then
    { d.diskSignature with error := 0x01#8, status := kDrdy ||| kDsc }
  else
    { d.diskSignature with error := 0x04#8, status := (kDrdy ||| kDsc) ||| kErr, irq := true }

/-! ## The packet drive's commands -/

/-- `lba32`. -/
def lba32 (p : Fin 12 → U8) : U32 :=
  ((p 2).setWidth 32 <<< 24) ||| ((p 3).setWidth 32 <<< 16) ||| ((p 4).setWidth 32 <<< 8)
    ||| (p 5).setWidth 32

/-- `complete`. -/
def complete (d : Drive) : Drive :=
  { d with nsect := kIo ||| kCoD, status := kDrdy, irq := true }

/-- A packet command whose reply is in the buffer. -/
def replyWith (d : Drive) (data : List U8) : Drive :=
  if data = [] then { d with data := data }.complete
  else
    { d with
      data := data
      nsect := kIo
      bcLo := BitVec.ofNat 8 data.length
      bcHi := BitVec.ofNat 8 (data.length >>> 8)
      status := kDrq ||| kDrdy
      irq := true }

/-- An address in the table of contents. -/
def tocAddr (msf : Bool) (lba : ℕ) : List U8 :=
  if !msf then
    [BitVec.ofNat 8 (lba >>> 24), BitVec.ofNat 8 (lba >>> 16), BitVec.ofNat 8 (lba >>> 8),
      BitVec.ofNat 8 lba]
  else
    let f := lba + 150
    [0#8, BitVec.ofNat 8 (f / (60 * 75)), BitVec.ofNat 8 ((f / 75) % 60), BitVec.ofNat 8 (f % 75)]

/-- A row of the table of contents. -/
def tocRow (msf : Bool) (ctl trk : U8) (lba : ℕ) : List U8 := [0#8, ctl, trk, 0#8] ++ tocAddr msf lba

/-- The reply to READ TOC. -/
def toc (d : Drive) (cdb : Fin 12 → U8) : List U8 :=
  let msf : Bool := cdb 1 &&& 0x02#8 ≠ 0#8
  let start := if cdb 6 ≠ 0#8 then (cdb 6).toNat else 1
  let lastAudio := d.tracks.getLast?.any TocTrack.audio
  let rows := (d.tracks.filter fun t => start ≤ t.number).flatMap fun t =>
    tocRow msf (if t.audio then 0x10#8 else 0x14#8) (BitVec.ofNat 8 t.number) t.startLba
  let rows := rows ++ tocRow msf (if lastAudio then 0x10#8 else 0x14#8) 0xAA#8 d.blocks
  let first := (d.tracks.head?.map TocTrack.number).getD 1
  let last := (d.tracks.getLast?.map TocTrack.number).getD 1
  let tocLen := rows.length + 2
  let data := [BitVec.ofNat 8 (tocLen >>> 8), BitVec.ofNat 8 tocLen, BitVec.ofNat 8 first,
    BitVec.ofNat 8 last] ++ rows
  let alloc := (cdb 7).toNat * 256 + (cdb 8).toNat
  if alloc ≠ 0 ∧ alloc < data.length then data.take alloc else data

/-- The reply to MODE SENSE. -/
def modeSense (cdb : Fin 12 → U8) : List U8 :=
  let page := cdb 2 &&& 0x3F#8
  if page = 0x2A#8 ∨ page = 0x3F#8 then
    [0#8, 26#8, 0#8, 0#8, 0#8, 0#8, 0#8, 0#8,
      0x2A#8, 18#8, 0x01#8, 0#8, 0x71#8, 0x03#8, 0x29#8, 0x03#8, 0x2B#8, 0x10#8, 0x01#8, 0x00#8,
      0x00#8, 0x80#8, 0x2B#8, 0x10#8, 0#8, 0#8, 0#8, 0#8]
  else [0#8, 6#8, 0#8, 0#8, 0#8, 0#8, 0#8, 0#8]

/-- The reply to INQUIRY. -/
def inquiry : List U8 :=
  [0x05#8, 0x80#8, 0#8, 0x02#8, 31#8, 0#8, 0#8, 0#8]
    ++ ("MATSHITACD-ROM CR-175   7T02".toList.map fun ch => BitVec.ofNat 8 ch.toNat)

/-- The reply to READ CAPACITY. -/
def readCapacity (d : Drive) : List U8 :=
  let last : U32 := if d.blocks ≠ 0 then BitVec.ofNat 32 (d.blocks - 1) else 0#32
  [(last >>> 24).setWidth 8, (last >>> 16).setWidth 8, (last >>> 8).setWidth 8, last.setWidth 8,
    0#8, 0#8, 0x08#8, 0#8]

/-- START STOP UNIT. -/
def startStop (d : Drive) (cdb : Fin 12 → U8) : Drive :=
  if !d.disk ∧ cdb 4 &&& 0x02#8 ≠ 0#8 then
    if cdb 4 &&& 0x01#8 ≠ 0#8 then
      if d.mediaOk ∧ d.ejected ∧ d.stagedPath = [] then
        { d with ejected := false, unitAttention := true, readsSinceInsert := 0 }
      else d
    else if !d.ejected then d.hostEject
    else d
  else d

/-- The commands of `packet`, once the medium has been looked at. -/
def packetCommand (d : Drive) (cdb : Fin 12 → U8) : Drive :=
  match cdb 0 with
  -- TEST UNIT READY
  | 0x00#8 => (d.complete).replyWith []
  -- REQUEST SENSE: the sense is told once and cleared
  | 0x03#8 =>
      { d with sense := 0#8, asc := 0#8, ascq := 0#8 }.replyWith
        [0x70#8, 0#8, d.sense, 0#8, 0#8, 0#8, 0#8, 10#8, 0#8, 0#8, 0#8, 0#8, d.asc, d.ascq, 0#8, 0#8,
          0#8, 0#8]
  -- INQUIRY
  | 0x12#8 => d.replyWith inquiry
  -- START STOP UNIT
  | 0x1B#8 => ((d.startStop cdb).complete).replyWith []
  -- PREVENT ALLOW MEDIUM REMOVAL, refused by a drive without a lock
  | 0x1E#8 =>
      if d.noDoorLock then d.checkCondition 0x05#8 0x20#8 0x00#8
      else ({ d with locked := cdb 4 &&& 0x01#8 ≠ 0#8 }.complete).replyWith []
  | 0x35#8 => (d.complete).replyWith []
  | 0xBB#8 => (d.complete).replyWith []
  -- READ CAPACITY
  | 0x25#8 => d.replyWith d.readCapacity
  -- READ(10) and READ(12): the first chunk is staged at once
  | 0x28#8 =>
      { d with
        readLba := (lba32 cdb).toNat
        readLeft := (cdb 7).toNat * 256 + (cdb 8).toNat }.finishPio false
  | 0xA8#8 =>
      { d with
        readLba := (lba32 cdb).toNat
        readLeft := (((cdb 6).toNat * 256 + (cdb 7).toNat) * 256 + (cdb 8).toNat) * 256
          + (cdb 9).toNat }.finishPio false
  | 0x2B#8 => (d.complete).replyWith []
  -- READ TOC
  | 0x43#8 => d.replyWith (d.toc cdb)
  -- MODE SENSE(10)
  | 0x5A#8 => d.replyWith (modeSense cdb)
  -- ILLEGAL REQUEST, by its sense key alone
  | _ =>
      { d with
        sense := 0x05#8
        error := 0x04#8 ||| (0x05#8 <<< 4)
        nsect := kIo ||| kCoD
        status := kDrdy ||| kErr
        irq := true }

/-- `packet`. -/
def packet (d : Drive) (cdb : Fin 12 → U8) : Drive :=
  let d := { d with irq := true, error := 0#8, data := [], dataAt := 0, readLeft := 0 }
  if !d.disk ∧ cdb 0 ≠ 0x12#8 ∧ cdb 0 ≠ 0x03#8 ∧ d.unitAttention then
    { d with unitAttention := false }.checkCondition 0x06#8 0x28#8 0x00#8
  else if !d.disk ∧ cdb 0 ≠ 0x12#8 ∧ cdb 0 ≠ 0x03#8 ∧ needsMedium (cdb 0) ∧ !d.mediaPresent then
    { d with absentSeen := true }.checkCondition 0x02#8 0x3A#8 0x00#8
  else d.packetCommand cdb

/-- The data of IDENTIFY PACKET DEVICE. -/
def identifyPacket : List U8 :=
  let data := w16 (List.replicate 512 0#8) 0 0x8580#16
  let data := text (text (text data 10 10 "OPM00001") 23 4 "7T02") 27 20 "MATSHITA CD-ROM CR-175 "
  w16 data 49 0x0200#16

/-- `ataCommand`. -/
def ataCommand (d : Drive) (cmd : U8) : Drive :=
  let d := { d with pulled := 0#32, error := 0#8 }
  if d.disk then d.diskCommand cmd
  else
    match cmd with
    -- DEVICE RESET and EXECUTE DEVICE DIAGNOSTIC: the packet device's signature
    | 0x08#8 | 0x90#8 =>
        { d with
          nsect := 0x01#8, lba0 := 0x01#8, bcLo := 0x14#8, bcHi := 0xEB#8
          error := 0x01#8
          status := 0x40#8 }
    -- IDENTIFY PACKET DEVICE
    | 0xA1#8 =>
        { d with
          data := identifyPacket
          irq := true
          dataAt := 0
          nsect := kIo ||| kCoD
          bcLo := BitVec.ofNat 8 512
          bcHi := BitVec.ofNat 8 (512 >>> 8)
          status := kDrq ||| kDrdy }
    -- PACKET: the command block comes next
    | 0xA0#8 => { d with cdbPhase := true, cdbAt := 0, nsect := kCoD, status := kDrq }
    -- SET FEATURES
    | 0xEF#8 => { d with status := kDrdy, irq := true }
    -- anything else aborts, and raises no interrupt
    | _ => { d with error := 0x04#8, status := kDrdy ||| kErr }

/-! ## The registers -/

/-- `intRegRead`. -/
def intRegRead (d : Drive) (lane : U32) (len : ℕ) : U32 :=
  let nat : U32 := (if d.irq then 0x40000000#32 else 0#32)
    ||| (if d.dmaIrqLatch then 0x80000000#32 else 0#32)
  (List.range len).foldl
    (fun r k => (r <<< 8)
      ||| ((nat >>> (8 * ((lane + BitVec.ofNat 32 k) &&& 3#32).toNat)) &&& 0xFF#32)) 0#32

/-- The timing register at an offset. -/
def ctlIndex (off : U32) : Fin 16 := Fin.ofNat 16 ((off - 0x200#32) >>> 4).toNat

/-- `read`. -/
def read (d : Drive) (off : U32) (len : ℕ) : U32 × Drive :=
  if !d.present then (0#32, d)
  else if off ≥ 0x300#32 ∧ off < 0x310#32 then (d.intRegRead (off - 0x300#32) len, d)
  else if off ≥ 0x200#32 then (d.ctl (ctlIndex off), d)
  else if d.dev &&& 0x10#8 ≠ 0#8 then ((0xFFFFFFFF#32 >>> (32 - 8 * len)) &&& ~~~0x80#32, d)
  else
    match off &&& 0xFF0#32 with
    | 0x000#32 => ((d.toCell.readData len).1, { d with toCell := (d.toCell.readData len).2 })
    | 0x010#32 => (d.error.setWidth 32, d)
    | 0x020#32 => (d.nsect.setWidth 32, d)
    | 0x030#32 => (d.lba0.setWidth 32, d)
    | 0x040#32 => (d.bcLo.setWidth 32, d)
    | 0x050#32 => (d.bcHi.setWidth 32, d)
    | 0x060#32 => (d.dev.setWidth 32, d)
    | 0x070#32 => (d.status.setWidth 32, { d with irq := false })
    | 0x160#32 => (d.status.setWidth 32, d)
    | _ => (0#32, d)

/-- The bytes of a packet that a data write brings. -/
def takeCdb (d : Drive) : List U8 → Drive
  | [] => d
  | b :: bs =>
      if h : d.cdbAt < 12 then
        takeCdb { d with cdb := Function.update d.cdb ⟨d.cdbAt, h⟩ b, cdbAt := d.cdbAt + 1 } bs
      else d

/-- `write` of the data register. -/
def writeData (d : Drive) (v : U32) (len : ℕ) : Drive :=
  if d.cdbPhase then
    let d := d.takeCdb (regBytes len v)
    if d.cdbAt ≥ 12 then { d with cdbPhase := false }.packet d.cdb else d
  else if d.disk ∧ d.wrLeft ≠ 0 ∧ d.data ≠ [] then
    let d := d.fill ((regBytes len v).take d.room)
    if d.dataAt ≥ d.data.length then d.commitWriteSector.2 else d
  else d

/-- The command is held behind BSY, with the task file as it stands. -/
def hold (d : Drive) (cmd : U8) (now : U64) : Drive :=
  { d with
    pendCmd := cmd
    pendNsect := d.nsect
    pendLba0 := d.lba0
    pendBcLo := d.bcLo
    pendBcHi := d.bcHi
    pendDev := d.dev
    pendAtTb := now + d.cmdDelayTb
    pending := true
    status := kBsy }

/-- `write` of the command register. -/
def writeCommand (d : Drive) (b : U8) : Drive :=
  let d := { d with irq := false }
  if d.dev &&& 0x10#8 ≠ 0#8 then d
  else
    match d.tbRef with
    | none => d.ataCommand b
    | some now => d.hold b now

/-- `write` of the device control register. -/
def writeDevctl (d : Drive) (b : U8) : Drive :=
  let d := { d with devctl := b }
  if b &&& 0x04#8 ≠ 0#8 then
    { d with
      pending := false
      nsect := 0x01#8
      lba0 := 0x01#8
      bcLo := if d.disk then 0x00#8 else 0x14#8
      bcHi := if d.disk then 0x00#8 else 0xEB#8
      status := if d.disk then kDrdy ||| kDsc else 0x40#8
      error := 0x01#8 }
  else d

/-- The interrupt register's bits that a write sets. -/
def intRegBits (off v : U32) (len : ℕ) : U32 :=
  (List.range len).foldl
    (fun nat k => nat ||| (((v >>> (8 * (len - 1 - k))) &&& 0xFF#32)
      <<< (8 * ((off - 0x300#32 + BitVec.ofNat 32 k) &&& 3#32).toNat))) 0#32

/-- `write` of a register of the drive. -/
def writeReg (d : Drive) (reg v : U32) (len : ℕ) : Drive :=
  let b : U8 := v.setWidth 8
  match reg with
  | 0x000#32 => d.writeData v len
  | 0x010#32 => { d with features := b }
  | 0x020#32 => { d with nsect := b }
  | 0x030#32 => { d with lba0 := b }
  | 0x040#32 => { d with bcLo := b }
  | 0x050#32 => { d with bcHi := b }
  | 0x060#32 => { d with dev := b }
  | 0x070#32 => d.writeCommand b
  | 0x160#32 => d.writeDevctl b
  | _ => d

/-- `write`. -/
def write (d : Drive) (off v : U32) (len : ℕ) : Drive :=
  if !d.present then d
  else if off ≥ 0x300#32 ∧ off < 0x310#32 then
    if intRegBits off v len &&& 0x80000000#32 ≠ 0#32 then { d with dmaIrqLatch := false } else d
  else if off ≥ 0x200#32 then { d with ctl := Function.update d.ctl (ctlIndex off) v }
  else d.writeReg (off &&& 0xFF0#32) v len

/-! ## The clock -/

/-- The staged disc goes in, once it is time. -/
def swapStaged (d : Drive) (files : Path → Option Medium) : Drive :=
  match d.tbRef with
  | none => d
  | some now =>
      let since := now - d.ejectedAtTb
      if d.stagedPath ≠ [] ∧ d.ejected
          ∧ ((d.absentSeen ∧ since ≥ kSwapDwellTb) ∨ since ≥ kSwapFallbackTb) then
        ({ d with stagedPath := [] }.hostInsert (files d.stagedPath)).2
      else d

/-- The task file that a deferred command is given. -/
def restore (d : Drive) : Drive :=
  { d with
    pending := false
    nsect := d.pendNsect
    lba0 := d.pendLba0
    bcLo := d.pendBcLo
    bcHi := d.pendBcHi
    dev := d.pendDev }

/-- The time at which a deferred command is run, if it is now. -/
def ripe (d : Drive) : Option U64 :=
  match d.tbRef with
  | none => none
  | some now => if !d.pending ∨ now < d.pendAtTb then none else some now

/-- `tick`. -/
def tick (d : Drive) (files : Path → Option Medium) : Bool × Drive :=
  let d := d.swapStaged files
  match d.ripe with
  | none => (false, d)
  | some _ => (true, d.restore.ataCommand d.pendCmd)

/-! ## A hard disk -/

/-- A cell as `attachDisk` makes it of an image, with a clock. -/
def attachDisk (image : List U8) (takes : ℕ → ℕ) (tb : Option U64) : Drive where
  disk := true
  image := image
  media := Medium.closed.disc
  nsect := 0x01#8
  lba0 := 0x01#8
  bcLo := 0x00#8
  bcHi := 0x00#8
  dev := 0#8
  status := kDrdy ||| kDsc
  error := 0x01#8
  data := []
  dataAt := 0
  readLba := 0
  readLeft := 0
  sense := 0#8
  readsSinceInsert := 0
  pulled := 0#32
  curHeads := 16#8
  curSectors := 63#8
  irq := false
  dmaArmed := false
  iso := true
  diskSectors := image.length / 512
  takes := takes
  blocks := 0
  tracks := []
  wrLeft := 0
  wrLba := 0
  features := 0#8
  devctl := 0#8
  cdbPhase := false
  cdb _ := 0#8
  cdbAt := 0
  asc := 0#8
  ascq := 0#8
  seated := false
  ejected := false
  locked := false
  noDoorLock := false
  unitAttention := false
  absentSeen := false
  stagedPath := []
  ejectedAtTb := 0#64
  pending := false
  pendCmd := 0#8
  pendAtTb := 0#64
  pendNsect := 0#8
  pendLba0 := 0#8
  pendBcLo := 0#8
  pendBcHi := 0#8
  pendDev := 0#8
  cmdDelayTb := 5000#64
  multiple := 0#8
  dmaIrqLatch := false
  ctl _ := 0#32
  tbRef := tb

/-! ## What the host is owed -/

/-- What a command asks of the drive, as the task file has it. -/
def asked (d : Drive) (cmd : U8) : ℕ :=
  if d.disk then
    if cmd = 0xEC#8 then 512
    else if cmd ∈ readCommands then 512 * (if d.nsect ≠ 0#8 then d.nsect.toNat else 256)
    else 0
  else if cmd = 0xA1#8 then 512
  else 0

/-- The sectors of a packet READ. -/
def packetSectors (cdb : Fin 12 → U8) : ℕ :=
  if cdb 0 = 0x28#8 then (cdb 7).toNat * 256 + (cdb 8).toNat
  else (((cdb 6).toNat * 256 + (cdb 7).toNat) * 256 + (cdb 8).toNat) * 256 + (cdb 9).toNat

/-- What a packet asks of the drive: a READ that the medium is there for, its sectors up to the
first audio; every other packet, its reply. -/
def packetAsked (d : Drive) (cdb : Fin 12 → U8) : ℕ :=
  if cdb 0 = 0x28#8 ∨ cdb 0 = 0xA8#8 then
    if d.unitAttention ∨ !d.mediaPresent then 0
    else 2048 * audioFree d.media.audioAt (lba32 cdb).toNat (packetSectors cdb)
  else (d.packet cdb).data.length

end Drive

end Ata

end OpenPowerMac
