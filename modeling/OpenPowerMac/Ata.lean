/-
The data phases of an ATA cell, from `machine/src/ata.cpp` and
`machine/include/opm/ata.hpp`.

One cell carries a hard disk or a packet drive. Its data register and its DMA channel
both drain one buffer, and what happens when the buffer is drained is decided in
`finishPio`. The image of a hard disk is the bytes of its file; a disc is what its blocks
hold and which of them are audio. The command log and the traces that nothing reads back
are left out, and so are the write path and the medium's own state, which no read here
touches.
-/
import OpenPowerMac.Word
import Mathlib.Data.List.Basic
import Mathlib.Data.List.OfFn
import Mathlib.Data.Nat.Bitwise

set_option autoImplicit false

namespace OpenPowerMac

namespace Ata

/-! ## Status and reason bits -/

def kDrdy : U8 := 0x40#8
def kDrq : U8 := 0x08#8
def kErr : U8 := 0x01#8
def kDsc : U8 := 0x10#8
def kCoD : U8 := 0x01#8
def kIo : U8 := 0x02#8

/-! ## The cell -/

/-- What the cell asks of a disc image (`CdImage`). -/
structure Disc where
  audioAt : ℕ → Bool
  readBlock : ℕ → Fin 2048 → U8

/-- `AtaCell`. -/
structure Cell where
  disk : Bool
  image : List U8
  media : Disc
  nsect : U8
  lba0 : U8
  bcLo : U8
  bcHi : U8
  dev : U8
  status : U8
  error : U8
  data : List U8
  dataAt : ℕ
  readLba : ℕ
  readLeft : ℕ
  sense : U8
  readsSinceInsert : ℕ
  pulled : U32
  curHeads : U8
  curSectors : U8
  irq : Bool
  dmaArmed : Bool

namespace Cell

/-- `diskLba`. -/
def diskLba (c : Cell) : U32 :=
  if c.dev &&& 0x40#8 ≠ 0#8 then
    ((c.dev &&& 0x0F#8).setWidth 32 <<< 24) ||| (c.bcHi.setWidth 32 <<< 16)
      ||| (c.bcLo.setWidth 32 <<< 8) ||| c.lba0.setWidth 32
  else
    let cyl : U32 := (c.bcHi.setWidth 32 <<< 8) ||| c.bcLo.setWidth 32
    let h : U32 := if c.curHeads ≠ 0#8 then c.curHeads.setWidth 32 else 1#32
    let s : U32 := if c.curSectors ≠ 0#8 then c.curSectors.setWidth 32 else 1#32
    (cyl * h + (c.dev &&& 0x0F#8).setWidth 32) * s
      + (if c.lba0 ≠ 0#8 then c.lba0.setWidth 32 - 1#32 else 0#32)

/-- A read of the image: what it has there, and zeros. -/
def readImage (image : List U8) (at_ n : ℕ) : List U8 :=
  let got := (image.drop at_).take n
  got ++ List.replicate (n - got.length) 0#8

/-- `diskStartRead`. -/
def diskStartRead (c : Cell) : Cell :=
  if c.readLeft = 0 then
    { c with data := [], dataAt := 0, nsect := 0#8, status := kDrdy ||| kDsc, irq := true }
  else
    { c with
      data := readImage c.image (c.readLba * 512) 512
      dataAt := 0
      readLba := c.readLba + 1
      readLeft := c.readLeft - 1
      status := (if c.dmaArmed then 0#8 else kDrq) ||| (kDrdy ||| kDsc)
      irq := true }

/-- The READ commands of `diskCommand`. -/
def readCommands : List U8 := [0x20#8, 0x21#8, 0xC4#8, 0xC8#8, 0xC9#8]

/-- `ataCommand` and the arm of `diskCommand` that they share; `none` for another
command. -/
def readCommand (c : Cell) (cmd : U8) : Option Cell :=
  if cmd ∈ readCommands then
    some <| diskStartRead
      { c with
        pulled := 0#32
        error := 0#8
        readLba := c.diskLba.toNat
        readLeft := if c.nsect ≠ 0#8 then c.nsect.toNat else 256 }
  else none

/-- How many sectors the next chunk of a packet drive has, before the audio is looked at. -/
def chunkSectors (c : Cell) : ℕ :=
  let limit := c.bcHi.toNat * 256 + c.bcLo.toNat
  let limit := if limit = 0 ∨ limit = 0xFFFF then 0xFE00 else limit
  let sectors := limit / 2048
  let sectors := if sectors = 0 then 1 else sectors
  if c.readLeft < sectors then c.readLeft else sectors

/-- The loop that ends a chunk in front of an audio sector. -/
def clampAudio (audioAt : ℕ → Bool) (lba : ℕ) : ℕ → ℕ → ℕ
  | 0, k => k
  | n + 1, k => if audioAt (lba + k) then k else clampAudio audioAt lba n (k + 1)

/-- `finishPio`. -/
def finishPio (c : Cell) (chunkDrained : Bool) : Cell :=
  if c.disk then c.diskStartRead
  -- the last chunk has been taken: the status phase
  else if chunkDrained ∧ c.readLeft = 0 then
    { c with nsect := kIo ||| kCoD, status := kDrdy, irq := true }
  else if c.readLeft = 0 then c
  -- a READ that starts in an audio track is refused
  else if c.media.audioAt c.readLba then
    { c with
      readLeft := 0
      sense := 0x05#8
      error := 0x04#8 ||| (0x05#8 <<< 4)
      nsect := kIo ||| kCoD
      status := kDrdy ||| kErr
      irq := true }
  else
    -- a chunk stops before the first audio sector
    let sectors := clampAudio c.media.audioAt c.readLba (c.chunkSectors - 1) 1
    let bytes := sectors * 2048
    { c with
      data := ((List.range sectors).map fun k => List.ofFn (c.media.readBlock (c.readLba + k))).flatten
      dataAt := 0
      readsSinceInsert := c.readsSinceInsert + sectors
      readLba := c.readLba + sectors
      readLeft := c.readLeft - sectors
      bcLo := BitVec.ofNat 8 bytes
      bcHi := BitVec.ofNat 8 (bytes >>> 8)
      nsect := kIo
      status := kDrq ||| kDrdy
      irq := true }

/-- `dmaTake`, with a bound on the turns of its loop; `none` when they are used up. -/
def dmaTake : ℕ → Cell → ℕ → Option (List U8 × Cell)
  | _, c, 0 => some ([], c)
  | 0, _, _ + 1 => none
  | fuel + 1, c, n + 1 =>
      let bs := (c.data.drop c.dataAt).take (n + 1)
      let c := { c with dataAt := c.dataAt + bs.length }
      if c.dataAt < c.data.length ∨ c.data = [] then some (bs, c)
      else
        let c := c.finishPio true
        if c.data = [] then some (bs, c)
        else do
          let (rest, c) ← dmaTake fuel c (n + 1 - bs.length)
          some (bs ++ rest, c)

/-- `read` of the data register. -/
def readData (c : Cell) (len : ℕ) : U32 × Cell :=
  if c.dev &&& 0x10#8 ≠ 0#8 then ((0xFFFFFFFF#32 >>> (32 - 8 * len)) &&& ~~~0x80#32, c)
  else
    let bs := (c.data.drop c.dataAt).take len
    let v := bs.foldl (fun (v : U32) b => (v <<< 8) ||| b.setWidth 32) 0#32
    let c := { c with pulled := c.pulled + BitVec.ofNat 32 len, dataAt := c.dataAt + bs.length }
    (v, if c.data ≠ [] ∧ c.data.length ≤ c.dataAt then c.finishPio true else c)

end Cell

end Ata

end OpenPowerMac
