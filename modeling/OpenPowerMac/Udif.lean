/-
UDIF images, from `machine/src/cdimage.cpp`: the trailer, the XML and its run tables, and the
reading of a block out of the runs.

A value that the file gives has its 64 bits, and a sum or a product of such values wraps. A read
outside the cache gives `none`, what the code must not do. The host's stream is the bytes of the
file and a place in them; a seek takes its offset as a signed number and leaves the place alone
where that is negative. An allocation is taken to succeed.
-/
import OpenPowerMac.Inflate
import Mathlib.Data.List.Sort

set_option autoImplicit false

namespace OpenPowerMac

namespace Udif

abbrev Bytes : Type := List U8

/-! ## The stream -/

/-- A file of the host: its size is a signed 64-bit number. -/
structure HostFile where
  bytes : Bytes
  signed : bytes.length < 2 ^ 63

/-- The size of a file, as `size64` gives it. -/
def HostFile.size (f : HostFile) : U64 := BitVec.ofNat 64 f.bytes.length

/-- `seek64`, of a stream that stands at `pos`. -/
def seek (pos : ℕ) (off : U64) : ℕ := if off.toNat < 2 ^ 63 then off.toNat else pos

/-- `fread` of `n` bytes, and where the stream stands then. -/
def fread (f : HostFile) (pos n : ℕ) : Bytes × ℕ :=
  ((f.bytes.drop pos).take n, pos + ((f.bytes.drop pos).take n).length)

/-- `be32`. -/
def be32 (b : Bytes) (i : ℕ) : U32 :=
  ((b.getD i 0#8).setWidth 32 <<< 24) ||| ((b.getD (i + 1) 0#8).setWidth 32 <<< 16)
    ||| ((b.getD (i + 2) 0#8).setWidth 32 <<< 8) ||| (b.getD (i + 3) 0#8).setWidth 32

/-- The bytes of a text. -/
def ascii (s : String) : Bytes := s.toList.map fun ch => BitVec.ofNat 8 ch.toNat

/-- The first place of `pat` in what is left of a text from place `i` on. -/
def find (pat : Bytes) : Bytes → ℕ → Option ℕ
  | [], _ => none
  | c :: s, i => if pat.isPrefixOf (c :: s) then some i else find pat s (i + 1)

/-- A chunk as a table has it. -/
structure Chunk where
  type : U32
  sector : U64
  sectors : U64
  off : U64
  len : U64
  deriving DecidableEq

/-- A table of one partition. -/
structure Table where
  partStart : U64
  tableDataOff : U64
  chunks : List Chunk
  deriving DecidableEq

/-- What of the trailer is used. -/
structure Koly where
  dataFork : U64
  xmlOff : U64
  xmlLen : U64
  sectors : U64
  deriving DecidableEq

/-- `UdifRun`. -/
structure UdifRun where
  type : U32
  sector : U64
  sectors : U64
  off : U64
  len : U64
  deriving DecidableEq

/-- A terminator or a comment. -/
def isPassed (type : U32) : Bool := type = 0xFFFFFFFF#32 ∨ type = 0x7FFFFFFE#32

/-- The run of a chunk. -/
def Table.run (dataFork : U64) (t : Table) (c : Chunk) : UdifRun where
  type := c.type
  sector := t.partStart + c.sector
  sectors := c.sectors
  off := dataFork + t.tableDataOff + c.off
  len := c.len

/-- The chunks that give a run. -/
def Table.kept (t : Table) : List Chunk :=
  t.chunks.filter fun c => !isPassed c.type && c.sectors ≠ 0#64

/-- The runs of the tables, as they come. -/
def runsOf (dataFork : U64) (ts : List Table) : List UdifRun :=
  ts.flatMap fun t => t.kept.map (t.run dataFork)

/-- `CdImage`, of a UDIF: its one track is data and begins with the disc. -/
structure Image where
  file : HostFile
  runs : List UdifRun
  blocks : U64
  apmLbas : U64 := 0#64
  apm : Bytes := []

/-- What reading changes: the place of the stream, and the run that the cache has. -/
structure Reader where
  pos : ℕ
  cache : Bytes := []
  cachedRun : Option ℕ := none

def zeros (n : ℕ) : Bytes := List.replicate n 0#8

/-- `adler32`. -/
def adler32 (p : Bytes) : U32 :=
  let (a, b) := p.foldl
    (fun (s : ℕ × ℕ) (x : U8) => ((s.1 + x.toNat) % 65521, (s.2 + (s.1 + x.toNat) % 65521) % 65521))
    (1, 0)
  (BitVec.ofNat 32 b <<< 16) ||| BitVec.ofNat 32 a

/-- `zlibInflate`: the plain text, or nothing where it is false. -/
def zlibInflate (src : Bytes) (cap : ℕ) : Option Bytes :=
  if src.length < 6 ∨ src.getD 0 0#8 &&& 0x0F#8 ≠ 8#8 ∨ src.getD 1 0#8 &&& 0x20#8 ≠ 0#8
      ∨ ((src.getD 0 0#8).toNat * 2 ^ 8 + (src.getD 1 0#8).toNat) % 31 ≠ 0 then none
  else
    match Inflate.inflateRaw (src.drop 2) cap with
    | .ok (true, out) => if adler32 out = be32 src (src.length - 4) then some out else none
    | _ => none

/-- The loop of `udifRead512`: how many runs begin at the sector or before it. -/
def bisect (runs : List UdifRun) (sector : U64) : ℕ → ℕ → ℕ → ℕ
  | 0, lo, _ => lo
  | n + 1, lo, hi =>
      if lo < hi then
        match runs[(lo + hi) / 2]? with
        | some r =>
            if r.sector ≤ sector then bisect runs sector n ((lo + hi) / 2 + 1) hi
            else bisect runs sector n lo ((lo + hi) / 2)
        | none => lo
      else lo

/-- The cache is filled with run `idx`, unless it has it; false where the run cannot be read. -/
def fillCache (img : Image) (idx : ℕ) (r : UdifRun) (rd : Reader) : Bool × Reader :=
  if rd.cachedRun = some idx then (true, rd)
  else
    let (comp, pos) := fread img.file (seek rd.pos r.off) r.len.toNat
    if comp.length ≠ r.len.toNat then (false, { rd with pos := pos })
    else
      let plainBytes := (r.sectors * 512#64).toNat
      match zlibInflate comp plainBytes with
      | none => (false, { rd with pos := pos })
      | some plain =>
          (true, { pos := pos, cache := (plain ++ zeros (plainBytes - plain.length)).take plainBytes
                   cachedRun := some idx })

/-- The switch of `udifRead512`: sector `rel` of run `idx`. -/
def readRun (img : Image) (idx : ℕ) (r : UdifRun) (rel : U64) (rd : Reader) :
    Option (Bool × Bytes × Reader) :=
  if r.type = 1#32 then
    let (got, pos) := fread img.file (seek rd.pos (r.off + rel * 512#64)) 512
    some (true, got ++ zeros (512 - got.length), { rd with pos := pos })
  else if r.type = 0x80000005#32 then
    match fillCache img idx r rd with
    | (false, rd) => some (false, zeros 512, rd)
    | (true, rd) =>
        let at_ := (rel * 512#64).toNat
        if at_ + 512 ≤ rd.cache.length then some (true, (rd.cache.drop at_).take 512, rd) else none
  else some (true, zeros 512, rd)

/-- `CdImage::udifRead512`: what it returns, and what `dst` holds. -/
def udifRead512 (img : Image) (sector : U64) (rd : Reader) : Option (Bool × Bytes × Reader) :=
  let lo := bisect img.runs sector img.runs.length 0 img.runs.length
  if lo = 0 then some (true, zeros 512, rd)
  else
    match img.runs[lo - 1]? with
    | none => none
    | some r =>
        if r.sector + r.sectors ≤ sector then some (true, zeros 512, rd)
        else readRun img (lo - 1) r (sector - r.sector) rd

/-- The loop of `readBlock` over `n` sectors: one that cannot be read leaves zeros from there on. -/
def readSectors (img : Image) : ℕ → U64 → Reader → Option (Bytes × Reader)
  | 0, _, rd => some ([], rd)
  | n + 1, sector, rd =>
      match udifRead512 img sector rd with
      | none => none
      | some (false, _, rd) => some (zeros (512 * (n + 1)), rd)
      | some (true, bs, rd) =>
          (readSectors img n (sector + 1#64) rd).map fun p => (bs ++ p.1, p.2)

/-- `CdImage::readBlock`, of a UDIF: what `dst` holds; it returns true. -/
def readBlock (img : Image) (lba : U64) (rd : Reader) : Option (Bytes × Reader) :=
  if img.blocks ≤ lba then some (zeros 2048, rd)
  else if img.apmLbas ≠ 0#64 ∧ lba < img.apmLbas then
    some ((img.apm.drop (lba.toNat * 2048)).take 2048, rd)
  else
    let lba := if img.apmLbas ≠ 0#64 then lba - img.apmLbas else lba
    readSectors img 4 (lba * 4#64) rd

/-- Blocks, one after the other. -/
def readBlocks (img : Image) : List U64 → Reader → Option (List Bytes × Reader)
  | [], rd => some ([], rd)
  | lba :: lbas, rd =>
      match readBlock img lba rd with
      | none => none
      | some (bs, rd) => (readBlocks img lbas rd).map fun p => (bs :: p.1, p.2)

/-! ## The partition dress -/

def p16 (v : U16) : Bytes := [(v >>> 8).setWidth 8, v.setWidth 8]

def p32 (v : U32) : Bytes :=
  [(v >>> 24).setWidth 8, (v >>> 16).setWidth 8, (v >>> 8).setWidth 8, v.setWidth 8]

/-- A text in a field of 32 bytes. -/
def field32 (s : String) : Bytes := ascii s ++ zeros (32 - (ascii s).length)

/-- An entry of the map. -/
def apmEntry (name type : String) (start count status : U32) : Bytes :=
  p16 0x504D#16 ++ zeros 2 ++ p32 2#32 ++ p32 start ++ p32 count ++ field32 name ++ field32 type
    ++ zeros 4 ++ p32 count ++ p32 status ++ zeros 420

/-- The 16 blocks in front of a volume of so many blocks. -/
def apmOf (blocks : U64) : Bytes :=
  let vol512 := blocks * 4#64
  p16 0x4552#16 ++ p16 512#16 ++ p32 ((64#64 + vol512).setWidth 32) ++ zeros 504
    ++ apmEntry "Apple" "Apple_partition_map" 1#32 63#32 0x3#32
    ++ apmEntry "Disc" "Apple_HFS" 64#32 (vol512.setWidth 32) 0x40000033#32
    ++ zeros (16 * 2048 - 3 * 512)

/-- The image with its dress. -/
def Image.dress (img : Image) : Image :=
  { img with apm := apmOf img.blocks, apmLbas := 16#64, blocks := img.blocks + 16#64 }

/-- A volume header where a bare volume keeps it. -/
def isBare (b0 : Bytes) : Bool :=
  let sig := ((b0.getD 1024 0#8).setWidth 32 <<< 8) ||| (b0.getD 1025 0#8).setWidth 32
  !(b0.getD 0 0#8 = 0x45#8 ∧ b0.getD 1 0#8 = 0x52#8)
    ∧ (sig = 0x482B#32 ∨ sig = 0x4858#32 ∨ sig = 0x4244#32)

/-- `CdImage::maybeWrapBareVolume`, of a UDIF. -/
def maybeWrapBareVolume (img : Image) (rd : Reader) : Option (Image × Reader) :=
  if img.blocks < 2#64 then some (img, rd)
  else
    match readBlock img 0#64 rd with
    | none => none
    | some (b0, rd) =>
        if !isBare b0 then some (img, rd)
        else if img.blocks > 16#64 then
          match readBlock img 16#64 rd with
          | none => none
          | some (b16, rd) =>
              if (b16.drop 1).take 5 = ascii "CD001" then some (img, rd) else some (img.dress, rd)
        else some (img.dress, rd)

end Udif

end OpenPowerMac
