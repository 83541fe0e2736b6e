/-
The build of an HFS volume out of a scanned folder: `hfsBuildImage` of `machine/src/hfs.cpp`.

The records of the catalog, the reservation for it, the placing of the forks and the checks that
may refuse the folder. What is written of the volume is its catalog and its forks; the partition
map, the MDB and the bitmap are left out. `none` stands for a build that leaves its memory or
does not come to an end.
-/
import OpenPowerMac.HfsScan

set_option autoImplicit false

namespace OpenPowerMac

namespace Hfs

/-! ## Geometry -/

/-- `abSize`: the loop doubles it, and a size that leaves 32 bits is zero for ever. -/
def blockSize (totalBytes : ℕ) : Option ℕ :=
  let want := totalBytes + totalBytes / 8 + 2 * 2 ^ 20
  ((List.range 23).map fun k => 512 * 2 ^ k).find? fun ab => want ≤ ab * 65000

/-- `blocksFor`. -/
def blocksFor (abSize bytes : ℕ) : ℕ := (bytes + abSize - 1) / abSize % 2 ^ 32

/-! ## Records -/

/-- How many items a folder has. -/
def valence (items : List Found) (cnid : U32) : ℕ := items.countP fun it => it.parent = cnid

/-- The record of a folder. -/
def dirRecord (parent : U32) (name : Bytes) (cnid crDate mdDate : U32) (valence : ℕ) : Rec where
  parent := parent
  name := name
  payload := [1#8, 0#8, 0#8, 0#8] ++ be16 valence ++ be32 cnid.toNat ++ be32 crDate.toNat
    ++ be32 mdDate.toNat ++ List.replicate 52 0#8

/-- The thread of a folder. -/
def threadRecord (cnid parent : U32) (name : Bytes) : Rec where
  parent := cnid
  name := []
  payload := [3#8] ++ List.replicate 9 0#8 ++ be32 parent.toNat ++ [BitVec.ofNat 8 name.length] ++ name
    ++ List.replicate (31 - name.length) 0#8

/-- The name of the volume. -/
def volumeName (volName : Bytes) : Bytes := (toMacRoman (decodeUtf8 volName)).take 27

/-- The records of the folders, the root first. -/
def dirRecords (volName : Bytes) (now : U32) (items : List Found) : List Rec :=
  [dirRecord 1#32 (volumeName volName) 2#32 now now (valence items 2#32),
    threadRecord 2#32 1#32 (volumeName volName)]
  ++ (items.filter fun it => it.isDir).flatMap fun it =>
    [dirRecord it.parent it.mac it.cnid it.crDate it.mdDate (valence items it.cnid),
      threadRecord it.cnid it.parent it.mac]

/-- The items that are files. -/
def filesOf (items : List Found) : List Found := items.filter fun it => !it.isDir

/-- `recBytesUB`. -/
def recBytesUB (volName : Bytes) (now : U32) (items : List Found) : ℕ :=
  ((dirRecords volName now items).map fun r => 8 + r.name.length + r.payload.length + 4).sum
    + ((filesOf items).map fun it => 8 + it.mac.length + 102 + 4).sum

/-- `catNodesUB`. -/
def catNodesUB (volName : Bytes) (now : U32) (items : List Found) : ℕ :=
  ((recBytesUB volName now items + 479) / 480 * 2 + 8) % 2 ^ 32

/-- `catBlocks`: the blocks of the catalog file. -/
def catBlocks (volName : Bytes) (now : U32) (items : List Found) (abSize : ℕ) : ℕ :=
  blocksFor abSize (catNodesUB volName now items * 512)

/-- `catFileNodes`: the nodes that the catalog file has room for. -/
def catFileNodes (volName : Bytes) (now : U32) (items : List Found) (abSize : ℕ) : ℕ :=
  catBlocks volName now items abSize * abSize / 512 % 2 ^ 32

/-! ## Forks -/

/-- A file, and where its forks begin and how many blocks they have. -/
structure Placed where
  file : Found
  dataStart : U16
  dataBlocks : U16
  rsrcStart : U16
  rsrcBlocks : U16

/-- The loop that places the forks, from block `nextBlock` on. -/
def place (abSize : ℕ) : List Found → ℕ → Option (List Placed × ℕ)
  | [], nextBlock => some ([], nextBlock)
  | f :: fs, nextBlock => do
      let dataBlocks : U16 := BitVec.ofNat 16 (blocksFor abSize f.dataLen.toNat)
      let rsrcBlocks : U16 := BitVec.ofNat 16 (blocksFor abSize f.rsrcLen.toNat)
      let rsrcStart := nextBlock + dataBlocks.toNat
      let next := rsrcStart + rsrcBlocks.toNat
      if next > 65000 then none
      else
        let (ps, last) ← place abSize fs next
        let p := ⟨f, BitVec.ofNat 16 nextBlock, dataBlocks, BitVec.ofNat 16 rsrcStart, rsrcBlocks⟩
        some (p :: ps, last)

/-- An extent: nothing where there are no blocks. -/
def extent (start blocks : U16) : Bytes :=
  if blocks ≠ 0#16 then be16 start.toNat ++ be16 blocks.toNat else [0#8, 0#8, 0#8, 0#8]

/-- The record of a file. -/
def fileRecord (abSize : ℕ) (now : U32) (p : Placed) : Rec where
  parent := p.file.parent
  name := p.file.mac
  payload := [2#8, 0#8, 0#8, 0#8] ++ p.file.type.take 4 ++ p.file.creator.take 4
    ++ be16 p.file.fdFlags.toNat ++ List.replicate 6 0#8 ++ be32 p.file.cnid.toNat
    ++ be16 (if p.dataBlocks ≠ 0#16 then p.dataStart.toNat else 0) ++ be32 p.file.dataLen.toNat
    ++ be32 (p.dataBlocks.toNat * abSize)
    ++ be16 (if p.rsrcBlocks ≠ 0#16 then p.rsrcStart.toNat else 0) ++ be32 p.file.rsrcLen.toNat
    ++ be32 (p.rsrcBlocks.toNat * abSize)
    ++ be32 (if p.file.crDate ≠ 0#32 then p.file.crDate else now).toNat
    ++ be32 (if p.file.mdDate ≠ 0#32 then p.file.mdDate else now).toNat
    ++ List.replicate 22 0#8 ++ extent p.dataStart p.dataBlocks ++ List.replicate 8 0#8
    ++ extent p.rsrcStart p.rsrcBlocks ++ List.replicate 12 0#8

/-- The records of the catalog: the folders and then the files. -/
def catalogRecs (volName : Bytes) (now : U32) (items : List Found) (abSize : ℕ)
    (placed : List Placed) : List Rec :=
  dirRecords volName now items ++ placed.map (fileRecord abSize now)

/-- The forks of the files as they are copied, or what failed to be read. -/
def copyForks : List Placed → Except BuildError (List (Bytes × Bytes))
  | [] => .ok []
  | p :: ps =>
      let f := p.file
      match streamFork f.bytes (if f.macBinary then f.dataOff else 0#64) f.dataLen with
      | none => .error (.readFailed f.hostName)
      | some data =>
          let source := if !f.macBinary ∧ f.adsRsrc then f.rsrc else f.bytes
          match if f.rsrcLen ≠ 0#64 then
              streamFork source (if f.macBinary then f.rsrcOff else 0#64) f.rsrcLen else some [] with
          | none => .error (.rsrcReadFailed f.hostName)
          | some rsrc => (copyForks ps).map fun forks => (data, rsrc) :: forks

/-! ## The build -/

/-- What is built. -/
structure Volume where
  items : List Found
  abSize : ℕ
  catBlocks : ℕ
  extBlocks : ℕ
  usedBlocks : ℕ
  placed : List Placed
  records : List Rec
  catalog : BTree
  forks : List (Bytes × Bytes)

/-- The sectors of the image. -/
def imageSectors (abSize usedBlocks : ℕ) : ℕ :=
  let totalBlocks := usedBlocks + 64
  let alBlSt := 3 + (totalBlocks + 4095) / 4096
  let volSectors := alBlSt + totalBlocks * (abSize / 512) + 2
  (64 + volSectors + 3) / 4 * 4

/-- `hfsBuildImage`, once the folder has been scanned and a block size found. -/
def layOut (limits : HfsLimits) (volName : Bytes) (now : U32) (writable : Bool) (items : List Found)
    (abSize : ℕ) : Option (Except BuildError Volume) :=
  let catBlocks := catBlocks volName now items abSize
  let extBlocks := blocksFor abSize 512
  match place abSize (filesOf items) ((catBlocks + extBlocks) % 2 ^ 32) with
  | none => some (.error .outgrewVolume)
  | some (placed, usedBlocks) =>
      let recs := catalogRecs volName now items abSize placed
      let catFileNodes := catFileNodes volName now items abSize
      -- the header's map covers no more nodes than this
      if catFileNodes > 2048 then some (.error .tooManyNodes)
      else
        match buildCatalogTree recs catFileNodes with
        | none => none
        | some cat =>
            -- the reservation was an estimate, and is checked once the tree stands
            if cat.nodes.length * 512 > catBlocks * abSize then some (.error .outgrewReservation)
            else if imageSectors abSize usedBlocks * 512 > limits.maxImageBytes then
              some (.error .tooBig)
            else if !writable then some (.error .cannotWrite)
            else
              some <| (copyForks placed).map fun forks =>
                { items := items
                  abSize := abSize
                  catBlocks := catBlocks
                  extBlocks := extBlocks
                  usedBlocks := usedBlocks
                  placed := placed
                  records := recs
                  catalog := cat
                  forks := forks }

/-- `hfsBuildImage`. -/
def hfsBuildImage (limits : HfsLimits) (volName : Bytes) (now : U32) (writable : Bool) :
    HostEntry → Option (Except BuildError Volume)
  | .folder _ root =>
      match scan limits now root with
      | none => none
      | some (.error e) => some (.error e)
      | some (.ok st) =>
          if st.items = [] then some (.error .nothing)
          else
            match blockSize st.totalBytes with
            | none => none
            | some abSize => layOut limits volName now writable st.items abSize
  | _ => some (.error .notAFolder)

end Hfs

end OpenPowerMac
