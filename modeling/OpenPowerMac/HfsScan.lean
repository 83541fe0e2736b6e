/-
The scan of a host folder: names and the walk of `hfsBuildImage` in `machine/src/hfs.cpp`.

A folder of the host is the list of its entries in the order in which the host gives them. An
entry that is kept takes a catalog number and a Mac name; two names of one folder must differ as
bytes. What lies beside a file in its `:rsrc` stream is a part of the entry.
-/
import OpenPowerMac.MacBinary

set_option autoImplicit false

namespace OpenPowerMac

namespace Hfs

/-! ## Names -/

/-- The bytes of a text. -/
def ascii (s : String) : Bytes := s.toList.map fun ch => BitVec.ofNat 8 ch.toNat

/-- The code points above ASCII that have a place in MacRoman, and the place. -/
def macRomanTable : List (U32 × U8) :=
  [(0x00C4#32, 0x80#8), (0x00C5#32, 0x81#8), (0x00C7#32, 0x82#8), (0x00C9#32, 0x83#8),
    (0x00D1#32, 0x84#8), (0x00D6#32, 0x85#8), (0x00DC#32, 0x86#8), (0x00E1#32, 0x87#8),
    (0x00E0#32, 0x88#8), (0x00E2#32, 0x89#8), (0x00E4#32, 0x8A#8), (0x00E3#32, 0x8B#8),
    (0x00E5#32, 0x8C#8), (0x00E7#32, 0x8D#8), (0x00E9#32, 0x8E#8), (0x00E8#32, 0x8F#8),
    (0x00EA#32, 0x90#8), (0x00EB#32, 0x91#8), (0x00ED#32, 0x92#8), (0x00EC#32, 0x93#8),
    (0x00EE#32, 0x94#8), (0x00EF#32, 0x95#8), (0x00F1#32, 0x96#8), (0x00F3#32, 0x97#8),
    (0x00F2#32, 0x98#8), (0x00F4#32, 0x99#8), (0x00F6#32, 0x9A#8), (0x00F5#32, 0x9B#8),
    (0x00FA#32, 0x9C#8), (0x00F9#32, 0x9D#8), (0x00FB#32, 0x9E#8), (0x00FC#32, 0x9F#8),
    (0x2020#32, 0xA0#8), (0x00B0#32, 0xA1#8), (0x00A2#32, 0xA2#8), (0x00A3#32, 0xA3#8),
    (0x00A7#32, 0xA4#8), (0x2022#32, 0xA5#8), (0x00B6#32, 0xA6#8), (0x00DF#32, 0xA7#8),
    (0x00AE#32, 0xA8#8), (0x00A9#32, 0xA9#8), (0x2122#32, 0xAA#8), (0x00B4#32, 0xAB#8),
    (0x00A8#32, 0xAC#8), (0x00C6#32, 0xAE#8), (0x00D8#32, 0xAF#8), (0x2013#32, 0xD0#8),
    (0x2014#32, 0xD1#8), (0x201C#32, 0xD2#8), (0x201D#32, 0xD3#8), (0x2018#32, 0xD4#8),
    (0x2019#32, 0xD5#8)]

/-- `macRomanOf`. -/
def macRomanOf (cp : U32) : U8 :=
  if cp < 0x80#32 then (if cp = 0x3A#32 then 0x5F#8 else cp.setWidth 8)
  else (macRomanTable.lookup cp).getD 0x5F#8

/-- `toMacRoman`. -/
def toMacRoman (cps : List U32) : Bytes := (cps.map macRomanOf).take 31

/-- The low six bits of a continuation byte. -/
def tailBits (b : U8) : U32 := b.setWidth 32 &&& 0x3F#32

/-- `decodeUtf8`: a byte that begins nothing stands for the replacement character. -/
def decodeUtf8 : Bytes → List U32
  | [] => []
  | c :: s =>
      if c < 0x80#8 then c.setWidth 32 :: decodeUtf8 s
      else
        match s with
        | b₁ :: b₂ :: b₃ :: t =>
            if c >>> 5 = 6#8 then
              ((((c &&& 0x1F#8).setWidth 32) <<< 6) ||| tailBits b₁) :: decodeUtf8 (b₂ :: b₃ :: t)
            else if c >>> 4 = 14#8 then
              ((((c &&& 0x0F#8).setWidth 32) <<< 12) ||| (tailBits b₁ <<< 6) ||| tailBits b₂)
                :: decodeUtf8 (b₃ :: t)
            else if c >>> 3 = 30#8 then
              ((((c &&& 0x07#8).setWidth 32) <<< 18) ||| (tailBits b₁ <<< 12) ||| (tailBits b₂ <<< 6)
                ||| tailBits b₃) :: decodeUtf8 t
            else 0xFFFD#32 :: decodeUtf8 (b₁ :: b₂ :: b₃ :: t)
        | [b₁, b₂] =>
            if c >>> 5 = 6#8 then
              ((((c &&& 0x1F#8).setWidth 32) <<< 6) ||| tailBits b₁) :: decodeUtf8 [b₂]
            else if c >>> 4 = 14#8 then
              [(((c &&& 0x0F#8).setWidth 32) <<< 12) ||| (tailBits b₁ <<< 6) ||| tailBits b₂]
            else 0xFFFD#32 :: decodeUtf8 [b₁, b₂]
        | [b₁] =>
            if c >>> 5 = 6#8 then [(((c &&& 0x1F#8).setWidth 32) <<< 6) ||| tailBits b₁]
            else 0xFFFD#32 :: decodeUtf8 [b₁]
        | [] => [0xFFFD#32]

/-- `tolower` of a byte. -/
def lowerByte (c : U8) : U8 := if 0x41#8 ≤ c ∧ c ≤ 0x5A#8 then c + 32#8 else c

/-- A name in lower case. -/
def lower (n : Bytes) : Bytes := n.map lowerByte

/-- `skipName`. -/
def skipName (n : Bytes) : Bool :=
  n.head? = some 0x2E#8 ∨ lower n = ascii "desktop.ini" ∨ lower n = ascii "thumbs.db"

/-- A name that ends in `.bin`, with something before it. -/
def isBin (n : Bytes) : Bool := n.length > 4 ∧ (lower n).drop (n.length - 4) = ascii ".bin"

/-- The extension of a name: from its last dot on, unless that is its first character. -/
def extension (n : Bytes) : Bytes :=
  let tail := n.reverse.takeWhile fun c => c ≠ 0x2E#8
  if tail.length + 1 < n.length then n.drop (n.length - (tail.length + 1)) else []

/-- The types and creators of `typeForExt`. -/
def kMap : List (String × String × String) :=
  [(".sit", "SITD", "SIT!"), (".sea", "APPL", "aust"), (".hqx", "TEXT", "BnHq"),
    (".txt", "TEXT", "ttxt"), (".jpg", "JPEG", "ogle"), (".jpeg", "JPEG", "ogle"),
    (".gif", "GIFf", "ogle"), (".png", "PNGf", "ogle"), (".pdf", "PDF ", "CARO"),
    (".mov", "MooV", "TVOD"), (".mp3", "MPG3", "TVOD"), (".img", "dImg", "ddsk"),
    (".smi", "APPL", "oneb"), (".pct", "PICT", "ogle")]

/-- `typeForExt`: the type and the creator. -/
def typeForExt (ext : Bytes) : Bytes × Bytes :=
  match kMap.find? fun m => lower ext = ascii m.1 with
  | some m => (ascii m.2.1, ascii m.2.2)
  | none => (ascii "BINA", ascii "????")

/-! ## The folder -/

/-- An entry of a folder: a file has its bytes and, where there is one, the stream beside it. -/
inductive HostEntry where
  | folder (name : Bytes) (entries : List HostEntry)
  | file (name : Bytes) (bytes : Bytes) (rsrc : Option Bytes)
  | other (name : Bytes)

/-- The name of an entry. -/
def HostEntry.name : HostEntry → Bytes
  | .folder name _ | .file name _ _ | .other name => name

/-- `HfsLimits`. -/
structure HfsLimits where
  maxImageBytes : ℕ := 0x7FFFFFFF
  maxForkBytes : ℕ := 0x7FFF0000

/-- What `hfsBuildImage` refuses with. -/
inductive BuildError where
  | notAFolder
  | nameClash (host host' mac : Bytes)
  | nothing
  | outgrewVolume
  | tooManyNodes
  | outgrewReservation
  | tooBig
  | cannotWrite
  | readFailed (name : Bytes)
  | rsrcReadFailed (name : Bytes)
  deriving DecidableEq

/-- An item and the file it comes from. -/
structure Found extends Item where
  hostName : Bytes
  bytes : Bytes
  rsrc : Bytes
  deriving DecidableEq

/-- The item of a file that is no MacBinary container. -/
def plainItem (name bytes : Bytes) (rsrc : Option Bytes) (it : Item) : Item :=
  let rl := (rsrc.getD []).length
  let it := { it with
    mac := toMacRoman (decodeUtf8 name)
    dataOff := 0#64
    dataLen := BitVec.ofNat 64 bytes.length
    adsRsrc := decide (0 < rl)
    rsrcLen := BitVec.ofNat 64 rl
    type := (typeForExt (extension name)).1
    creator := (typeForExt (extension name)).2 }
  if it.dataLen ≥ 8#64 ∧ readAll bytes 0 8 = some (ascii "Joy!peff") then
    { it with type := ascii "APPL" }
  else it

/-- The item of a file. -/
def fileItem (name bytes : Bytes) (rsrc : Option Bytes) (it : Item) : Item :=
  match if isBin name then tryMacBinary bytes (BitVec.ofNat 64 bytes.length) it else none with
  | some it => it
  | none => plainItem name bytes rsrc it

/-- An empty name is `_`. -/
def named (it : Item) : Item := if it.mac = [] then { it with mac := [0x5F#8] } else it

/-- What the scan makes of an entry. -/
inductive Outcome where
  | skipped
  | leftOut (size : ℕ)
  | kept (it : Found)

/-- The body of the loop over a folder, up to the check for a clash. -/
def examine (limits : HfsLimits) (now parent cnid : U32) : HostEntry → Outcome
  | .folder name _ =>
      if skipName name then .skipped
      else
        let it : Item :=
          { isDir := true, cnid := cnid, parent := parent, mac := toMacRoman (decodeUtf8 name)
            crDate := now, mdDate := now }
        .kept { toItem := named it, hostName := name, bytes := [], rsrc := [] }
  | .file name bytes rsrc =>
      if skipName name then .skipped
      else
        let it := fileItem name bytes rsrc
          { cnid := cnid, parent := parent, crDate := now, mdDate := now }
        if it.dataLen.toNat > limits.maxForkBytes ∨ it.rsrcLen.toNat > limits.maxForkBytes then
          .leftOut (it.dataLen + it.rsrcLen).toNat
        else .kept { toItem := named it, hostName := name, bytes := bytes, rsrc := rsrc.getD [] }
  | .other _ => .skipped

/-- The scan under way: what waits on the stack, its top first, and what has been recorded. -/
structure Scan where
  stack : List (List HostEntry × U32)
  items : List Found
  nextCnid : U32
  totalBytes : ℕ
  warn : List (Bytes × ℕ)

/-- An entry that is kept. -/
def Scan.keep (st : Scan) (e : HostEntry) (it : Found) : Scan where
  stack :=
    match e with
    | .folder _ entries => (entries, it.cnid) :: st.stack
    | _ => st.stack
  items := st.items ++ [it]
  nextCnid := st.nextCnid + 1#32
  totalBytes := if it.isDir then st.totalBytes else st.totalBytes + (it.dataLen + it.rsrcLen).toNat
  warn := st.warn

/-- An entry that is left out. -/
def Scan.leave (st : Scan) (e : HostEntry) (size : ℕ) : Scan :=
  { st with nextCnid := st.nextCnid + 1#32, warn := st.warn ++ [(e.name, size)] }

/-- The loop over the entries of a folder; `seen` has the Mac names so far, with the host's. -/
def scanFolder (limits : HfsLimits) (now parent : U32) :
    List HostEntry → List (Bytes × Bytes) → Scan → Except BuildError Scan
  | [], _, st => .ok st
  | e :: es, seen, st =>
      match examine limits now parent st.nextCnid e with
      | .skipped => scanFolder limits now parent es seen st
      | .leftOut size => scanFolder limits now parent es seen (st.leave e size)
      | .kept it =>
          match seen.lookup it.mac with
          | some other => .error (.nameClash other e.name it.mac)
          | none => scanFolder limits now parent es ((it.mac, e.name) :: seen) (st.keep e it)

/-- The loop over the stack, up to `fuel` folders of it. -/
def scanLoop (limits : HfsLimits) (now : U32) : ℕ → Scan → Option (Except BuildError Scan)
  | fuel, st =>
      match fuel, st.stack with
      | _, [] => some (.ok st)
      | 0, _ :: _ => none
      | fuel + 1, (entries, cnid) :: rest =>
          match scanFolder limits now cnid entries [] { st with stack := rest } with
          | .error e => some (.error e)
          | .ok st => scanLoop limits now fuel st

mutual

/-- The folders in an entry, itself among them. -/
def HostEntry.folders : HostEntry → ℕ
  | .folder _ entries => 1 + foldersIn entries
  | _ => 0

/-- The folders in the entries of one. -/
def foldersIn : List HostEntry → ℕ
  | [] => 0
  | e :: es => e.folders + foldersIn es

end

mutual

/-- The entries in an entry, itself among them. -/
def HostEntry.entries : HostEntry → ℕ
  | .folder _ entries => 1 + entriesIn entries
  | _ => 1

/-- The entries in a folder, at every depth. -/
def entriesIn : List HostEntry → ℕ
  | [] => 0
  | e :: es => e.entries + entriesIn es

end

/-- The scan of a folder. -/
def scan (limits : HfsLimits) (now : U32) (root : List HostEntry) :
    Option (Except BuildError Scan) :=
  scanLoop limits now (1 + foldersIn root)
    { stack := [(root, 2#32)], items := [], nextCnid := 16#32, totalBytes := 0, warn := [] }

end Hfs

end OpenPowerMac
