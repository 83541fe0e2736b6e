/-
Cue sheets, from `machine/src/cdimage.cpp`: the sheet is read into its files and
tracks, the tracks are laid out over the disc, and a block is read through the layout.

A `std::string` is a list of characters, one for each byte. Sectors and byte offsets
are natural numbers: a sheet has at most 1 MB, so no sum of its times comes near 2^64.
The one value that is cut is `startLba`, a `u32`. What the host's disk holds is a
parameter, a name to the bytes of the file.
-/
import OpenPowerMac.Word
import OpenPowerMac.Extents

set_option autoImplicit false

namespace OpenPowerMac

namespace Cue

open Extents

abbrev Text : Type := List Char

/-- The host's disk. -/
abbrev Disk : Type := Text → Option (List U8)

/-! ## Reading a line -/

def isspace (c : Char) : Bool := c.toNat = 0x20 || (0x09 ≤ c.toNat && c.toNat ≤ 0x0D)

/-- The loop of `cueTokens`; each turn takes at least one character. -/
def cueTokensFrom : ℕ → Text → List Text
  | 0, _ => []
  | n + 1, s =>
      match s.dropWhile isspace with
      | [] => []
      | c :: rest =>
          if c = '"' then
            match rest.dropWhile (· ≠ '"') with
            | [] => [rest]
            | _ :: tail => rest.takeWhile (· ≠ '"') :: cueTokensFrom n tail
          else
            (c :: rest).takeWhile (!isspace ·) :: cueTokensFrom n ((c :: rest).dropWhile (!isspace ·))

/-- `cueTokens`. -/
def cueTokens (line : Text) : List Text := cueTokensFrom (line.length + 1) line

def upper (s : Text) : Text := s.map Char.toUpper

/-- The number that `strtoul` and `strtol` read: whether it has a minus sign, its size,
and what follows. -/
def scanNumber (s : Text) : Option (Bool × ℕ × Text) :=
  let s := s.dropWhile isspace
  let (neg, s) := match s with
    | '-' :: rest => (true, rest)
    | '+' :: rest => (false, rest)
    | s => (false, s)
  match s.takeWhile Char.isDigit with
  | [] => none
  | ds => some (neg, ds.foldl (fun v d => 10 * v + (d.toNat - 0x30)) 0, s.dropWhile Char.isDigit)

/-- `%u` of `sscanf`: `strtoul`, cut to 32 bits. -/
def scanUnsigned (s : Text) : Option (ℕ × Text) :=
  (scanNumber s).map fun (neg, v, rest) =>
    let v := if 2 ^ 64 ≤ v then 2 ^ 64 - 1 else if neg then (2 ^ 64 - v) % 2 ^ 64 else v
    (v % 2 ^ 32, rest)

/-- `atoi`: `strtol`, cut to 32 bits. -/
def atoi (s : Text) : U32 :=
  match scanNumber s with
  | none => 0#32
  | some (neg, v, _) =>
      let v : ℤ := if neg then max (-v) (-2 ^ 63) else min v (2 ^ 63 - 1)
      BitVec.ofInt 32 v

/-- `parseMsf`, for `sscanf` of `%u:%u:%u`. -/
def parseMsf (s : Text) : Option ℕ := do
  let (m, s) ← scanUnsigned s
  let s ← s.head?.bind fun c => if c = ':' then some s.tail else none
  let (sec, s) ← scanUnsigned s
  let s ← s.head?.bind fun c => if c = ':' then some s.tail else none
  let (f, _) ← scanUnsigned s
  if 60 ≤ sec ∨ 75 ≤ f then none else some ((m * 60 + sec) * 75 + f)

/-! ## Reading the sheet -/

/-- `~0ull`, for an index that no line gives. -/
def noIndex : ℕ := 2 ^ 64 - 1

structure CueTrack where
  number : ℕ
  audio : Bool := false
  sectorBytes : ℕ
  dataOff : ℕ := 0
  idxFirst : ℕ := noIndex
  idx01 : ℕ := noIndex
  pregap : ℕ := 0
  file : ℕ
  deriving DecidableEq

structure Sheet where
  fileNames : List Text := []
  ts : List CueTrack := []

/-- The sector that a track mode names: whether it is audio, its size, and where its
user data begin. -/
def trackMode (mode : Text) : Option (Bool × ℕ × ℕ) :=
  if mode = "AUDIO".toList then some (true, 2352, 0)
  else if mode = "MODE1/2048".toList then some (false, 2048, 0)
  else if mode = "MODE1/2352".toList then some (false, 2352, 16)
  else if mode = "MODE2/2336".toList then some (false, 2336, 8)
  else if mode = "MODE2/2352".toList then some (false, 2352, 24)
  else none

/-- `ts.back() = f(ts.back())`. -/
def changeBack (f : CueTrack → CueTrack) : List CueTrack → List CueTrack
  | [] => []
  | [t] => [f t]
  | t :: ts => t :: changeBack f ts

/-- One line of the sheet. -/
def cueLine (lineNo : ℕ) (line : Text) (s : Sheet) : Except String Sheet :=
  let line := if line.getLast? = some '\r' then line.dropLast else line
  let fail (what : String) : Except String Sheet :=
    .error ("cue line " ++ toString lineNo ++ ": " ++ what)
  match cueTokens line with
  | [] => .ok s
  | kw :: args =>
      if upper kw = "FILE".toList then
        match args with
        | name :: type :: _ =>
            if upper type ≠ "BINARY".toList ∧ upper type ≠ "MOTOROLA".toList then
              fail "only BINARY files are supported (audio WAVE/MP3 sheets are not)"
            else .ok { s with fileNames := s.fileNames ++ [name] }
        | _ => fail "FILE needs a name and a type"
      else if upper kw = "TRACK".toList then
        match args with
        | number :: mode :: _ =>
            if s.fileNames = [] then fail "TRACK before any FILE"
            else
              match trackMode (upper mode) with
              | some (audio, sectorBytes, dataOff) =>
                  .ok { s with ts := s.ts ++
                    [{ number := (atoi number).toNat, audio, sectorBytes, dataOff,
                       file := s.fileNames.length - 1 }] }
              | none => fail "unsupported track mode"
        | _ => fail "TRACK needs a number and a mode"
      else if upper kw = "INDEX".toList then
        match args with
        | number :: time :: _ =>
            if s.ts = [] then fail "INDEX outside a TRACK"
            else
              match parseMsf time with
              | none => fail "INDEX time is not mm:ss:ff"
              | some sec =>
                  .ok { s with ts := changeBack (fun t =>
                    { t with
                      idxFirst := if t.idxFirst = noIndex ∨ sec < t.idxFirst then sec else t.idxFirst
                      idx01 := if atoi number = 1#32 then sec else t.idx01 }) s.ts }
        | _ => fail "INDEX outside a TRACK"
      else if upper kw = "PREGAP".toList then
        match args with
        | time :: _ =>
            if s.ts = [] then fail "PREGAP outside a TRACK"
            else
              match parseMsf time with
              | none => fail "PREGAP time is not mm:ss:ff"
              | some sec => .ok { s with ts := changeBack (fun t => { t with pregap := sec }) s.ts }
        | _ => fail "PREGAP outside a TRACK"
      else .ok s

/-- The lines of a text; a newline at its end begins no other. -/
def lines : Text → List Text
  | [] => []
  | c :: cs =>
      if c = '\n' then [] :: lines cs
      else
        match lines cs with
        | [] => [[c]]
        | l :: ls => (c :: l) :: ls

/-- The lines from number `lineNo` on. -/
def cueLines : ℕ → List Text → Sheet → Except String Sheet
  | _, [], s => .ok s
  | lineNo, l :: ls, s => do
      let s ← cueLine lineNo l s
      cueLines (lineNo + 1) ls s

/-- The sheet, collected before any layout is computed. -/
def cueSheet (disk : Disk) (cuePath : Text) : Except String Sheet := do
  match disk cuePath with
  | none => .error "cannot open the cue sheet"
  | some bytes =>
      if 2 ^ 20 < bytes.length then .error "the cue sheet is not a cue sheet (over 1 MB of text)"
      else
        let s ← cueLines 1 (lines (bytes.map fun b => Char.ofNat b.toNat)) {}
        if s.ts = [] then .error "the cue sheet names no tracks"
        else
          match s.ts.find? (·.idx01 = noIndex) with
          | some t => .error ("cue track " ++ toString t.number ++ " has no INDEX 01")
          | none => .ok s

/-! ## The layout -/

structure CdTrack where
  number : ℕ := 1
  audio : Bool := false
  startLba : ℕ := 0
  sectorBytes : ℕ := 2048
  dataOff : ℕ := 0
  fileByte : ℕ := 0
  file : ℕ := 0
  contentSectors : ℕ := 0
  deriving DecidableEq

structure CdImage where
  files : List (List U8)
  tracks : List CdTrack
  blocks : ℕ

/-- Up to and with the last slash. -/
def dirOf (cuePath : Text) : Text :=
  (cuePath.reverse.dropWhile fun c => c ≠ '/' && c ≠ '\\').reverse

/-- Where a named file lies. -/
def resolve (dir name : Text) : Text :=
  if 1 < name.length ∧ (name[0]? = some '/' ∨ name[0]? = some '\\' ∨ name[1]? = some ':') then name
  else dir ++ name

/-- Every named file; the message is cut to its buffer. -/
def openFiles (disk : Disk) (dir : Text) : List Text → Except String (List (List U8))
  | [] => .ok []
  | name :: names =>
      match disk (resolve dir name) with
      | none => .error (String.ofList
          (("the cue names a file that is not beside it: ".toList ++ name).take 511))
      | some bytes => do
          let rest ← openFiles disk dir names
          .ok (bytes :: rest)

section File

variable (fileBytes fi discBase : ℕ)

/-- The first sector of a track's region; a file's first region begins with the file. -/
def regionStart (prev : Option CueTrack) (t : CueTrack) : ℕ :=
  match prev with
  | none => 0
  | some _ => min t.idxFirst t.idx01

/-- Where it begins, `n` sectors of the track before behind that one's region. -/
def nextByte (prev : Option CueTrack) (byteCursor n : ℕ) : ℕ :=
  match prev with
  | none => byteCursor
  | some q => byteCursor + n * q.sectorBytes

/-- The first loop over the tracks of a file: where each begins, and where its region
begins in the file. -/
def place : Option CueTrack → ℕ → ℕ → ℕ → List CueTrack → Except String (List (CdTrack × ℕ))
  | _, _, _, _, [] => .ok []
  | prev, virt, byteCursor, sectorCursor, t :: ts =>
      let start := regionStart prev t
      -- the three ways a sheet can contradict itself or its file
      if start < sectorCursor then .error "cue INDEX times run backwards"
      else
        let byteCursor := nextByte prev byteCursor (start - sectorCursor)
        if t.idx01 < start then .error "cue INDEX 01 precedes INDEX 00"
        else
          let virt := virt + t.pregap
          let out : CdTrack :=
            { number := t.number, audio := t.audio, sectorBytes := t.sectorBytes
              dataOff := t.dataOff, file := fi
              fileByte := byteCursor + (t.idx01 - start) * t.sectorBytes
              startLba := (discBase + virt + t.idx01) % 2 ^ 32 }
          if fileBytes < out.fileByte then .error "cue INDEX lies beyond the end of its file"
          else do
            let rest ← place (some t) virt byteCursor start ts
            .ok ((out, byteCursor) :: rest)

/-- The second loop: how much content each has. -/
def measure : List (CdTrack × ℕ) → Except String (List CdTrack)
  | [] => .ok []
  | (out, _) :: rest =>
      let endByte := (rest.head?.map Prod.snd).getD fileBytes
      if endByte < out.fileByte then .error "cue tracks overlap"
      else do
        let outs ← measure rest
        .ok ({ out with contentSectors := (endByte - out.fileByte) / out.sectorBytes } :: outs)

end File

/-- The loop over the files, from file `fi` on. -/
def layout (ts : List CueTrack) :
    ℕ → List (List U8) → List CdTrack → ℕ → Except String (List CdTrack × ℕ)
  | _, [], tracks, blocks => .ok (tracks, blocks)
  | fi, f :: files, tracks, blocks =>
      let mine := ts.filter (·.file = fi)
      if mine = [] then layout ts (fi + 1) files tracks blocks
      else do
        let placed ← place f.length fi blocks none 0 0 0 mine
        let outs ← measure f.length placed
        let tracks := tracks ++ outs
        let blocks := match tracks.getLast? with
          | none => blocks
          | some last => last.startLba + last.contentSectors
        layout ts (fi + 1) files tracks blocks

/-- `CdImage::openCue`. -/
def openCue (disk : Disk) (cuePath : Text) : Except String CdImage := do
  let s ← cueSheet disk cuePath
  let files ← openFiles disk (dirOf cuePath) s.fileNames
  let (tracks, blocks) ← layout s.ts 0 files [] 0
  if tracks = [] then .error "the cue sheet names no usable tracks"
  else .ok ⟨files, tracks, blocks⟩

/-! ## Reading a block -/

namespace CdImage

/-- `CdImage::trackAt`. -/
def trackAt (img : CdImage) (lba : ℕ) : Option CdTrack :=
  match img.tracks with
  | [] => none
  | t :: ts => some (lastFrom CdTrack.startLba lba t (t :: ts))

def zeros : List U8 := List.replicate 2048 0#8

/-- `fread` of a block over a buffer of zeros. -/
def readAt (file : List U8) (byte : ℕ) : List U8 :=
  (file.drop byte).take 2048 ++ zeros.drop ((file.drop byte).take 2048).length

/-- `CdImage::readBlock`, of an image that a cue sheet opened: what it returns, and what
`dst` holds. -/
def readBlock (img : CdImage) (lba : ℕ) : Bool × List U8 :=
  if img.blocks ≤ lba then (true, zeros)
  else
    match img.trackAt lba with
    | none => (true, zeros)
    | some t =>
        if t.audio then (false, zeros)
        else if lba < t.startLba then (true, zeros)
        else if t.contentSectors ≤ lba - t.startLba then (true, zeros)
        else
          match img.files[t.file]? with
          | none => (true, zeros)
          | some f =>
              (true, readAt f (t.fileByte + (lba - t.startLba) * t.sectorBytes + t.dataOff))

end CdImage

end Cue

end OpenPowerMac
