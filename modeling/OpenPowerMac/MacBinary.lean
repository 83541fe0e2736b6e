/-
MacBinary files and the forks that are copied out of them: `tryMacBinary` and
`streamFork` of `machine/src/hfs.cpp`.

The recogniser compares the length a header asks for with the size of the file. The sum
is made in 32 bits, and the file may be short of it by 127 bytes. `Missed` names the
headers this lets through though a fork ends outside the file; `forks_inside_iff` says
that there are no others.
-/
import OpenPowerMac.HfsTree
import Mathlib.Tactic.Common

set_option autoImplicit false

namespace OpenPowerMac

namespace Hfs

/-! ## The source -/

/-- `Item`: what is recorded of an entry of the folder. -/
structure Item where
  isDir : Bool := false
  cnid : U32 := 0#32
  parent : U32 := 0#32
  mac : Bytes := []
  macBinary : Bool := false
  dataOff : U64 := 0#64
  rsrcOff : U64 := 0#64
  dataLen : U64 := 0#64
  rsrcLen : U64 := 0#64
  adsRsrc : Bool := false
  type : Bytes := List.replicate 4 0x3F#8
  creator : Bytes := List.replicate 4 0x3F#8
  fdFlags : U16 := 0#16
  crDate : U32 := 0#32
  mdDate : U32 := 0#32
  deriving DecidableEq

/-- `readAll`: `len` bytes from `off`, or nothing where the file ends before. -/
def readAll (file : Bytes) (off len : ℕ) : Option Bytes :=
  if ((file.drop off).take len).length = len then some ((file.drop off).take len) else none

/-- One bit of `crc16x`. -/
def crcBit (crc : U16) : U16 :=
  if crc &&& 0x8000#16 ≠ 0#16 then (crc <<< 1) ^^^ 0x1021#16 else crc <<< 1

/-- `crc16x`. -/
def crc16x (bs : Bytes) : U16 :=
  bs.foldl (fun (crc : U16) (b : U8) => crcBit^[8] (crc ^^^ (b.setWidth 16 <<< 8))) 0#16

/-- `get16`. -/
def get16 (b : Bytes) (i : ℕ) : U16 :=
  ((b.getD i 0#8).setWidth 16 <<< 8) ||| (b.getD (i + 1) 0#8).setWidth 16

/-- The lengths of the two forks. -/
def dataLength (h : Bytes) : U32 := BitVec.ofNat 32 (get32 h 83)

def rsrcLength (h : Bytes) : U32 := BitVec.ofNat 32 (get32 h 87)

/-- A length rounded up to the container's blocks. -/
def padded (dl : U32) : U32 := (dl + 127#32) &&& ~~~127#32

/-- The name in a header. -/
def macName (h : Bytes) : Bytes :=
  (((h.drop 2).take (h.getD 1 0#8).toNat).map fun c => if c = 0x3A#8 then 0x5F#8 else c).take 31

/-- What a header makes of an item. -/
def decoded (h : Bytes) (it : Item) : Item :=
  { it with
    mac := macName h
    type := (h.drop 65).take 4
    creator := (h.drop 69).take 4
    fdFlags := ((h.getD 73 0#8).setWidth 16 <<< 8 ||| (h.getD 101 0#8).setWidth 16) &&& ~~~1#16
    crDate := BitVec.ofNat 32 (get32 h 91)
    mdDate := BitVec.ofNat 32 (get32 h 95)
    macBinary := true
    dataOff := 128#64
    dataLen := (dataLength h).setWidth 64
    rsrcOff := (128#32 + padded (dataLength h)).setWidth 64
    rsrcLen := (rsrcLength h).setWidth 64 }

/-- `tryMacBinary`. -/
def tryMacBinary (file : Bytes) (fileSize : U64) (it : Item) : Option Item :=
  if fileSize < 128#64 then none
  else
    match readAll file 0 128 with
    | none => none
    | some h =>
        if h.getD 0 0#8 ≠ 0#8 ∨ h.getD 74 0#8 ≠ 0#8 ∨ h.getD 82 0#8 ≠ 0#8 then none
        else if h.getD 1 0#8 < 1#8 ∨ h.getD 1 0#8 > 63#8 then none
        else if dataLength h > 0x7FFFFFFF#32 ∨ rsrcLength h > 0x7FFFFFFF#32 then none
        else
          let need : U64 := (128#32 + padded (dataLength h) + rsrcLength h).setWidth 64
          if need > fileSize + 127#64 then none
          else
            let crc := get16 h 124
            if crc ≠ 0#16 ∧ crc ≠ crc16x (h.take 124) then none
            else if crc = 0#16 ∧ (h.getD 122 0#8 ≠ 0#8 ∨ h.getD 123 0#8 ≠ 0#8) then none
            else some (decoded h it)

/-- The buffer of `streamFork`. -/
def streamChunk : ℕ := 2 ^ 20

/-- The loop of `streamFork`: `left` bytes from `pos` on, a buffer at a time. -/
def streamLoop (file : Bytes) (pos left : ℕ) : Option Bytes :=
  if left = 0 then some []
  else
    let take := if left < streamChunk then left else streamChunk
    let got := (file.drop pos).take take
    if got.length ≠ take then none
    else (streamLoop file (pos + take) (left - take)).map (got ++ ·)
termination_by left
decreasing_by
  unfold streamChunk
  split <;> omega

/-- `streamFork`: the bytes it writes, or nothing where it meets the end of the file. -/
def streamFork (file : Bytes) (off len : U64) : Option Bytes :=
  if len = 0#64 then some [] else streamLoop file off.toNat len.toNat

/-- The two forks of a MacBinary item as the build copies them. -/
def streamForks (file : Bytes) (it : Item) : Option (Bytes × Bytes) :=
  (streamFork file it.dataOff it.dataLen).bind fun data =>
    (if it.rsrcLen ≠ 0#64 then streamFork file it.rsrcOff it.rsrcLen else some []).map fun rsrc =>
      (data, rsrc)

/-! ## Streaming -/

/-- A file is read whole up to where it ends. -/
theorem length_take_drop (file : Bytes) (pos n : ℕ) :
    ((file.drop pos).take n).length = n ↔ n = 0 ∨ pos + n ≤ file.length := by
  rw [List.length_take, List.length_drop]
  omega

/-- **A fork is copied whole** just when it ends inside the file. -/
theorem streamLoop_eq (file : Bytes) (pos left : ℕ) :
    streamLoop file pos left =
      if left = 0 ∨ pos + left ≤ file.length then some ((file.drop pos).take left) else none := by
  induction left using Nat.strong_induction_on generalizing pos with
  | _ left ih =>
  rw [streamLoop]
  by_cases h0 : left = 0
  · rw [if_pos h0, if_pos (Or.inl h0), h0, List.take_zero]
  · rw [if_neg h0]
    dsimp only
    obtain ⟨n, hn⟩ : ∃ n, (if left < streamChunk then left else streamChunk) = n := ⟨_, rfl⟩
    have hchunk : 0 < streamChunk := by decide
    have hle : n ≤ left := by split at hn <;> omega
    have hpos : 0 < n := by split at hn <;> omega
    rw [hn]
    by_cases hgot : ((file.drop pos).take n).length = n
    · rw [if_neg (not_not.mpr hgot), ih (left - n) (by omega)]
      rw [length_take_drop] at hgot
      by_cases hin : pos + left ≤ file.length
      · -- this buffer, and the rest behind it
        rw [if_pos (show left - n = 0 ∨ pos + n + (left - n) ≤ file.length by omega), if_pos (Or.inr hin),
          Option.map_some, ← List.drop_drop, ← List.take_add, Nat.add_sub_cancel' hle]
      · rw [if_neg (by omega), if_neg (by omega)]
        rfl
    · rw [if_pos hgot]
      rw [length_take_drop] at hgot
      rw [if_neg (by omega)]

theorem streamFork_eq (file : Bytes) (off len : U64) :
    streamFork file off len =
      if len.toNat = 0 ∨ off.toNat + len.toNat ≤ file.length then
        some ((file.drop off.toNat).take len.toNat) else none := by
  unfold streamFork
  by_cases h : len = 0#64
  · rw [if_pos h, h]
    rfl
  · rw [if_neg h, streamLoop_eq]

/-! ## The size test -/

/-- The length a header asks for. -/
def asked (h : Bytes) : ℕ :=
  128 + ((dataLength h).toNat + 127) / 128 * 128 + (rsrcLength h).toNat

/-- Both forks of an item end inside a file of this size. -/
def ForksInside (size : ℕ) (it : Item) : Prop :=
  it.dataOff.toNat + it.dataLen.toNat ≤ size ∧ it.rsrcOff.toNat + it.rsrcLen.toNat ≤ size

instance (size : ℕ) (it : Item) : Decidable (ForksInside size it) := inferInstanceAs (Decidable (_ ∧ _))

/-- The checks of a header that do not look at the file's size. -/
structure HeaderOk (h : Bytes) : Prop where
  zeros : h.getD 0 0#8 = 0#8 ∧ h.getD 74 0#8 = 0#8 ∧ h.getD 82 0#8 = 0#8
  name : 1#8 ≤ h.getD 1 0#8 ∧ h.getD 1 0#8 ≤ 63#8
  lengths : dataLength h ≤ 0x7FFFFFFF#32 ∧ rsrcLength h ≤ 0x7FFFFFFF#32
  sum : get16 h 124 = 0#16 ∨ get16 h 124 = crc16x (h.take 124)
  version : get16 h 124 = 0#16 → h.getD 122 0#8 = 0#8 ∧ h.getD 123 0#8 = 0#8

/-- **What the size test misses**: a file that is short by 1 to 127 bytes, and any file too short
for a length of 4 GB or more, which is cut to 32 bits. -/
def Missed (h : Bytes) (size : ℕ) : Prop :=
  size < asked h ∧ (2 ^ 32 ≤ asked h ∨ asked h ≤ size + 127)

/-- Rounding up, as a number. -/
theorem padded_toNat {dl : U32} (h : dl ≤ 0x7FFFFFFF#32) :
    (padded dl).toNat = (dl.toNat + 127) / 128 * 128 := by
  have hle : dl.toNat ≤ 0x7FFFFFFF := h
  have hshift : padded dl = (dl + 127#32) >>> 7 <<< 7 := by
    unfold padded
    rw [BitVec.shiftLeft_ushiftRight, show BitVec.allOnes 32 <<< 7 = ~~~127#32 by decide]
  rw [hshift, BitVec.toNat_shiftLeft, BitVec.toNat_ushiftRight, BitVec.toNat_add, Nat.shiftLeft_eq,
    Nat.shiftRight_eq_div_pow, BitVec.toNat_ofNat]
  omega

/-- The forks of a decoded header lie inside just when the length it asks for does. -/
theorem forksInside_iff {h : Bytes} (hh : HeaderOk h) (it : Item) (size : ℕ) :
    ForksInside size (decoded h it) ↔ asked h ≤ size := by
  obtain ⟨hd, hr⟩ := hh.lengths
  have hd' : (dataLength h).toNat ≤ 0x7FFFFFFF := hd
  have hp := padded_toNat hd
  have hoff : (decoded h it).rsrcOff.toNat = 128 + ((dataLength h).toNat + 127) / 128 * 128 := by
    show ((128#32 + padded (dataLength h)).setWidth 64).toNat = _
    rw [BitVec.toNat_setWidth, BitVec.toNat_add, hp, BitVec.toNat_ofNat]
    omega
  have hdl : (decoded h it).dataLen.toNat = (dataLength h).toNat := by
    show ((dataLength h).setWidth 64).toNat = _
    rw [BitVec.toNat_setWidth]
    omega
  have hrl : (decoded h it).rsrcLen.toNat = (rsrcLength h).toNat := by
    show ((rsrcLength h).setWidth 64).toNat = _
    have := (rsrcLength h).isLt
    rw [BitVec.toNat_setWidth]
    omega
  unfold ForksInside asked
  rw [hoff, hdl, hrl, show (decoded h it).dataOff.toNat = 128 from rfl]
  omega

/-- **Which files are recognised.** -/
theorem tryMacBinary_eq_some_iff {file : Bytes} {size : U64} {it it' : Item} :
    tryMacBinary file size it = some it' ↔
      ¬ size < 128#64 ∧ ∃ h, readAll file 0 128 = some h ∧ HeaderOk h
        ∧ ¬ (128#32 + padded (dataLength h) + rsrcLength h).setWidth 64 > size + 127#64
        ∧ it' = decoded h it := by
  unfold tryMacBinary
  by_cases hsize : size < 128#64
  · rw [if_pos hsize]
    exact iff_of_false (Option.some_ne_none _).symm fun h => h.1 hsize
  · rw [if_neg hsize]
    cases hread : readAll file 0 128 with
    | none => exact iff_of_false (Option.some_ne_none _).symm (by rintro ⟨-, h, hh, -⟩; exact nomatch hh)
    | some h =>
        dsimp only
        constructor
        · intro hs
          split_ifs at hs with h₁ h₂ h₃ h₄ h₅ h₆
          refine ⟨hsize, h, rfl, ⟨?_, ?_, ?_, ?_, ?_⟩, h₄, (Option.some.inj hs).symm⟩
          · simpa only [not_or, not_not] using h₁
          · simpa only [not_or, gt_iff_lt, BitVec.not_lt] using h₂
          · simpa only [not_or, gt_iff_lt, BitVec.not_lt] using h₃
          · exact (not_and_or.mp h₅).imp not_not.mp not_not.mp
          · intro hz
            simpa only [hz, true_and, not_or, not_not] using h₆
        · rintro ⟨-, h', hh, hok, hneed, rfl⟩
          obtain rfl := Option.some.inj hh
          obtain ⟨hz, hn, hl, hs, hv⟩ := hok
          rw [if_neg (by simpa only [not_or, not_not] using hz),
            if_neg (by simpa only [not_or, gt_iff_lt, BitVec.not_lt] using hn),
            if_neg (by simpa only [not_or, gt_iff_lt, BitVec.not_lt] using hl), if_neg hneed,
            if_neg (not_and_or.mpr (hs.imp not_not.mpr not_not.mpr)), if_neg]
          rintro ⟨h0, h1 | h1⟩
          · exact h1 (hv h0).1
          · exact h1 (hv h0).2

/-- **The size test as it is made**: a file that is too short passes just when it is missed. -/
theorem passes_iff_missed {h : Bytes} (hh : HeaderOk h) {size : U64} (hshort : size.toNat < asked h) :
    ¬ (128#32 + padded (dataLength h) + rsrcLength h).setWidth 64 > size + 127#64
      ↔ Missed h size.toNat := by
  obtain ⟨hd, hr⟩ := hh.lengths
  have hd' : (dataLength h).toNat ≤ 0x7FFFFFFF := hd
  have hr' : (rsrcLength h).toNat ≤ 0x7FFFFFFF := hr
  have hp := padded_toNat hd
  have hneed : ((128#32 + padded (dataLength h) + rsrcLength h).setWidth 64 : U64).toNat
      = asked h % 2 ^ 32 := by
    unfold asked
    rw [BitVec.toNat_setWidth, BitVec.toNat_add, BitVec.toNat_add, hp, BitVec.toNat_ofNat]
    omega
  unfold Missed
  rw [gt_iff_lt, BitVec.lt_def, hneed, BitVec.toNat_add, BitVec.toNat_ofNat]
  unfold asked at hshort ⊢
  omega

/-- A fork inside the file is copied. -/
theorem streamForks_of_inside {file : Bytes} {it : Item} (h : ForksInside file.length it) :
    (streamForks file it).isSome := by
  obtain ⟨hd, hr⟩ := h
  unfold streamForks
  rw [streamFork_eq, if_pos (Or.inr hd), Option.bind_some, Option.isSome_map]
  by_cases hlen : it.rsrcLen ≠ 0#64
  · rw [if_pos hlen, streamFork_eq, if_pos (Or.inr hr)]
    rfl
  · rw [if_neg hlen]
    rfl

/-- **Which recognised files have both their forks inside**: all but those the size test misses. -/
theorem forks_inside_iff (file : Bytes) (size : U64) (it : Item) :
    (∀ it', tryMacBinary file size it = some it' → ForksInside size.toNat it'
        ∧ (file.length = size.toNat → (streamForks file it').isSome))
      ↔ ¬ (¬ size < 128#64 ∧ ∃ h, readAll file 0 128 = some h ∧ HeaderOk h ∧ Missed h size.toNat) := by
  constructor
  · rintro hall ⟨hsize, h, hread, hok, hmiss⟩
    have hpass := (passes_iff_missed hok hmiss.1).mpr hmiss
    have hin := hall (decoded h it) (tryMacBinary_eq_some_iff.mpr ⟨hsize, h, hread, hok, hpass, rfl⟩)
    exact absurd ((forksInside_iff hok it _).mp hin.1) (not_le.mpr hmiss.1)
  · intro hnone it' htry
    obtain ⟨hsize, h, hread, hok, hpass, rfl⟩ := tryMacBinary_eq_some_iff.mp htry
    have hin : ForksInside size.toNat (decoded h it) := by
      rw [forksInside_iff hok]
      by_contra hshort
      exact hnone ⟨hsize, h, hread, hok, (passes_iff_missed hok (not_le.mp hshort)).mp hpass⟩
    refine ⟨hin, fun hlen => streamForks_of_inside ?_⟩
    rw [hlen]
    exact hin

/-- A header for one byte in each fork. -/
def shortHeader : Bytes :=
  [0#8, 1#8, 0x41#8] ++ List.replicate 83 0#8 ++ [1#8, 0#8, 0#8, 0#8, 1#8] ++ List.replicate 37 0#8

/-- The file stops 127 bytes before the resource fork ends, and is recognised. -/
theorem short_file_recognised :
    ∃ it', tryMacBinary (shortHeader ++ [0#8, 0#8]) 130#64 {} = some it' ∧ ¬ ForksInside 130 it'
      ∧ streamForks (shortHeader ++ [0#8, 0#8]) it' = none := by
  refine ⟨decoded shortHeader {}, ?_, ?_, ?_⟩
  · decide +kernel
  · decide
  · unfold streamForks
    rw [streamFork_eq, streamFork_eq]
    decide +kernel

end Hfs

end OpenPowerMac
