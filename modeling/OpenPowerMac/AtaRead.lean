/-
What a READ of the hard disk delivers.

The bytes that a command is still to deliver are what is left of the staged sector and
the sectors behind it (`rest`). A read of the data register and a request of the DMA
channel both take from the front of them, whatever the sizes, as long as no register
read is wider than what is left of the sector; and both leave a buffer that has bytes or
a command that is over (`Streaming`).
-/
import OpenPowerMac.AtaDma

set_option autoImplicit false

namespace OpenPowerMac

namespace Ata

namespace Cell

variable {c c' : Cell}

/-! ## The addressed sector -/

/-- The sector that the task file addresses, by LBA or by cylinder, head and sector. -/
def addressedSector (c : Cell) : ℕ :=
  if c.dev &&& 0x40#8 ≠ 0#8 then
    (c.dev.toNat % 16) * 2 ^ 24 + c.bcHi.toNat * 2 ^ 16 + c.bcLo.toNat * 2 ^ 8 + c.lba0.toNat
  else
    ((c.bcHi.toNat * 2 ^ 8 + c.bcLo.toNat) * max 1 c.curHeads.toNat + c.dev.toNat % 16)
      * max 1 c.curSectors.toNat + (c.lba0.toNat - 1)

theorem toNat_shift_or {x : U32} {i : ℕ} {y : U32} (hx : x.toNat * 2 ^ i < 2 ^ 32)
    (hy : y.toNat < 2 ^ i) : ((x <<< i) ||| y).toNat = x.toNat * 2 ^ i + y.toNat := by
  rw [BitVec.toNat_or, BitVec.toNat_shiftLeft, Nat.shiftLeft_eq, Nat.mod_eq_of_lt hx,
    ← Nat.shiftLeft_eq, Nat.shiftLeft_add_eq_or_of_lt hy]

theorem toNat_byte (b : U8) : (b.setWidth 32 : U32).toNat = b.toNat := by
  have hlt := b.isLt
  rw [BitVec.toNat_setWidth, Nat.mod_eq_of_lt (by omega)]

theorem toNat_head (dev : U8) : ((dev &&& 0x0F#8).setWidth 32 : U32).toNat = dev.toNat % 16 := by
  rw [toNat_byte, BitVec.toNat_and]
  exact Nat.and_two_pow_sub_one_eq_mod dev.toNat 4

/-- A register that counts zero as one. -/
theorem toNat_atLeastOne (b : U8) :
    (if b ≠ 0#8 then b.setWidth 32 else 1#32 : U32).toNat = max 1 b.toNat := by
  by_cases hb : b = 0#8
  · rw [if_neg (not_not.mpr hb), hb]
    rfl
  · have hne : b.toNat ≠ 0 := fun h => hb (BitVec.eq_of_toNat_eq h)
    rw [if_pos hb, toNat_byte]
    omega

theorem diskLba_toNat (c : Cell) : c.diskLba.toNat = c.addressedSector := by
  have hhi := c.bcHi.isLt
  have hlo := c.bcLo.isLt
  have hl := c.lba0.isLt
  have hh := Nat.mod_lt c.dev.toNat (show 0 < 16 by decide)
  have hcyl : ((c.bcHi.setWidth 32 <<< 8) ||| c.bcLo.setWidth 32 : U32).toNat
      = c.bcHi.toNat * 2 ^ 8 + c.bcLo.toNat := by
    rw [toNat_shift_or (by rw [toNat_byte]; omega) (by rw [toNat_byte]; omega), toNat_byte, toNat_byte]
  by_cases hmode : c.dev &&& 0x40#8 ≠ 0#8
  · have hlow : ((c.bcLo.setWidth 32 <<< 8) ||| c.lba0.setWidth 32 : U32).toNat
        = c.bcLo.toNat * 2 ^ 8 + c.lba0.toNat := by
      rw [toNat_shift_or (by rw [toNat_byte]; omega) (by rw [toNat_byte]; omega), toNat_byte, toNat_byte]
    have hmid : ((c.bcHi.setWidth 32 <<< 16) ||| ((c.bcLo.setWidth 32 <<< 8) ||| c.lba0.setWidth 32)
        : U32).toNat = c.bcHi.toNat * 2 ^ 16 + (c.bcLo.toNat * 2 ^ 8 + c.lba0.toNat) := by
      rw [toNat_shift_or (by rw [toNat_byte]; omega) (by rw [hlow]; omega), toNat_byte, hlow]
    rw [diskLba, addressedSector, if_pos hmode, if_pos hmode, BitVec.or_assoc, BitVec.or_assoc,
      toNat_shift_or (by rw [toNat_head]; omega) (by rw [hmid]; omega), toNat_head, hmid]
    omega
  · have hheads := toNat_atLeastOne c.curHeads
    have hsectors := toNat_atLeastOne c.curSectors
    have hheadsLt := c.curHeads.isLt
    have hsectorsLt := c.curSectors.isLt
    have hsector : (if c.lba0 ≠ 0#8 then c.lba0.setWidth 32 - 1#32 else 0#32 : U32).toNat
        = c.lba0.toNat - 1 := by
      by_cases hz : c.lba0 = 0#8
      · rw [if_neg (not_not.mpr hz), hz]
        rfl
      · have hne : c.lba0.toNat ≠ 0 := fun h => hz (BitVec.eq_of_toNat_eq h)
        have hone : (1#32).toNat = 1 := rfl
        rw [if_pos hz, BitVec.toNat_sub_of_le (by rw [BitVec.le_def, toNat_byte, hone]; omega),
          toNat_byte, hone]
    -- no product leaves 32 bits
    have hcylinders : (c.bcHi.toNat * 2 ^ 8 + c.bcLo.toNat) * max 1 c.curHeads.toNat ≤ 65535 * 255 :=
      Nat.mul_le_mul (by omega) (by omega)
    have hall : ((c.bcHi.toNat * 2 ^ 8 + c.bcLo.toNat) * max 1 c.curHeads.toNat + c.dev.toNat % 16)
        * max 1 c.curSectors.toNat ≤ (65535 * 255 + 15) * 255 :=
      Nat.mul_le_mul (by omega) (by omega)
    rw [diskLba, addressedSector, if_neg hmode, if_neg hmode]
    simp only [BitVec.toNat_add, BitVec.toNat_mul, hcyl, hheads, hsectors, hsector, toNat_head]
    rw [Nat.mod_eq_of_lt (a := (c.bcHi.toNat * 2 ^ 8 + c.bcLo.toNat) * max 1 c.curHeads.toNat)
      (by omega), Nat.mod_eq_of_lt (a := _ + c.dev.toNat % 16) (by omega),
      Nat.mod_eq_of_lt (a := _ * max 1 c.curSectors.toNat) (by omega), Nat.mod_eq_of_lt (by omega)]

/-! ## What is still to come -/

theorem readImage_append (image : List U8) (at_ m n : ℕ) :
    readImage image at_ (m + n) = readImage image at_ m ++ readImage image (at_ + m) n := by
  have hlen : ∀ k j, ((image.drop k).take j).length = min j (image.length - k) := by
    intro k j
    rw [List.length_take, List.length_drop]
  rw [readImage, readImage, readImage]
  simp only [hlen]
  rw [List.take_add, List.drop_drop]
  by_cases hshort : image.length - at_ ≤ m
  · have hnone : (image.drop (at_ + m)).take n = [] := by
      rw [List.drop_eq_nil_of_le (by omega), List.take_nil]
    rw [hnone, List.append_nil, List.nil_append, List.append_assoc, List.replicate_append_replicate,
      show m - min m (image.length - at_) + (n - min n (image.length - (at_ + m)))
        = m + n - min (m + n) (image.length - at_) by omega]
  · have hfull : m - min m (image.length - at_) = 0 := by omega
    rw [hfull, List.replicate_zero, List.append_nil, List.append_assoc,
      show m + n - min (m + n) (image.length - at_) = n - min n (image.length - (at_ + m)) by omega]

/-- The bytes that the command is still to deliver. -/
def rest (c : Cell) : List U8 :=
  c.data.drop c.dataAt ++ readImage c.image (c.readLba * 512) (c.readLeft * 512)

/-- A hard disk in a read: the buffer has bytes, or the command is over. -/
structure Streaming (c : Cell) : Prop where
  disk : c.disk = true
  selected : c.dev &&& 0x10#8 = 0#8
  data : c.data = [] → c.readLeft = 0
  unread : c.data ≠ [] → c.dataAt < c.data.length

theorem Streaming.over_iff (h : Streaming c) : c.data = [] ↔ c.rest = [] := by
  constructor
  · intro hdata
    rw [rest, hdata, h.data hdata, List.drop_nil, Nat.zero_mul]
    rfl
  · intro hrest
    by_contra hdata
    have hlt := h.unread hdata
    have hlen := congrArg List.length (List.append_eq_nil_iff.mp hrest).1
    rw [List.length_drop, List.length_nil] at hlen
    omega

/-- A sector is staged, or the command is over. -/
theorem streaming_start (hdisk : c.disk = true) (hsel : c.dev &&& 0x10#8 = 0#8) :
    Streaming c.diskStartRead ∧ c.diskStartRead.rest
      = readImage c.image (c.readLba * 512) (c.readLeft * 512)
      ∧ c.diskStartRead.pulled = c.pulled := by
  by_cases hleft : c.readLeft = 0
  · rw [diskStartRead, if_pos hleft]
    exact ⟨⟨hdisk, hsel, fun _ => hleft, fun h => absurd rfl h⟩, rfl, rfl⟩
  · rw [diskStartRead, if_neg hleft]
    have hlen := length_readImage c.image (c.readLba * 512) 512
    refine ⟨⟨hdisk, hsel, fun h => ?_, fun _ => ?_⟩, ?_, rfl⟩
    · have hempty : readImage c.image (c.readLba * 512) 512 = [] := h
      rw [hempty, List.length_nil] at hlen
      cases hlen
    · show 0 < (readImage c.image (c.readLba * 512) 512).length
      omega
    · show (readImage c.image (c.readLba * 512) 512).drop 0
        ++ readImage c.image ((c.readLba + 1) * 512) ((c.readLeft - 1) * 512) = _
      rw [List.drop_zero, show (c.readLba + 1) * 512 = c.readLba * 512 + 512 by omega,
        ← readImage_append, show 512 + (c.readLeft - 1) * 512 = c.readLeft * 512 by omega]

/-! ## Requests -/

/-- The bytes of a register read, the first one highest. -/
def regBytes (len : ℕ) (v : U32) : List U8 :=
  (List.range len).map fun i => (v >>> (8 * (len - 1 - i))).setWidth 8

/-- What a host asks of the cell: a read of the data register, or a request of the DMA
channel. -/
inductive Request where
  | pio16
  | pio32
  | dma (n : ℕ)

/-- How many bytes it asks for. -/
def Request.size : Request → ℕ
  | .pio16 => 2
  | .pio32 => 4
  | .dma n => n

/-- The bytes that a request is answered with, and the cell it leaves. A register read
with no buffer open supplies nothing. -/
inductive Supplies : Cell → Request → List U8 → Cell → Prop
  | pio16 (c : Cell) :
      Supplies c .pio16 (if c.data = [] then [] else regBytes 2 (c.readData 2).1) (c.readData 2).2
  | pio32 (c : Cell) :
      Supplies c .pio32 (if c.data = [] then [] else regBytes 4 (c.readData 4).1) (c.readData 4).2
  | dma {c c' : Cell} {n fuel : ℕ} {bs : List U8} (h : dmaTake fuel c n = some (bs, c')) :
      Supplies c (.dma n) bs c'

/-- A register read is not wider than what is left of the buffer. -/
def Narrow (c : Cell) : Request → Prop
  | .dma _ => True
  | r => c.data = [] ∨ r.size ≤ c.unread

/-- A run of requests, each register read narrow where it is made. -/
inductive Delivers : Cell → List Request → List U8 → Cell → Prop
  | nil (c : Cell) : Delivers c [] [] c
  | cons {c c₁ c' : Cell} {r : Request} {rs : List Request} {bs bs' : List U8} (hn : Narrow c r)
      (h : Supplies c r bs c₁) (hrest : Delivers c₁ rs bs' c') : Delivers c (r :: rs) (bs ++ bs') c'

/-- How many bytes a run asks for. -/
def asked (rs : List Request) : ℕ := (rs.map Request.size).sum

/-- The value of a register read. -/
def regValue (bs : List U8) : U32 := bs.foldl (fun v b => (v <<< 8) ||| b.setWidth 32) 0#32

theorem regValue_append (bs : List U8) (b : U8) :
    regValue (bs ++ [b]) = (regValue bs <<< 8) ||| b.setWidth 32 := by
  rw [regValue, List.foldl_append]
  rfl

theorem regBytes_succ (len : ℕ) (v : U32) :
    regBytes (len + 1) v = regBytes len (v >>> 8) ++ [v.setWidth 8] := by
  rw [regBytes, List.range_succ, List.map_append, List.map_singleton]
  congr 1
  · refine List.map_congr_left fun i hi => ?_
    have hi := List.mem_range.mp hi
    rw [← BitVec.shiftRight_add, show 8 * (len + 1 - 1 - i) = 8 + 8 * (len - 1 - i) by omega]
  · rw [show 8 * (len + 1 - 1 - len) = 0 by omega, BitVec.ushiftRight_zero]

/-- Four bytes or fewer come back from the value. -/
theorem regValue_spec (bs : List U8) (hlen : bs.length ≤ 4) :
    (regValue bs).toNat < 2 ^ (8 * bs.length) ∧ regBytes bs.length (regValue bs) = bs := by
  induction bs using List.reverseRecOn with
  | nil => exact ⟨by decide, rfl⟩
  | append_singleton bs b ih =>
      rw [List.length_append, List.length_singleton] at hlen
      obtain ⟨hlt, hback⟩ := ih (by omega)
      have hb := b.isLt
      have hpow : 2 ^ (8 * bs.length) ≤ 2 ^ 24 := Nat.pow_le_pow_right (by decide) (by omega)
      have hval : (regValue (bs ++ [b])).toNat = (regValue bs).toNat * 2 ^ 8 + b.toNat := by
        rw [regValue_append, toNat_shift_or (by omega) (by rw [toNat_byte]; omega), toNat_byte]
      have hfront : regValue (bs ++ [b]) >>> 8 = regValue bs := by
        refine BitVec.eq_of_toNat_eq ?_
        rw [BitVec.toNat_ushiftRight, hval, Nat.shiftRight_eq_div_pow]
        omega
      have hlast : (regValue (bs ++ [b])).setWidth 8 = b := by
        refine BitVec.eq_of_toNat_eq ?_
        rw [BitVec.toNat_setWidth, hval]
        omega
      rw [List.length_append, List.length_singleton, regBytes_succ, hfront, hback, hlast, hval]
      refine ⟨?_, rfl⟩
      rw [Nat.mul_add, Nat.pow_add]
      omega

/-- What either way of reading does to the buffer. -/
theorem streaming_drain (h : Streaming c) {n : ℕ} (hn : n ≤ c.unread) (hdata : c.data ≠ []) (p : U32)
    (next : Cell) (hnext : next = { (c.drain n).2 with pulled := p }) :
    (c.drain n).1 = c.rest.take n
      ∧ Streaming (if next.data.length ≤ next.dataAt then next.finishPio true else next)
      ∧ (if next.data.length ≤ next.dataAt then next.finishPio true else next).rest = c.rest.drop n := by
  have hlen : (c.data.drop c.dataAt).length = c.unread := List.length_drop
  have hlt := h.unread hdata
  have hat : next.dataAt = c.dataAt + n := by
    have hd := length_drain (c := c) n
    rw [Nat.min_eq_left hn] at hd
    rw [hnext]
    exact congrArg (c.dataAt + ·) hd
  have hunread : c.unread = c.data.length - c.dataAt := rfl
  have hsame : next.data = c.data ∧ next.image = c.image ∧ next.readLba = c.readLba
      ∧ next.readLeft = c.readLeft ∧ next.disk = c.disk ∧ next.dev = c.dev := by
    rw [hnext]
    exact ⟨rfl, rfl, rfl, rfl, rfl, rfl⟩
  obtain ⟨hnd, hni, hnl, hnr, hnk, hnv⟩ := hsame
  refine ⟨?_, ?_⟩
  · rw [rest, List.take_append_of_le_length (by rw [hlen]; exact hn)]
    rfl
  have hrest : c.rest.drop n = next.data.drop next.dataAt
      ++ readImage c.image (c.readLba * 512) (c.readLeft * 512) := by
    rw [rest, List.drop_append_of_le_length (by rw [hlen]; exact hn), List.drop_drop, hnd, hat]
  by_cases hdrained : next.data.length ≤ next.dataAt
  · -- the sector is drained: the next one, or the end
    rw [if_pos hdrained]
    have hrun : next.finishPio true = next.diskStartRead := by
      rw [finishPio, if_pos (hnk.trans h.disk)]
    obtain ⟨hs, hr, -⟩ := streaming_start (c := next) (hnk.trans h.disk) (by rw [hnv]; exact h.selected)
    rw [hrun, hrest, List.drop_eq_nil_of_le hdrained, List.nil_append, ← hni, ← hnl, ← hnr]
    exact ⟨hs, hr⟩
  · rw [if_neg hdrained]
    refine ⟨⟨hnk.trans h.disk, by rw [hnv]; exact h.selected, fun he => ?_, fun _ => by omega⟩, ?_⟩
    · rw [hnd] at he
      exact absurd he hdata
    · rw [rest, hrest, hni, hnl, hnr]

theorem drain_empty (hdata : c.data = []) (n : ℕ) : c.drain n = ([], c) := by
  have hnone : (c.data.drop c.dataAt).take n = [] := by rw [hdata, List.drop_nil, List.take_nil]
  show ((c.data.drop c.dataAt).take n,
    { c with dataAt := c.dataAt + ((c.data.drop c.dataAt).take n).length }) = _
  rw [hnone]
  rfl

/-- A read of the data register with no buffer open. -/
theorem readData_over (hover : c.data = []) (hsel : c.dev &&& 0x10#8 = 0#8) (len : ℕ) :
    c.readData len = (0#32, { c with pulled := c.pulled + BitVec.ofNat 32 len }) := by
  have hnone : (c.data.drop c.dataAt).take len = [] := by rw [hover, List.drop_nil, List.take_nil]
  rw [readData, if_neg (not_not.mpr hsel), hnone]
  simp only [List.length_nil, Nat.add_zero, List.foldl_nil, hover, ne_eq, not_true_eq_false,
    false_and, if_false]

/-- A read of the data register. -/
theorem readData_streaming (h : Streaming c) {len : ℕ} (hpos : 0 < len) (hlen : len ≤ 4)
    (hn : c.data = [] ∨ len ≤ c.unread) :
    (if c.data = [] then [] else regBytes len (c.readData len).1) = c.rest.take len
      ∧ Streaming (c.readData len).2 ∧ (c.readData len).2.rest = c.rest.drop len := by
  by_cases hdata : c.data = []
  · have hrest := h.over_iff.mp hdata
    rw [if_pos hdata, readData_over hdata h.selected, hrest, List.take_nil, List.drop_nil]
    exact ⟨rfl, ⟨h.disk, h.selected, h.data, h.unread⟩, hrest⟩
  · obtain ⟨next, hnext⟩ : ∃ next : Cell, next = { (c.drain len).2 with
      pulled := c.pulled + BitVec.ofNat 32 len } := ⟨_, rfl⟩
    have hnd : next.data = c.data := by
      rw [hnext]
      rfl
    have hread : c.readData len = (regValue (c.drain len).1,
        if next.data.length ≤ next.dataAt then next.finishPio true else next) := by
      rw [readData, if_neg (not_not.mpr h.selected), ← if_congr (and_iff_right (hnd ▸ hdata)) rfl rfl,
        hnext]
      rfl
    have hn := hn.resolve_left hdata
    obtain ⟨htake, hs, hr⟩ := streaming_drain h hn hdata _ _ hnext
    have hsize : (c.drain len).1.length = len := by rw [length_drain, Nat.min_eq_left hn]
    have hback := (regValue_spec (c.drain len).1 (by omega)).2
    rw [hsize] at hback
    rw [if_neg hdata, hread]
    exact ⟨hback.trans htake, hs, hr⟩

/-- More than there is drains what there is. -/
theorem drain_all {n : ℕ} (hn : c.unread ≤ n) : c.drain n = c.drain c.unread := by
  have hlen : (c.data.drop c.dataAt).length = c.unread := List.length_drop
  have hall : (c.data.drop c.dataAt).take n = (c.data.drop c.dataAt).take c.unread := by
    rw [List.take_of_length_le (by omega), List.take_of_length_le (by omega)]
  show ((c.data.drop c.dataAt).take n,
    { c with dataAt := c.dataAt + ((c.data.drop c.dataAt).take n).length }) = _
  rw [hall]
  rfl

/-- A request of the DMA channel, of any size. -/
theorem dmaTake_streaming (fuel : ℕ) : ∀ {c c' : Cell} {n : ℕ} {bs : List U8}, Streaming c →
    dmaTake fuel c n = some (bs, c') → bs = c.rest.take n ∧ Streaming c' ∧ c'.rest = c.rest.drop n := by
  induction fuel with
  | zero =>
      intro c c' n bs h hrun
      rcases n with _ | n
      · rw [dmaTake, Option.some.injEq, Prod.mk.injEq] at hrun
        rw [← hrun.1, ← hrun.2, List.take_zero, List.drop_zero]
        exact ⟨rfl, h, rfl⟩
      · cases hrun
  | succ fuel ih =>
      intro c c' n bs h hrun
      rcases n with _ | n
      · rw [dmaTake, Option.some.injEq, Prod.mk.injEq] at hrun
        rw [← hrun.1, ← hrun.2, List.take_zero, List.drop_zero]
        exact ⟨rfl, h, rfl⟩
      rw [dmaTake_succ] at hrun
      by_cases hdata : c.data = []
      · -- no buffer open: the loop stops at once
        have hrest := h.over_iff.mp hdata
        rw [if_pos (.inr hdata), drain_empty hdata, Option.some.injEq, Prod.mk.injEq] at hrun
        rw [← hrun.1, ← hrun.2, hrest, List.take_nil, List.drop_nil]
        exact ⟨rfl, h, rfl⟩
      have hunread := unread_drain (c := c) (n + 1)
      by_cases hroom : c.unread ≤ n + 1
      · -- the sector is drained: the end, or on with the next one
        rw [drain_all hroom] at hrun hunread
        obtain ⟨htake, hs, hr⟩ := streaming_drain h (Nat.le_refl _) hdata c.pulled
          (c.drain c.unread).2 rfl
        have hdef : (c.drain c.unread).2.unread
            = (c.drain c.unread).2.data.length - (c.drain c.unread).2.dataAt := rfl
        rw [if_pos (by omega)] at hs hr
        have hlen : (c.drain c.unread).1.length = c.unread := by rw [length_drain, Nat.min_self]
        rw [if_neg (by rintro (hne | hne); exacts [hne (by omega), hdata hne]), hlen] at hrun
        by_cases hover : ((c.drain c.unread).2.finishPio true).data = []
        · rw [if_pos hover, Option.some.injEq, Prod.mk.injEq] at hrun
          have hnone := hs.over_iff.mp hover
          rw [hr] at hnone
          have hshort : c.rest.length ≤ c.unread := List.drop_eq_nil_iff.mp hnone
          rw [← hrun.1, ← hrun.2, htake, hr, List.take_of_length_le hshort,
            List.take_of_length_le (by omega), List.drop_eq_nil_of_le hshort,
            List.drop_eq_nil_of_le (by omega)]
          exact ⟨rfl, hs, rfl⟩
        · rw [if_neg hover, Option.map_eq_some_iff] at hrun
          obtain ⟨⟨bs', c₁⟩, hnext, heq⟩ := hrun
          rw [Prod.mk.injEq] at heq
          obtain ⟨hbs, hs', hr'⟩ := ih hs hnext
          have hcount : n + 1 = c.unread + (n + 1 - c.unread) := by omega
          rw [← heq.1, ← heq.2, htake, hbs, hr', hr, hcount, List.take_add, List.drop_drop,
            Nat.add_sub_cancel_left]
          exact ⟨rfl, hs', rfl⟩
      · -- the request is filled
        obtain ⟨htake, hs, hr⟩ := streaming_drain h (Nat.le_of_not_le hroom) hdata c.pulled
          (c.drain (n + 1)).2 rfl
        have hdef : (c.drain (n + 1)).2.unread
            = (c.drain (n + 1)).2.data.length - (c.drain (n + 1)).2.dataAt := rfl
        rw [if_neg (by omega)] at hs hr
        rw [if_pos (.inl (by omega)), Option.some.injEq] at hrun
        rw [hrun] at htake hs hr
        exact ⟨htake, hs, hr⟩

/-! ## The run -/

theorem supplies_streaming (h : Streaming c) {r : Request} (hn : Narrow c r) {bs : List U8}
    (hsup : Supplies c r bs c') :
    bs = c.rest.take r.size ∧ Streaming c' ∧ c'.rest = c.rest.drop r.size := by
  rcases hsup with _ | _ | hrun
  · exact readData_streaming h (by decide) (by decide) hn
  · exact readData_streaming h (by decide) (by decide) hn
  · exact dmaTake_streaming _ h hrun

theorem delivers_streaming {rs : List Request} {bs : List U8} (hrun : Delivers c rs bs c') :
    Streaming c → bs = c.rest.take (asked rs) ∧ Streaming c' ∧ c'.rest = c.rest.drop (asked rs) := by
  induction hrun with
  | nil c => exact fun h => ⟨rfl, h, rfl⟩
  | @cons c c₁ c' r rs bs bs' hn hsup _ ih =>
      intro h
      obtain ⟨hbs, hs, hr⟩ := supplies_streaming h hn hsup
      obtain ⟨hbs', hs', hr'⟩ := ih hs
      have hasked : asked (r :: rs) = r.size + asked rs := by
        rw [asked, List.map_cons, List.sum_cons, asked]
      rw [hbs, hbs', hr', hr, hasked, List.take_add, List.drop_drop]
      exact ⟨rfl, hs', rfl⟩

/-- A request of a command that is over supplies nothing and changes no register. -/
theorem supplies_over (hover : c.data = []) (hsel : c.dev &&& 0x10#8 = 0#8) {r : Request}
    {bs : List U8} (hsup : Supplies c r bs c') :
    bs = [] ∧ c' = { c with pulled := c'.pulled } := by
  cases hsup with
  | pio16 =>
      rw [readData_over hover hsel, if_pos hover]
      exact ⟨rfl, rfl⟩
  | pio32 =>
      rw [readData_over hover hsel, if_pos hover]
      exact ⟨rfl, rfl⟩
  | @dma _ n fuel _ hrun =>
      rcases n with _ | n
      · rw [dmaTake, Option.some.injEq, Prod.mk.injEq] at hrun
        rw [← hrun.1, ← hrun.2]
        exact ⟨rfl, rfl⟩
      rcases fuel with _ | fuel
      · cases hrun
      · rw [dmaTake_succ, if_pos (.inr hover), drain_empty hover, Option.some.injEq, Prod.mk.injEq]
          at hrun
        rw [← hrun.1, ← hrun.2]
        exact ⟨rfl, rfl⟩

/-- The sectors that a command asks for: a count of zero is 256. -/
def sectorCount (c : Cell) : ℕ := if c.nsect ≠ 0#8 then c.nsect.toNat else 256

/-- The runs from `c₀` deliver the read that `c` was told to make: the bytes of the image
from the addressed sector on, as many as are asked for. The command is over when all of
them have been, and then nothing more is supplied and nothing changes. -/
def DeliversImage (c c₀ : Cell) : Prop :=
  ∀ rs bs c', Delivers c₀ rs bs c' →
    bs = (readImage c.image (c.addressedSector * 512) (c.sectorCount * 512)).take (asked rs)
    ∧ (c'.data = [] ↔ c.sectorCount * 512 ≤ asked rs)
    ∧ (∀ r, ∃ bs' c'', Supplies c' r bs' c'')
    ∧ (c'.data = [] → ∀ r bs' c'', Supplies c' r bs' c'' →
      bs' = [] ∧ c'' = { c' with pulled := c''.pulled })

/-- **A READ of the hard disk.** -/
theorem read_delivers {c : Cell} (hdisk : c.disk = true) (hsel : c.dev &&& 0x10#8 = 0#8) {cmd : U8}
    (hcmd : cmd ∈ readCommands) : ∃ c₀, c.readCommand cmd = some c₀ ∧ DeliversImage c c₀ := by
  refine ⟨_, if_pos hcmd, ?_⟩
  intro rs bs c' hrun
  obtain ⟨hs, hr, -⟩ := streaming_start (c := { c with
    pulled := 0#32, error := 0#8, readLba := c.diskLba.toNat
    readLeft := if c.nsect ≠ 0#8 then c.nsect.toNat else 256 }) hdisk hsel
  obtain ⟨hbs, hs', hr'⟩ := delivers_streaming hrun hs
  have hwanted : readImage c.image (c.diskLba.toNat * 512)
      ((if c.nsect ≠ 0#8 then c.nsect.toNat else 256) * 512)
        = readImage c.image (c.addressedSector * 512) (c.sectorCount * 512) := by
    rw [diskLba_toNat, sectorCount]
  rw [hr, hwanted] at hbs hr'
  have hlen := length_readImage c.image (c.addressedSector * 512) (c.sectorCount * 512)
  refine ⟨hbs, ?_, ?_, fun hover r bs' c'' => supplies_over hover hs'.selected⟩
  · rw [hs'.over_iff, hr', List.drop_eq_nil_iff, hlen]
  · rintro (_ | _ | n)
    · exact ⟨_, _, .pio16 c'⟩
    · exact ⟨_, _, .pio32 c'⟩
    · obtain ⟨-, fuel, bs', c'', hdma, -⟩ := exists_takes hs'.disk _
      exact ⟨bs', c'', .dma hdma⟩

/-- A disk of one sector of ones, told to read it. -/
def onesDisk : Cell where
  disk := true
  image := List.replicate 512 0xFF#8
  media := { audioAt := fun _ => false, readBlock := fun _ _ => 0#8 }
  nsect := 1#8
  lba0 := 0#8
  bcLo := 0#8
  bcHi := 0#8
  dev := 0xE0#8
  status := kDrdy
  error := 0#8
  data := []
  dataAt := 0
  readLba := 0
  readLeft := 0
  sense := 0#8
  readsSinceInsert := 0
  pulled := 0#32
  curHeads := 16#8
  curSectors := 63#8
  irq := false
  dmaArmed := false

theorem onesDisk_delivers :
    ∃ c₀, onesDisk.readCommand 0xC8#8 = some c₀ ∧ DeliversImage onesDisk c₀ :=
  read_delivers rfl (by decide) (by decide)

/-- A request for 510 bytes leaves two; a register read of four then pads them. -/
theorem onesDisk_wide_read : ∃ c₀ bs c₁ bs' c₂, onesDisk.readCommand 0xC8#8 = some c₀
    ∧ Supplies c₀ (.dma 510) bs c₁ ∧ Supplies c₁ .pio32 bs' c₂
    ∧ bs ++ bs' ≠ readImage onesDisk.image 0 512 := by
  obtain ⟨c₀, hcmd, hruns⟩ : ∃ c₀, onesDisk.readCommand 0xC8#8 = some c₀ ∧ Streaming c₀
      ∧ c₀.rest = readImage onesDisk.image 0 512 := by
    obtain ⟨hs, hr, -⟩ := streaming_start (c := { onesDisk with
      pulled := 0#32, error := 0#8, readLba := onesDisk.diskLba.toNat
      readLeft := if onesDisk.nsect ≠ 0#8 then onesDisk.nsect.toNat else 256 }) rfl (by decide)
    exact ⟨_, if_pos (by decide), hs, hr⟩
  obtain ⟨hs, hr⟩ := hruns
  obtain ⟨-, fuel, bs, c₁, hdma, -⟩ := exists_takes hs.disk 510
  obtain ⟨hbs, hs₁, hr₁⟩ := dmaTake_streaming fuel hs hdma
  have hlen := length_readImage onesDisk.image 0 512
  have hopen : c₁.data ≠ [] := by
    intro hdata
    have hnone := hs₁.over_iff.mp hdata
    rw [hr₁, hr, List.drop_eq_nil_iff, hlen] at hnone
    omega
  refine ⟨c₀, bs, c₁, _, _, hcmd, .dma hdma, .pio32 c₁, fun heq => ?_⟩
  have hsize := congrArg List.length heq
  rw [if_neg hopen, List.length_append, hbs, hr, List.length_take, hlen, regBytes, List.length_map,
    List.length_range] at hsize
  omega

end Cell

end Ata

end OpenPowerMac
