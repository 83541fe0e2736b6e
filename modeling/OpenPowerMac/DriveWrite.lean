/-
What a WRITE of the hard disk leaves on the image.

The bytes that a command has taken are the sectors that it has committed and the part of a
sector in its buffer (`Receiving`). The data register and the DMA channel both add to them, and
a sector is committed when the buffer is full. A register write puts into the buffer what it
has room for and drops the rest, where the channel goes on with the next sector; and a sector
is committed wherever it is addressed, behind the end of the image as well.
-/
import OpenPowerMac.Deferred

set_option autoImplicit false

namespace OpenPowerMac

namespace Ata

open Cell

namespace Drive

/-! ## The image -/

/-- An image with bytes replaced, as far as it has them. -/
def replaced (image : List U8) (at_ : ℕ) (bs : List U8) : List U8 :=
  image.mapIdx fun i b => if at_ ≤ i then (bs[i - at_]?).getD b else b

theorem length_writeImage {image : List U8} {at_ : ℕ} {bs : List U8} (hbs : bs ≠ []) :
    (writeImage image at_ bs).length = max image.length (at_ + bs.length) := by
  rw [writeImage, if_neg hbs, List.length_append, List.length_append, List.length_take,
    List.length_append, List.length_replicate, List.length_drop]
  omega

/-- A write inside the image. -/
theorem writeImage_inside {image : List U8} {at_ : ℕ} {bs : List U8}
    (hin : at_ + bs.length ≤ image.length) :
    writeImage image at_ bs = image.take at_ ++ bs ++ image.drop (at_ + bs.length) := by
  rw [writeImage]
  split
  · next h =>
      rw [h, List.append_nil, List.length_nil, Nat.add_zero, List.take_append_drop]
  · rw [show at_ - image.length = 0 by omega, List.replicate_zero, List.append_nil]

theorem writeImage_eq_replaced {image : List U8} {at_ : ℕ} {bs : List U8}
    (hin : at_ + bs.length ≤ image.length) : writeImage image at_ bs = replaced image at_ bs := by
  have htake : (image.take at_).length = at_ := by
    rw [List.length_take]
    omega
  rw [writeImage_inside hin, List.append_assoc, replaced]
  refine List.ext_getElem ?_ fun i hi hi' => ?_
  · rw [List.length_mapIdx, List.length_append, List.length_append, htake, List.length_drop]
    omega
  · rw [List.length_mapIdx] at hi'
    rw [List.getElem_mapIdx]
    by_cases hbefore : i < at_
    · rw [List.getElem_append_left (by omega), List.getElem_take, if_neg (by omega)]
    · rw [List.getElem_append_right (by omega), if_pos (by omega)]
      by_cases hafter : i - at_ < bs.length
      · rw [List.getElem_append_left (by omega), List.getElem?_eq_getElem hafter]
        simp only [htake, Option.getD_some]
      · rw [List.getElem_append_right (by omega), List.getElem?_eq_none (by omega), List.getElem_drop]
        simp only [Option.getD_none]
        congr 1
        omega

/-- Two writes, one behind the other. -/
theorem writeImage_append (image : List U8) (at_ : ℕ) (xs ys : List U8) :
    writeImage (writeImage image at_ xs) (at_ + xs.length) ys = writeImage image at_ (xs ++ ys) := by
  by_cases hx : xs = []
  · rw [hx, List.length_nil, Nat.add_zero, List.nil_append]
    rfl
  by_cases hy : ys = []
  · rw [hy, List.append_nil]
    exact if_pos rfl
  have hxy : xs ++ ys ≠ [] := List.append_ne_nil_of_left_ne_nil hx ys
  have hlen : (writeImage image at_ xs).length = max image.length (at_ + xs.length) :=
    length_writeImage hx
  have hfront : ((image ++ List.replicate (at_ - image.length) 0#8).take at_).length = at_ := by
    rw [List.length_take, List.length_append, List.length_replicate]
    omega
  rw [writeImage, if_neg hy, hlen, show at_ + xs.length - max image.length (at_ + xs.length) = 0 by omega,
    List.replicate_zero, List.append_nil, writeImage, if_neg hx, writeImage, if_neg hxy]
  -- the front ends where the second write begins
  have hcut : ((image ++ List.replicate (at_ - image.length) 0#8).take at_ ++ xs).length
      = at_ + xs.length := by
    rw [List.length_append, hfront]
  rw [← hcut, List.take_left', List.drop_append, hcut]
  · rw [List.append_assoc, List.append_assoc, List.append_assoc, List.append_assoc]
    rw [List.drop_eq_nil_of_le (by rw [List.length_append, hfront]; omega), List.nil_append,
      List.drop_drop, List.length_append]
    congr 4
    omega
  · rfl

/-! ## Taking bytes -/

/-- A hard disk: no packet is awaited, and its file is held. -/
structure HardDisk (d : Drive) : Prop where
  disk : d.disk = true
  iso : d.iso = true
  cdbPhase : d.cdbPhase = false

/-- What a command of `count` sectors has taken so far. -/
structure Receiving (base : List U8) (lba count : ℕ) (taken : List U8) (d : Drive) : Prop where
  hardDisk : d.HardDisk
  takes : ∀ n, lba ≤ n → n < lba + count → 512 ≤ d.takes n
  most : taken.length ≤ 512 * count
  wrLba : d.wrLba = lba + taken.length / 512
  wrLeft : d.wrLeft = count - taken.length / 512
  image : d.image = writeImage base (512 * lba) (taken.take (512 * (taken.length / 512)))
  buffer : taken.length < 512 * count → d.data.length = 512 ∧ d.dataAt = taken.length % 512
    ∧ d.data.take d.dataAt = taken.drop (512 * (taken.length / 512))
  drained : taken.length = 512 * count → d.data = []

namespace Receiving

variable {base : List U8} {lba count : ℕ} {taken : List U8} {d : Drive}

/-- The buffer of a command that is not over is there, and has room for the rest of the sector. -/
theorem room_eq (h : Receiving base lba count taken d) (hopen : taken.length < 512 * count) :
    d.data ≠ [] ∧ d.room = 512 - taken.length % 512 := by
  obtain ⟨hlen, hat, -⟩ := h.buffer hopen
  constructor
  · intro hnil
    rw [hnil, List.length_nil] at hlen
    omega
  · rw [room, hlen, hat]

/-- Bytes for which there is room go behind those that are there; the buffer keeps its length. -/
theorem filled (h : Receiving base lba count taken d) (xs : List U8)
    (hopen : taken.length < 512 * count) (hroom : taken.length % 512 + xs.length ≤ 512) :
    (d.fill xs).data.length = 512 ∧ (d.fill xs).dataAt = taken.length % 512 + xs.length
      ∧ (d.fill xs).data.take (d.fill xs).dataAt = taken.drop (512 * (taken.length / 512)) ++ xs := by
  obtain ⟨hlen, hat, hpart⟩ := h.buffer hopen
  have hfront : (d.data.take d.dataAt).length = d.dataAt := by
    rw [List.length_take]
    omega
  change (d.data.take d.dataAt ++ xs ++ d.data.drop (d.dataAt + xs.length)).length = 512
    ∧ d.dataAt + xs.length = _
    ∧ (d.data.take d.dataAt ++ xs ++ d.data.drop (d.dataAt + xs.length)).take (d.dataAt + xs.length) = _
  refine ⟨?_, by rw [hat], ?_⟩
  · rw [List.length_append, List.length_append, hfront, List.length_drop]
    omega
  · rw [List.take_left' (by rw [List.length_append, hfront]), hpart]

/-- Bytes that do not fill the sector. -/
theorem fill (h : Receiving base lba count taken d) {xs : List U8}
    (hopen : taken.length < 512 * count) (hroom : taken.length % 512 + xs.length < 512) :
    Receiving base lba count (taken ++ xs) (d.fill xs) := by
  obtain ⟨hlen, hat, hpart⟩ := h.filled xs hopen hroom.le
  have hq : (taken ++ xs).length / 512 = taken.length / 512 := by
    rw [List.length_append]
    omega
  have hr : (taken ++ xs).length % 512 = taken.length % 512 + xs.length := by
    rw [List.length_append]
    omega
  have hshort : 512 * (taken.length / 512) ≤ taken.length := Nat.mul_div_le _ _
  refine ⟨⟨h.hardDisk.disk, h.hardDisk.iso, h.hardDisk.cdbPhase⟩, h.takes, ?_, ?_, ?_, ?_, ?_, ?_⟩
  · rw [List.length_append]
    omega
  · rw [hq]
    exact h.wrLba
  · rw [hq]
    exact h.wrLeft
  · rw [hq, List.take_append_of_le_length hshort]
    exact h.image
  · intro _
    refine ⟨hlen, by rw [hr, hat], ?_⟩
    rw [hpart, hq, List.drop_append_of_le_length hshort]
  · intro hover
    rw [List.length_append] at hover
    omega

/-- Bytes that fill the sector: it is committed. -/
theorem commit (h : Receiving base lba count taken d) (xs : List U8)
    (hopen : taken.length < 512 * count) (hroom : taken.length % 512 + xs.length = 512) :
    (d.fill xs).commitWriteSector.1 = true
      ∧ Receiving base lba count (taken ++ xs) (d.fill xs).commitWriteSector.2 := by
  obtain ⟨hsize, hat, hpart⟩ := h.filled xs hopen hroom.le
  have hq : (taken ++ xs).length / 512 = taken.length / 512 + 1 := by
    rw [List.length_append]
    omega
  have hr : (taken ++ xs).length = 512 * (taken.length / 512 + 1) := by
    rw [List.length_append]
    omega
  have hdata : (d.fill xs).data = taken.drop (512 * (taken.length / 512)) ++ xs := by
    rw [← hpart, List.take_of_length_le (by omega)]
  -- the sector is inside the disk, so the image takes all of it
  have hwhole : (d.fill xs).data.take ((d.fill xs).takes (d.fill xs).wrLba) = (d.fill xs).data := by
    refine List.take_of_length_le ?_
    have htakes := h.takes (lba + taken.length / 512) (by omega) (by omega)
    rw [hsize]
    show 512 ≤ d.takes d.wrLba
    rw [h.wrLba]
    exact htakes
  have himage : writeImage (d.fill xs).image ((d.fill xs).wrLba * 512) (d.fill xs).data
      = writeImage base (512 * lba) (taken ++ xs) := by
    show writeImage d.image (d.wrLba * 512) (d.fill xs).data = _
    have hdone : (taken.take (512 * (taken.length / 512))).length = 512 * (taken.length / 512) := by
      rw [List.length_take]
      omega
    have happend := writeImage_append base (512 * lba) (taken.take (512 * (taken.length / 512)))
      (taken.drop (512 * (taken.length / 512)) ++ xs)
    rw [hdone, ← List.append_assoc, List.take_append_drop] at happend
    rw [h.image, h.wrLba, hdata, ← happend]
    congr 1
    omega
  have hrun : (d.fill xs).commitWriteSector = (true, { d.fill xs with
      image := writeImage base (512 * lba) (taken ++ xs)
      wrLba := d.wrLba + 1
      wrLeft := d.wrLeft - 1
      dataAt := 0
      status := (if d.wrLeft - 1 ≠ 0 ∧ !d.dmaArmed then kDrq else 0#8) ||| (kDrdy ||| kDsc)
      data := if d.wrLeft - 1 = 0 then [] else (d.fill xs).data
      irq := true }) := by
    unfold commitWriteSector
    dsimp only
    rw [hwhole, if_neg (not_not.mpr rfl), himage]
    rfl
  rw [hrun]
  have hleft := h.wrLeft
  refine ⟨rfl, ⟨h.hardDisk.disk, h.hardDisk.iso, h.hardDisk.cdbPhase⟩, h.takes, ?_, ?_, ?_, ?_, ?_, ?_⟩
  · omega
  · rw [hq]
    show d.wrLba + 1 = _
    rw [h.wrLba]
    omega
  · rw [hq]
    show d.wrLeft - 1 = _
    omega
  · rw [hq, ← hr, List.take_length]
  -- with sectors left the buffer stays the next sector's; after the last it is emptied
  · intro hmore
    have hne : ¬ d.wrLeft - 1 = 0 := by omega
    refine ⟨?_, by rw [hr, Nat.mul_mod_right], ?_⟩
    · show (if d.wrLeft - 1 = 0 then [] else (d.fill xs).data).length = 512
      rw [if_neg hne, hsize]
    · rw [hq, ← hr, List.drop_length]
      exact List.take_zero
  · intro hall
    exact if_pos (show d.wrLeft - 1 = 0 by omega)

/-- **The DMA channel** takes what the command has left. -/
theorem giveLoop (left : ℕ) (h : Receiving base lba count taken d) (hleft : d.wrLeft = left)
    (src : List U8) :
    (giveLoop left d src).1 = min src.length (512 * count - taken.length)
      ∧ Receiving base lba count (taken ++ src.take (512 * count - taken.length)) (giveLoop left d src).2 := by
  have hw := h.wrLeft
  have hmost := h.most
  induction left generalizing d taken src with
  | zero =>
      have hnone : 512 * count - taken.length = 0 := by omega
      rw [hnone, Nat.min_zero, List.take_zero, List.append_nil]
      exact ⟨rfl, h⟩
  | succ left ih =>
      have hopen : taken.length < 512 * count := by omega
      obtain ⟨hdata, hroom⟩ := h.room_eq hopen
      by_cases hsrc : src = []
      · rw [hsrc, Drive.giveLoop, if_pos (.inl rfl), List.take_nil, List.append_nil, List.length_nil,
          Nat.zero_min]
        exact ⟨rfl, h⟩
      rw [Drive.giveLoop, if_neg (by rintro (h | h); exacts [hsrc h, hdata h])]
      dsimp only
      rw [hroom]
      obtain ⟨bs, hbs⟩ : ∃ bs, src.take (512 - taken.length % 512) = bs := ⟨_, rfl⟩
      have hsize : bs.length = min (512 - taken.length % 512) src.length := by rw [← hbs, List.length_take]
      obtain ⟨hfull, hto, -⟩ := h.filled bs hopen (by omega)
      rw [hbs, hfull, hto]
      by_cases hpart : taken.length % 512 + bs.length < 512
      · -- the sector is not full yet
        rw [if_pos hpart]
        have hall : bs = src := by
          rw [← hbs]
          exact List.take_of_length_le (by omega)
        rw [List.take_of_length_le (by omega : src.length ≤ 512 * count - taken.length), ← hall]
        exact ⟨by omega, h.fill hopen hpart⟩
      · rw [if_neg hpart]
        obtain ⟨hwrote, hnext⟩ := h.commit bs hopen (by omega)
        obtain ⟨r, hr⟩ : ∃ r, (d.fill bs).commitWriteSector = r := ⟨_, rfl⟩
        rw [hr] at hwrote hnext ⊢
        rw [if_pos hwrote]
        have hleft' : r.2.wrLeft = left := by
          rw [hnext.wrLeft, List.length_append]
          omega
        obtain ⟨hmoved, hrest⟩ := ih hnext hleft' (src.drop bs.length) hnext.wrLeft hnext.most
        have hsplit : src.take (512 * count - taken.length)
            = bs ++ (src.drop bs.length).take (512 * count - (taken ++ bs).length) := by
          rw [List.length_append, show 512 * count - taken.length
            = bs.length + (512 * count - (taken.length + bs.length)) by omega, List.take_add,
            show src.take bs.length = bs by rw [hsize, ← hbs, List.take_eq_take_iff]; omega]
        rw [hsplit, ← List.append_assoc]
        refine ⟨?_, hrest⟩
        show bs.length + _ = _
        rw [hmoved, List.length_drop, List.length_append]
        omega

/-- What a register write adds: no more than the sector has room for. -/
theorem writeData (h : Receiving base lba count taken d) (v : U32) (len : ℕ) :
    Receiving base lba count
      (if taken.length = 512 * count then taken
        else taken ++ (regBytes len v).take (512 - taken.length % 512)) (d.writeData v len) := by
  have hw := h.wrLeft
  have hmost := h.most
  unfold Drive.writeData
  rw [h.hardDisk.cdbPhase, if_neg Bool.false_ne_true]
  by_cases hover : taken.length = 512 * count
  · rw [if_pos hover, if_neg fun hopen => hopen.2.2 (h.drained hover)]
    exact h
  have hopen : taken.length < 512 * count := by omega
  obtain ⟨hdata, hroom⟩ := h.room_eq hopen
  rw [if_neg hover, if_pos ⟨h.hardDisk.disk, by omega, hdata⟩, hroom]
  dsimp only
  obtain ⟨xs, hxs⟩ : ∃ xs, (regBytes len v).take (512 - taken.length % 512) = xs := ⟨_, rfl⟩
  have hbytes : xs.length = min (512 - taken.length % 512) len := by
    rw [← hxs, List.length_take, regBytes, List.length_map, List.length_range]
  obtain ⟨hfull, hto, -⟩ := h.filled xs hopen (by omega)
  rw [hxs, hfull, hto]
  by_cases hpart : taken.length % 512 + xs.length < 512
  · rw [if_neg (by omega)]
    exact h.fill hopen hpart
  · rw [if_pos (by omega)]
    exact (h.commit xs hopen (by omega)).2

end Receiving

/-! ## A command -/

/-- How a host supplies bytes: a write of the data register, or the DMA channel. -/
inductive Supply where
  | pio16 (v : U32)
  | pio32 (v : U32)
  | dma (bs : List U8)

/-- The bytes that it supplies. -/
def Supply.bytes : Supply → List U8
  | .pio16 v => regBytes 2 v
  | .pio32 v => regBytes 4 v
  | .dma bs => bs

/-- What is supplied. -/
def payload (ss : List Supply) : List U8 := ss.flatMap Supply.bytes

/-- The cell afterwards. -/
def supply (d : Drive) : Supply → Drive
  | .pio16 v => d.write 0x000#32 v 2
  | .pio32 v => d.write 0x000#32 v 4
  | .dma bs => (d.dmaGive bs).2

/-- A run of them. -/
def supplies (d : Drive) (ss : List Supply) : Drive := ss.foldl supply d

/-- No register write goes over the end of a sector, from the `at_`-th byte on. -/
def Narrow : ℕ → List Supply → Prop
  | _, [] => True
  | at_, .dma bs :: ss => Narrow (at_ + bs.length) ss
  | at_, .pio16 _ :: ss => at_ % 512 + 2 ≤ 512 ∧ Narrow (at_ + 2) ss
  | at_, .pio32 _ :: ss => at_ % 512 + 4 ≤ 512 ∧ Narrow (at_ + 4) ss

/-- What a command of `count` sectors has taken after one more supply. -/
def accept (count : ℕ) (taken : List U8) : Supply → List U8
  | .dma bs => taken ++ bs.take (512 * count - taken.length)
  | s =>
      if taken.length = 512 * count then taken
      else taken ++ s.bytes.take (512 - taken.length % 512)

theorem length_regBytes (len : ℕ) (v : U32) : (regBytes len v).length = len := by
  rw [regBytes, List.length_map, List.length_range]

/-- A write of the data register of a hard disk. -/
theorem HardDisk.write_data {d : Drive} (h : d.HardDisk) (v : U32) (len : ℕ) :
    d.write 0x000#32 v len = d.writeData v len := by
  have hpresent : d.present = true := by
    rw [present, h.iso, Bool.or_true, Bool.true_or]
  rw [write, if_neg (by rw [hpresent]; decide), if_neg (by decide), if_neg (by decide)]
  rfl

section Runs

variable {base : List U8} {lba count : ℕ} {taken : List U8} {d : Drive}

theorem receiving_supply (h : Receiving base lba count taken d) (s : Supply) :
    Receiving base lba count (accept count taken s) (d.supply s) := by
  cases s with
  | dma bs => exact (h.giveLoop _ rfl bs).2
  | pio16 v =>
      rw [supply, h.hardDisk.write_data]
      exact h.writeData v 2
  | pio32 v =>
      rw [supply, h.hardDisk.write_data]
      exact h.writeData v 4

theorem receiving_supplies (h : Receiving base lba count taken d) (ss : List Supply) :
    Receiving base lba count (ss.foldl (accept count) taken) (d.supplies ss) := by
  induction ss generalizing taken d with
  | nil => exact h
  | cons s ss ih => exact ih (receiving_supply h s)

/-- A supply takes no more than it brings. -/
theorem length_accept_le (count : ℕ) (taken : List U8) (s : Supply) :
    (accept count taken s).length ≤ taken.length + s.bytes.length := by
  have htake : ∀ n, (taken ++ s.bytes.take n).length ≤ taken.length + s.bytes.length := by
    intro n
    rw [List.length_append, List.length_take]
    omega
  have hreg : (if taken.length = 512 * count then taken
      else taken ++ s.bytes.take (512 - taken.length % 512)).length ≤ taken.length + s.bytes.length := by
    split
    · exact Nat.le_add_right _ _
    · exact htake _
  cases s with
  | dma bs => exact htake _
  | pio16 v => exact hreg
  | pio32 v => exact hreg

/-- Supplies take no more than they bring, and all of it just when they are narrow. -/
def TakesAll (count : ℕ) (taken : List U8) (ss : List Supply) : Prop :=
  (ss.foldl (accept count) taken).length ≤ taken.length + (payload ss).length
    ∧ ((ss.foldl (accept count) taken).length = taken.length + (payload ss).length →
      Narrow taken.length ss)
    ∧ (Narrow taken.length ss → ss.foldl (accept count) taken = taken ++ payload ss)

/-- A register write in front of other supplies. -/
theorem takesAll_reg {s : Supply} {len : ℕ} {ss : List Supply} (hlen : s.bytes.length = len)
    (hpos : 0 < len)
    (hs : accept count taken s = if taken.length = 512 * count then taken
      else taken ++ s.bytes.take (512 - taken.length % 512))
    (hnarrow : ∀ n, Narrow n (s :: ss) ↔ n % 512 + len ≤ 512 ∧ Narrow (n + len) ss)
    (hroom : taken.length + (payload (s :: ss)).length ≤ 512 * count)
    (hrest : TakesAll count (accept count taken s) ss) : TakesAll count taken (s :: ss) := by
  have hcons : payload (s :: ss) = s.bytes ++ payload ss := List.flatMap_cons
  rw [TakesAll, hnarrow, hcons, List.length_append, hlen, List.foldl_cons]
  rw [hcons, List.length_append, hlen] at hroom
  obtain ⟨hle, hback, hforth⟩ := hrest
  rw [if_neg (by omega)] at hs
  have hcut : (accept count taken s).length = taken.length + min (512 - taken.length % 512) len := by
    rw [hs, List.length_append, List.length_take, hlen]
  refine ⟨by omega, fun hall => ?_, ?_⟩
  · have hwhole : (accept count taken s).length = taken.length + len := by omega
    refine ⟨by omega, ?_⟩
    rw [← hwhole]
    exact hback (by omega)
  · rintro ⟨hfits, hmore⟩
    have hwhole : accept count taken s = taken ++ s.bytes := by
      rw [hs, List.take_of_length_le (by omega)]
    rw [hwhole, List.length_append, hlen] at hforth
    rw [hwhole, hforth hmore, List.append_assoc]

/-- **A payload** that the command has room for is taken without a loss if and only if it is
supplied in narrow writes. -/
theorem accepted_spec (count : ℕ) (taken : List U8) (ss : List Supply)
    (hroom : taken.length + (payload ss).length ≤ 512 * count) : TakesAll count taken ss := by
  induction ss generalizing taken with
  | nil => exact ⟨Nat.le_refl _, fun _ => trivial, fun _ => (List.append_nil taken).symm⟩
  | cons s ss ih =>
      have hcons : payload (s :: ss) = s.bytes ++ payload ss := List.flatMap_cons
      have hrest : TakesAll count (accept count taken s) ss := by
        apply ih
        have hle := length_accept_le count taken s
        rw [hcons, List.length_append] at hroom
        omega
      cases s with
      | dma bs =>
          have hbs : (Supply.dma bs).bytes = bs := rfl
          rw [hcons, hbs, List.length_append] at hroom
          have hacc : accept count taken (.dma bs) = taken ++ bs := by
            rw [accept, List.take_of_length_le (by omega)]
          rw [hacc] at hrest
          obtain ⟨hle, hback, hforth⟩ := hrest
          rw [List.length_append] at hle hback hforth
          rw [TakesAll, hcons, hbs, List.length_append, List.foldl_cons, hacc]
          refine ⟨by omega, fun h => hback (by omega), fun h => ?_⟩
          rw [hforth h, List.append_assoc]
      | pio16 v => exact takesAll_reg (length_regBytes 2 v) (by decide) rfl (fun _ => Iff.rfl) hroom hrest
      | pio32 v => exact takesAll_reg (length_regBytes 4 v) (by decide) rfl (fun _ => Iff.rfl) hroom hrest

end Runs

theorem one_le_sectorCount (d : Drive) : 1 ≤ d.sectorCount := by
  have hne : d.nsect ≠ 0#8 → d.nsect.toNat ≠ 0 := fun h h' => h (BitVec.eq_of_toNat_eq h')
  unfold sectorCount
  split
  · next h => exact Nat.one_le_iff_ne_zero.mpr (hne h)
  · decide

/-- A WRITE command opens the buffer. -/
theorem receiving_write {d : Drive} (h : d.HardDisk) {cmd : U8} (hcmd : cmd ∈ writeCommands)
    (hhost : ∀ n, d.addressedSector ≤ n → n < d.addressedSector + d.sectorCount → 512 ≤ d.takes n) :
    Receiving d.image d.addressedSector d.sectorCount [] (d.ataCommand cmd) := by
  have hrun : d.ataCommand cmd = { d with pulled := 0#32, error := 0#8 }.startWrite := by
    unfold ataCommand
    rw [if_pos h.disk]
    simp only [writeCommands, List.mem_cons, List.not_mem_nil, or_false] at hcmd
    rcases hcmd with rfl | rfl | rfl | rfl | rfl <;> rfl
  rw [hrun]
  have hcount := one_le_sectorCount d
  refine ⟨⟨h.disk, h.iso, h.cdbPhase⟩, hhost, Nat.zero_le _, ?_, rfl, rfl, fun _ => ?_, fun h => ?_⟩
  · exact diskLba_toNat d.toCell
  · exact ⟨List.length_replicate, rfl, List.take_zero⟩
  · rw [List.length_nil] at h
    omega

/-- What a command leaves on the image, and that it takes no more, where the whole of its payload
has been supplied. -/
def Writes (d d' : Drive) (bs : List U8) : Prop :=
  d'.wrLeft = 0 ∧ d'.image = replaced d.image (512 * d.addressedSector) bs
    ∧ d'.image.length = d.image.length
    ∧ (∀ v len, d'.write 0x000#32 v len = d') ∧ ∀ bs', d'.dmaGive bs' = (0, d')

/-- **A WRITE of the hard disk** replaces the addressed sectors and nothing else if and only if
all of them exist on the drive and no register write goes over the end of a sector. -/
theorem writes_iff {d : Drive} (h : d.HardDisk) (himage : d.image.length = 512 * d.diskSectors)
    (hhost : ∀ n, d.addressedSector ≤ n → n < d.addressedSector + d.sectorCount → 512 ≤ d.takes n)
    {cmd : U8} (hcmd : cmd ∈ writeCommands) {ss : List Supply}
    (hpayload : (payload ss).length = 512 * d.sectorCount) :
    Writes d ((d.ataCommand cmd).supplies ss) (payload ss)
      ↔ d.addressedSector + d.sectorCount ≤ d.diskSectors ∧ Narrow 0 ss := by
  have hcount := one_le_sectorCount d
  have hrun := receiving_supplies (receiving_write h hcmd hhost) ss
  obtain ⟨d', hd'⟩ : ∃ d', (d.ataCommand cmd).supplies ss = d' := ⟨_, rfl⟩
  obtain ⟨hle, hback, hforth⟩ := accepted_spec d.sectorCount [] ss
    (by rw [List.length_nil]; omega)
  rw [List.length_nil, Nat.zero_add] at hle hback
  rw [List.nil_append] at hforth
  rw [hd'] at hrun ⊢
  obtain ⟨taken, htaken⟩ : ∃ t, ss.foldl (accept d.sectorCount) [] = t := ⟨_, rfl⟩
  rw [htaken] at hle hback hforth hrun
  have hleft := hrun.wrLeft
  have hmost := hrun.most
  -- all of the payload has been taken just when the command is over
  have hwhole : taken.length = 512 * d.sectorCount → d'.image
      = writeImage d.image (512 * d.addressedSector) taken := by
    intro hall
    rw [hrun.image, hall, Nat.mul_div_cancel_left _ (by decide), ← hall, List.take_length]
  constructor
  · rintro ⟨hover, -, hsize, -⟩
    have hall : taken.length = 512 * d.sectorCount := by omega
    have hnarrow := hback (hall.trans hpayload.symm)
    have hne : taken ≠ [] := by
      intro hnil
      rw [hnil, List.length_nil] at hall
      omega
    rw [hwhole hall, length_writeImage hne, hall, himage] at hsize
    exact ⟨by omega, hnarrow⟩
  · rintro ⟨hexist, hnarrow⟩
    have hpay := hforth hnarrow
    have hall : taken.length = 512 * d.sectorCount := by rw [hpay, hpayload]
    have hover : d'.wrLeft = 0 := by omega
    have hin : 512 * d.addressedSector + taken.length ≤ d.image.length := by omega
    have hreplaced : d'.image = replaced d.image (512 * d.addressedSector) (payload ss) := by
      rw [hwhole hall, writeImage_eq_replaced hin, hpay]
    refine ⟨hover, hreplaced, ?_, ?_, ?_⟩
    · rw [hreplaced, replaced, List.length_mapIdx]
    · intro v len
      rw [hrun.hardDisk.write_data, Drive.writeData, hrun.hardDisk.cdbPhase, if_neg Bool.false_ne_true,
        if_neg fun hopen => hopen.2.1 hover]
    · intro bs'
      rw [dmaGive, hover]
      rfl

/-! ## Every hard disk -/

namespace HardDisk

variable {d : Drive}

/-- What changes none of the three. -/
theorem of_eq (h : d.HardDisk) {d' : Drive} (hdisk : d'.disk = d.disk) (hiso : d'.iso = d.iso)
    (hphase : d'.cdbPhase = d.cdbPhase) : d'.HardDisk :=
  ⟨hdisk.trans h.disk, hiso.trans h.iso, hphase.trans h.cdbPhase⟩

theorem ite {p : Prop} [Decidable p] {a b : Drive} (ha : a.HardDisk) (hb : b.HardDisk) :
    (if p then a else b).HardDisk := by
  split
  · exact ha
  · exact hb

theorem finishPio_disk (c : Cell) (chunkDrained : Bool) (h : c.disk = true) :
    (c.finishPio chunkDrained).disk = true := by
  rw [Cell.finishPio, if_pos h, Cell.diskStartRead]
  split <;> exact h

theorem dmaTake_disk (fuel n : ℕ) {c c' : Cell} {bs : List U8} (h : c.disk = true)
    (hrun : Cell.dmaTake fuel c n = some (bs, c')) : c'.disk = true := by
  induction fuel generalizing c n bs with
  | zero =>
      rcases n with _ | n
      · rw [Cell.dmaTake, Option.some.injEq, Prod.mk.injEq] at hrun
        exact hrun.2 ▸ h
      · cases hrun
  | succ fuel ih =>
      rcases n with _ | n
      · rw [Cell.dmaTake, Option.some.injEq, Prod.mk.injEq] at hrun
        exact hrun.2 ▸ h
      rw [dmaTake_succ] at hrun
      have hdrain : (c.drain (n + 1)).2.disk = true := h
      split_ifs at hrun
      · rw [Option.some.inj hrun] at hdrain
        exact hdrain
      · exact (Prod.mk.inj (Option.some.inj hrun)).2 ▸ finishPio_disk _ true hdrain
      · obtain ⟨⟨bs', c₁⟩, hr, hout⟩ := Option.map_eq_some_iff.mp hrun
        obtain ⟨-, rfl⟩ := Prod.mk.inj hout
        exact ih _ (finishPio_disk _ true hdrain) hr

theorem commitWriteSector (h : d.HardDisk) : d.commitWriteSector.2.HardDisk := by
  unfold Drive.commitWriteSector
  dsimp only
  split <;> exact h.of_eq rfl rfl rfl

theorem giveLoop (left : ℕ) (h : d.HardDisk) (src : List U8) : (Drive.giveLoop left d src).2.HardDisk := by
  induction left generalizing d src with
  | zero => exact h
  | succ left ih =>
      rw [Drive.giveLoop]
      have hfill : (d.fill (src.take d.room)).HardDisk := h.of_eq rfl rfl rfl
      dsimp only
      split_ifs
      · exact h
      · exact hfill
      · exact ih hfill.commitWriteSector _
      · exact hfill.commitWriteSector

theorem ataCommand (h : d.HardDisk) (cmd : U8) : (d.ataCommand cmd).HardDisk := by
  unfold Drive.ataCommand
  rw [if_pos h.disk]
  have hread : ∀ e : Drive, e.HardDisk → e.diskStartRead.HardDisk := by
    intro e he
    refine he.of_eq ?_ rfl rfl
    show e.toCell.diskStartRead.disk = e.disk
    rw [Cell.diskStartRead]
    split <;> rfl
  unfold diskCommand
  exact ite (h.of_eq rfl rfl rfl) <| ite (hread _ (h.of_eq rfl rfl rfl)) <|
    ite (h.of_eq rfl rfl rfl) <| ite (h.of_eq rfl rfl rfl) <| ite (h.of_eq rfl rfl rfl) <|
    ite (h.of_eq rfl rfl rfl) <| ite (h.of_eq rfl rfl rfl) <|
    ite (h.of_eq rfl rfl rfl) (h.of_eq rfl rfl rfl)

theorem writeData (h : d.HardDisk) (v : U32) (len : ℕ) : (d.writeData v len).HardDisk := by
  unfold Drive.writeData
  rw [h.cdbPhase, if_neg Bool.false_ne_true]
  have hfill : (d.fill ((regBytes len v).take d.room)).HardDisk := h.of_eq rfl rfl rfl
  exact ite (ite hfill.commitWriteSector hfill) h

theorem writeReg (h : d.HardDisk) (reg v : U32) (len : ℕ) : (d.writeReg reg v len).HardDisk := by
  unfold Drive.writeReg
  dsimp only
  split
  · exact h.writeData v len
  · exact h.of_eq rfl rfl rfl
  · exact h.of_eq rfl rfl rfl
  · exact h.of_eq rfl rfl rfl
  · exact h.of_eq rfl rfl rfl
  · exact h.of_eq rfl rfl rfl
  · exact h.of_eq rfl rfl rfl
  · -- a command: at once, or held
    unfold writeCommand
    refine ite (h.of_eq rfl rfl rfl) ?_
    split
    · refine ataCommand ?_ _
      exact h.of_eq rfl rfl rfl
    · exact h.of_eq rfl rfl rfl
  · unfold writeDevctl
    exact ite (h.of_eq rfl rfl rfl) (h.of_eq rfl rfl rfl)
  · exact h

theorem write (h : d.HardDisk) (off v : U32) (len : ℕ) : (d.write off v len).HardDisk := by
  unfold Drive.write
  exact ite h <| ite (ite (h.of_eq rfl rfl rfl) h) <| ite (h.of_eq rfl rfl rfl) (h.writeReg _ v len)

theorem read (h : d.HardDisk) (off : U32) (len : ℕ) : (d.read off len).2.HardDisk := by
  have hdata : (d.toCell.readData len).2.disk = true := by
    rw [readData]
    split
    · exact h.disk
    · dsimp only
      split
      · exact finishPio_disk _ true h.disk
      · exact h.disk
  unfold Drive.read
  split_ifs
  · exact h
  · exact h
  · exact h
  · exact h
  · split
    · exact ⟨hdata, h.iso, h.cdbPhase⟩
    all_goals first | exact h | exact h.of_eq rfl rfl rfl

theorem tick (h : d.HardDisk) (files : Path → Option Medium) : (d.tick files).2.HardDisk := by
  have hswap : (d.swapStaged files).HardDisk := by
    unfold swapStaged
    split
    · exact h
    · refine ite ?_ h
      unfold hostInsert
      rw [if_pos h.disk]
      exact h.of_eq rfl rfl rfl
  unfold Drive.tick
  dsimp only
  split
  · exact hswap
  · refine ataCommand ?_ _
    exact hswap.of_eq rfl rfl rfl

/-- **A hard disk stays one**, whatever happens to its cell. -/
theorem step (h : d.HardDisk) {d' : Drive} {e : Event} {n : Deferral.Note (U8 × TaskFile) U64}
    (hstep : d.step e = some (n, d')) : d'.HardDisk := by
  cases e with
  | write off v len =>
      obtain ⟨-, rfl⟩ := Prod.mk.inj (Option.some.inj hstep)
      exact h.write off v len
  | read off len =>
      obtain ⟨-, rfl⟩ := Prod.mk.inj (Option.some.inj hstep)
      exact h.read off len
  | dmaTake fuel n =>
      obtain ⟨r, hr, hn⟩ := Option.map_eq_some_iff.mp hstep
      obtain ⟨-, rfl⟩ := Prod.mk.inj hn
      obtain ⟨r', hr', rfl⟩ := Option.map_eq_some_iff.mp hr
      exact ⟨dmaTake_disk fuel n h.disk hr', h.iso, h.cdbPhase⟩
  | dmaGive src =>
      obtain ⟨-, rfl⟩ := Prod.mk.inj (Option.some.inj hstep)
      exact h.giveLoop _ src
  | setDmaArmed a =>
      obtain ⟨-, rfl⟩ := Prod.mk.inj (Option.some.inj hstep)
      exact h.of_eq rfl rfl rfl
  | setDmaIrq a =>
      obtain ⟨-, rfl⟩ := Prod.mk.inj (Option.some.inj hstep)
      exact ite (h.of_eq rfl rfl rfl) h
  | time tb =>
      obtain ⟨-, rfl⟩ := Prod.mk.inj (Option.some.inj hstep)
      exact h.of_eq rfl rfl rfl
  | tick files =>
      obtain ⟨-, rfl⟩ := Prod.mk.inj (Option.some.inj hstep)
      exact h.tick files
  | hostEject =>
      obtain ⟨-, rfl⟩ := Prod.mk.inj (Option.some.inj hstep)
      rw [Drive.hostEject, if_pos (.inl h.disk)]
      exact h
  | hostInsert found =>
      obtain ⟨-, rfl⟩ := Prod.mk.inj (Option.some.inj hstep)
      unfold Drive.hostInsert
      rw [if_pos h.disk]
      exact h
  | hostSwap files path =>
      obtain ⟨-, rfl⟩ := Prod.mk.inj (Option.some.inj hstep)
      rw [Drive.hostSwap, if_pos h.disk]
      exact h
  | hostStage files path =>
      obtain ⟨-, rfl⟩ := Prod.mk.inj (Option.some.inj hstep)
      rw [Drive.hostStage, if_pos h.disk]
      exact h

end HardDisk

/-- The cell after a run of events, if each of them returns. -/
def run (d : Drive) (es : List Event) : Option Drive := es.foldlM (fun d e => (d.step e).map Prod.snd) d

/-- Every state that a cell made by `attachDisk` comes to is a hard disk. -/
theorem hardDisk_run (image : List U8) (takes : ℕ → ℕ) (tb : Option U64) {es : List Event} {d' : Drive}
    (hrun : (attachDisk image takes tb).run es = some d') : d'.HardDisk := by
  have hkeeps : ∀ (es : List Event) (d : Drive), d.HardDisk → d.run es = some d' → d'.HardDisk := by
    intro es
    induction es with
    | nil => exact fun d h hd => Option.some.inj hd ▸ h
    | cons e es ih =>
        intro d h hd
        rw [run, List.foldlM_cons] at hd
        obtain ⟨d₁, hstep, hrest⟩ := Option.bind_eq_some_iff.mp hd
        obtain ⟨r, hr, rfl⟩ := Option.map_eq_some_iff.mp hstep
        exact ih r.2 (h.step hr) hrest
  exact hkeeps es _ ⟨rfl, rfl, rfl⟩ hrun

/-- A disk of four sectors that is told to write its middle two. -/
def fourSectors : Drive :=
  { attachDisk (List.replicate 2048 0#8) (fun _ => 512) none with
    nsect := 2#8, lba0 := 1#8, dev := 0xE0#8 }

/-- Over the sector's end by DMA, two register writes, and the rest by DMA. -/
def mixedSupply : List Supply :=
  [.dma (List.replicate 700 0xAA#8), .pio16 0x1234#32, .pio32 0x12345678#32,
    .dma (List.replicate 318 0x55#8)]

theorem fourSectors_size :
    fourSectors.image.length = 2048 ∧ fourSectors.diskSectors = 4 := by
  have hsectors : ∀ image takes tb, (attachDisk image takes tb).diskSectors = image.length / 512 :=
    fun _ _ _ => rfl
  refine ⟨List.length_replicate, (hsectors _ (fun _ => 512) none).trans ?_⟩
  rw [List.length_replicate]

theorem length_mixedSupply : (payload mixedSupply).length = 1024 := by
  simp only [payload, mixedSupply, List.flatMap_cons, List.flatMap_nil, Supply.bytes,
    List.length_append, List.length_replicate, List.length_nil]
  decide

theorem fourSectors_writes :
    Writes fourSectors ((fourSectors.ataCommand 0xCA#8).supplies mixedSupply)
      (payload mixedSupply) := by
  obtain ⟨himage, hsectors⟩ := fourSectors_size
  have hnarrow : Narrow 0 mixedSupply := by
    simp only [mixedSupply, Narrow, List.length_replicate]
    decide
  have hinside : fourSectors.addressedSector + fourSectors.sectorCount
      ≤ fourSectors.diskSectors := by
    rw [hsectors]
    decide
  exact (writes_iff ⟨rfl, rfl, rfl⟩ (by rw [himage, hsectors]) (fun _ _ _ => Nat.le_refl 512)
    (by decide) length_mixedSupply).mpr ⟨hinside, hnarrow⟩

/-- A disk of one sector that is told to write a sector. -/
def oneSector (lba : U8) : Drive :=
  { attachDisk (List.replicate 512 0#8) (fun _ => 512) none with nsect := 1#8, lba0 := lba, dev := 0xE0#8 }

theorem oneSector_size (lba : U8) :
    (oneSector lba).image.length = 512 ∧ (oneSector lba).diskSectors = 1 := by
  have hsectors : ∀ image takes tb, (attachDisk image takes tb).diskSectors = image.length / 512 :=
    fun _ _ _ => rfl
  refine ⟨List.length_replicate, (hsectors _ (fun _ => 512) none).trans ?_⟩
  rw [List.length_replicate]

/-- A sector of a payload, over the DMA channel. -/
def oneSupply : List Supply := [.dma (List.replicate 512 0xAA#8)]

theorem length_oneSupply : (payload oneSupply).length = 512 := by
  show (List.replicate 512 0xAA#8 ++ []).length = 512
  rw [List.append_nil, List.length_replicate]

/-- The sector behind the end: the image grows. -/
theorem oneSector_grows :
    (((oneSector 1#8).ataCommand 0xCA#8).supplies oneSupply).image.length
      ≠ (oneSector 1#8).image.length := by
  have hdisk : (oneSector 1#8).HardDisk := ⟨rfl, rfl, rfl⟩
  have hcmd : 0xCA#8 ∈ writeCommands := by decide
  have hrun := receiving_supplies (receiving_write hdisk hcmd fun _ _ _ => Nat.le_refl 512) oneSupply
  obtain ⟨-, -, hforth⟩ := accepted_spec 1 [] oneSupply
    (by rw [length_oneSupply]; decide)
  have htaken := hforth trivial
  rw [show (oneSector 1#8).sectorCount = 1 from rfl, htaken, List.nil_append] at hrun
  have hne : payload oneSupply ≠ [] := by
    intro hnil
    have hlen := length_oneSupply
    rw [hnil] at hlen
    cases hlen
  have himage := hrun.image
  rw [length_oneSupply, Nat.div_self (by decide), Nat.mul_one,
    List.take_of_length_le (Nat.le_of_eq length_oneSupply)] at himage
  rw [himage, length_writeImage hne, length_oneSupply, (oneSector_size 1#8).1]
  decide

end Drive

end Ata

end OpenPowerMac
