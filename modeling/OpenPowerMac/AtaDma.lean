/-
When `dmaTake` stops, and with how much.

`ahead` is what the cell has on the way to the host, whichever command put it there: what is
left of the buffer and the sectors that are still to come, up to the first audio sector where
the drive is a packet drive. A hard disk empties the buffer when nothing is ahead, and the loop
looks for that. A packet drive does not: its buffer stays, drained, and the loop asks again
(`dmaTake_none`).
-/
import OpenPowerMac.Ata

set_option autoImplicit false

namespace OpenPowerMac

namespace Ata

open Cell

/-! ## Sectors in front of the audio -/

/-- How many of the next sectors come before an audio sector. -/
def audioFree (audioAt : ℕ → Bool) : ℕ → ℕ → ℕ
  | _, 0 => 0
  | lba, n + 1 => if audioAt lba then 0 else audioFree audioAt (lba + 1) n + 1

variable {audioAt : ℕ → Bool}

theorem audioFree_split {s : ℕ} : ∀ (lba : ℕ) {n : ℕ}, s ≤ n → (∀ j < s, audioAt (lba + j) = false) →
    audioFree audioAt lba n = s + audioFree audioAt (lba + s) (n - s) := by
  induction s with
  | zero =>
      intro lba n _ _
      rw [Nat.zero_add, Nat.add_zero, Nat.sub_zero]
  | succ s ih =>
      intro lba n hn hfree
      obtain ⟨n, rfl⟩ : ∃ m, n = m + 1 := ⟨n - 1, by omega⟩
      have hfirst : audioAt lba = false := hfree 0 (by omega)
      have hrest := ih (lba + 1) (n := n) (by omega) fun j hj => by
        rw [Nat.add_assoc, Nat.add_comm 1 j]
        exact hfree (j + 1) (by omega)
      rw [audioFree, if_neg (by rw [hfirst]; exact Bool.false_ne_true), hrest,
        show lba + 1 + s = lba + (s + 1) by omega, show n + 1 - (s + 1) = n - s by omega]
      omega

theorem clampAudio_spec (audioAt : ℕ → Bool) (lba n : ℕ) : ∀ k : ℕ, k ≤ clampAudio audioAt lba n k
    ∧ clampAudio audioAt lba n k ≤ k + n
    ∧ ∀ j, k ≤ j → j < clampAudio audioAt lba n k → audioAt (lba + j) = false := by
  induction n with
  | zero => exact fun k => ⟨Nat.le_refl k, Nat.le_refl k, fun j hk hj => absurd hj (by rw [clampAudio]; omega)⟩
  | succ n ih =>
      intro k
      rw [clampAudio]
      by_cases haudio : audioAt (lba + k) = true
      · rw [if_pos haudio]
        exact ⟨Nat.le_refl k, Nat.le_add_right k _, fun j hk hj => absurd hj (by omega)⟩
      · rw [if_neg haudio]
        obtain ⟨hge, hle, hfree⟩ := ih (k + 1)
        refine ⟨by omega, by omega, fun j hk hj => ?_⟩
        rcases Nat.eq_or_lt_of_le hk with rfl | hlt
        · exact Bool.not_eq_true _ ▸ haudio
        · exact hfree j hlt hj

/-! ## What is ahead -/

namespace Cell

variable {c : Cell}

def unread (c : Cell) : ℕ := c.data.length - c.dataAt

/-- The rest of the buffer, and the sectors behind it. -/
def ahead (c : Cell) : ℕ :=
  c.unread
    + if c.disk then 512 * c.readLeft else 2048 * audioFree c.media.audioAt c.readLba c.readLeft

theorem length_readImage (image : List U8) (at_ n : ℕ) : (readImage image at_ n).length = n := by
  rw [readImage, List.length_append, List.length_replicate, List.length_take]
  omega

theorem chunkSectors_bounds (hleft : c.readLeft ≠ 0) : 1 ≤ c.chunkSectors ∧ c.chunkSectors ≤ c.readLeft := by
  have hpos : ∀ m : ℕ, 1 ≤ (if m = 0 then 1 else m) := by
    intro m
    split <;> omega
  have hmin : ∀ m : ℕ, 1 ≤ m → 1 ≤ (if c.readLeft < m then c.readLeft else m)
      ∧ (if c.readLeft < m then c.readLeft else m) ≤ c.readLeft := by
    intro m hm
    split <;> omega
  exact hmin _ (hpos _)

theorem length_blocks (m : Disc) (lba n : ℕ) :
    ((List.range n).map fun k => List.ofFn (m.readBlock (lba + k))).flatten.length = 2048 * n := by
  have hblocks : ∀ len ∈ ((List.range n).map fun k =>
      List.ofFn (m.readBlock (lba + k))).map List.length, len = 2048 := by
    intro len hlen
    obtain ⟨b, hb, rfl⟩ := List.mem_map.mp hlen
    obtain ⟨k, -, rfl⟩ := List.mem_map.mp hb
    exact List.length_ofFn
  rw [List.length_flatten, List.eq_replicate_of_mem hblocks, List.sum_replicate_nat,
    List.length_map, List.length_map, List.length_range, Nat.mul_comm]

/-- The next chunk is staged: whole sectors in front of the audio, which are what is taken off the
rest of the read. -/
theorem finishPio_staged (hdisk : c.disk = false) (hleft : c.readLeft ≠ 0)
    (haudio : ¬ c.media.audioAt c.readLba = true) :
    (c.finishPio true).disk = false ∧ (c.finishPio true).data ≠ []
      ∧ (c.finishPio true).ahead = 2048 * audioFree c.media.audioAt c.readLba c.readLeft
      ∧ (c.finishPio true).readLeft < c.readLeft := by
  obtain ⟨hone, hmost⟩ := chunkSectors_bounds hleft
  obtain ⟨sectors, hsectors⟩ : ∃ s, s = clampAudio c.media.audioAt c.readLba (c.chunkSectors - 1) 1 :=
    ⟨_, rfl⟩
  obtain ⟨hge, hle, hfree⟩ := clampAudio_spec c.media.audioAt c.readLba (c.chunkSectors - 1) 1
  rw [← hsectors] at hge hle hfree
  have hclear : ∀ j < sectors, c.media.audioAt (c.readLba + j) = false := by
    intro j hj
    rcases Nat.eq_zero_or_pos j with rfl | hpos
    · exact Bool.not_eq_true _ ▸ haudio
    · exact hfree j hpos hj
  have hsplit := audioFree_split c.readLba (show sectors ≤ c.readLeft by omega) hclear
  have hlen := length_blocks c.media c.readLba sectors
  obtain ⟨data, hdata⟩ : ∃ data, data = ((List.range sectors).map fun k =>
    List.ofFn (c.media.readBlock (c.readLba + k))).flatten := ⟨_, rfl⟩
  have hrun : c.finishPio true = { c with
      data := data, dataAt := 0, readsSinceInsert := c.readsSinceInsert + sectors
      readLba := c.readLba + sectors, readLeft := c.readLeft - sectors
      bcLo := BitVec.ofNat 8 (sectors * 2048), bcHi := BitVec.ofNat 8 ((sectors * 2048) >>> 8)
      nsect := kIo, status := kDrq ||| kDrdy, irq := true } := by
    rw [finishPio, if_neg (by rw [hdisk]; exact Bool.false_ne_true), if_neg (fun h => hleft h.2),
      if_neg hleft, if_neg haudio, ← hsectors, hdata]
  rw [← hdata] at hlen
  rw [hrun]
  refine ⟨hdisk, ?_, ?_, show c.readLeft - sectors < c.readLeft by omega⟩
  · show data ≠ []
    rintro rfl
    rw [List.length_nil] at hlen
    omega
  · rw [hsplit, ahead, unread]
    show data.length - 0 + (if c.disk then 512 * (c.readLeft - sectors) else
      2048 * audioFree c.media.audioAt (c.readLba + sectors) (c.readLeft - sectors)) = _
    rw [hlen, hdisk, if_neg Bool.false_ne_true]
    omega

/-- A drained chunk of a packet drive: the buffer is not emptied, and what comes next is
what was ahead. -/
theorem finishPio_packet (hdisk : c.disk = false) (hdrained : c.unread = 0) :
    (c.finishPio true).disk = false ∧ (c.data ≠ [] → (c.finishPio true).data ≠ [])
      ∧ (c.finishPio true).ahead = c.ahead
      ∧ (c.ahead ≠ 0 → (c.finishPio true).readLeft < c.readLeft) := by
  have hahead : c.ahead = 2048 * audioFree c.media.audioAt c.readLba c.readLeft := by
    rw [ahead, hdrained, Nat.zero_add, hdisk, if_neg Bool.false_ne_true]
  by_cases hleft : c.readLeft = 0
  · -- a fixed reply, or the last chunk of a read
    have hrun : c.finishPio true = { c with nsect := kIo ||| kCoD, status := kDrdy, irq := true } := by
      rw [finishPio, if_neg (by rw [hdisk]; exact Bool.false_ne_true), if_pos ⟨rfl, hleft⟩]
    rw [hrun]
    refine ⟨hdisk, id, rfl, fun hne => absurd ?_ hne⟩
    rw [hahead, hleft, audioFree]
  by_cases haudio : c.media.audioAt c.readLba = true
  · -- the read has come to an audio track
    have hzero : audioFree c.media.audioAt c.readLba c.readLeft = 0 := by
      obtain ⟨n, hn⟩ := Nat.exists_eq_succ_of_ne_zero hleft
      rw [hn, audioFree, if_pos haudio]
    have hrun : c.finishPio true = { c with
        readLeft := 0, sense := 0x05#8, error := 0x04#8 ||| (0x05#8 <<< 4), nsect := kIo ||| kCoD
        status := kDrdy ||| kErr, irq := true } := by
      rw [finishPio, if_neg (by rw [hdisk]; exact Bool.false_ne_true), if_neg (fun h => hleft h.2),
        if_neg hleft, if_pos haudio]
    rw [hrun]
    refine ⟨hdisk, id, ?_, fun hne => absurd (by rw [hahead, hzero]) hne⟩
    rw [hahead, hzero, ahead]
    show c.unread + (if c.disk then 512 * 0 else 2048 * audioFree c.media.audioAt c.readLba 0) = 0
    rw [hdrained, hdisk, if_neg Bool.false_ne_true, audioFree]
  · obtain ⟨hdisk', hdata, hnext, hless⟩ := finishPio_staged hdisk hleft haudio
    exact ⟨hdisk', fun _ => hdata, hnext.trans hahead.symm, fun _ => hless⟩

/-- A drained sector of a hard disk. -/
theorem finishPio_disk (hdisk : c.disk = true) :
    (c.readLeft = 0 → (c.finishPio true).data = [])
      ∧ (c.readLeft ≠ 0 → (c.finishPio true).disk = true
        ∧ (c.finishPio true).readLeft + 1 = c.readLeft ∧ (c.finishPio true).unread = 512) := by
  have hrun : c.finishPio true = c.diskStartRead := by rw [finishPio, if_pos hdisk]
  rw [hrun]
  refine ⟨fun hleft => ?_, fun hleft => ?_⟩
  · rw [diskStartRead, if_pos hleft]
  · rw [diskStartRead, if_neg hleft]
    refine ⟨hdisk, show c.readLeft - 1 + 1 = c.readLeft by omega, ?_⟩
    show (readImage c.image (c.readLba * 512) 512).length - 0 = 512
    rw [length_readImage]

/-- A drained chunk is replaced by what was ahead. -/
theorem ahead_finishPio (hdrained : c.unread = 0) : (c.finishPio true).ahead = c.ahead := by
  by_cases hdisk : c.disk = true
  · have hahead : c.ahead = 512 * c.readLeft := by
      rw [ahead, hdrained, if_pos hdisk, Nat.zero_add]
    by_cases hleft : c.readLeft = 0
    · have hrun : c.finishPio true = c.diskStartRead := by rw [finishPio, if_pos hdisk]
      rw [hahead, hrun, diskStartRead, if_pos hleft, ahead, if_pos hdisk]
      exact Nat.zero_add _
    · obtain ⟨hdisk', hleft', hunread⟩ := (finishPio_disk hdisk).2 hleft
      rw [hahead, ahead, if_pos hdisk', hunread]
      omega
  · exact (finishPio_packet (Bool.not_eq_true _ ▸ hdisk) hdrained).2.2.1

/-! ## The loop -/

/-- One turn of the loop: what the buffer has, and what the buffer is then. -/
def drain (c : Cell) (n : ℕ) : List U8 × Cell :=
  let bs := (c.data.drop c.dataAt).take n
  (bs, { c with dataAt := c.dataAt + bs.length })

theorem length_drain (n : ℕ) : (c.drain n).1.length = min n c.unread := by
  rw [drain, List.length_take, List.length_drop, unread]

theorem unread_drain (n : ℕ) : (c.drain n).2.unread = c.unread - n := by
  have hlen := length_drain (c := c) n
  have hdef : c.unread = c.data.length - c.dataAt := rfl
  show c.data.length - (c.dataAt + (c.drain n).1.length) = _
  omega

theorem ahead_drain (n : ℕ) : (c.drain n).2.ahead = c.ahead - min n c.unread := by
  have h := unread_drain (c := c) n
  rw [ahead, ahead, h]
  show c.unread - n + (if c.disk then 512 * c.readLeft else
    2048 * audioFree c.media.audioAt c.readLba c.readLeft) = _
  omega

theorem dmaTake_succ (fuel n : ℕ) : dmaTake (fuel + 1) c (n + 1)
    = if (c.drain (n + 1)).2.unread ≠ 0 ∨ c.data = [] then some (c.drain (n + 1))
      else if ((c.drain (n + 1)).2.finishPio true).data = [] then
        some ((c.drain (n + 1)).1, (c.drain (n + 1)).2.finishPio true)
      else (dmaTake fuel ((c.drain (n + 1)).2.finishPio true)
        (n + 1 - (c.drain (n + 1)).1.length)).map
          fun p => ((c.drain (n + 1)).1 ++ p.1, p.2) := by
  have hopen : ((c.drain (n + 1)).2.dataAt < (c.drain (n + 1)).2.data.length
      ∨ (c.drain (n + 1)).2.data = []) ↔ ((c.drain (n + 1)).2.unread ≠ 0 ∨ c.data = []) := by
    refine or_congr ?_ Iff.rfl
    rw [unread]
    omega
  show (if (c.drain (n + 1)).2.dataAt < (c.drain (n + 1)).2.data.length
      ∨ (c.drain (n + 1)).2.data = [] then some (c.drain (n + 1))
    else if ((c.drain (n + 1)).2.finishPio true).data = [] then
      some ((c.drain (n + 1)).1, (c.drain (n + 1)).2.finishPio true)
    else (dmaTake fuel ((c.drain (n + 1)).2.finishPio true)
      (n + 1 - (c.drain (n + 1)).1.length)).bind
        fun p => some ((c.drain (n + 1)).1 ++ p.1, p.2)) = _
  rw [if_congr hopen rfl rfl, Option.map_eq_bind]
  rfl

/-- The loop stops, having supplied so many bytes. -/
def Takes (c : Cell) (n k : ℕ) : Prop :=
  ∃ fuel bs c', dmaTake fuel c n = some (bs, c') ∧ bs.length = k

/-- More fuel changes nothing. -/
theorem dmaTake_mono (fuel : ℕ) : ∀ {fuel' : ℕ} {c : Cell} {n : ℕ} {r : List U8 × Cell},
    dmaTake fuel c n = some r → fuel ≤ fuel' → dmaTake fuel' c n = some r := by
  induction fuel with
  | zero =>
      intro fuel' c n r hrun _
      rcases n with _ | n
      · rw [dmaTake] at hrun ⊢
        exact hrun
      · rw [dmaTake] at hrun
        cases hrun
  | succ fuel ih =>
      intro fuel' c n r hrun hle
      obtain ⟨fuel', rfl⟩ := Nat.exists_eq_succ_of_ne_zero (show fuel' ≠ 0 by omega)
      rcases n with _ | n
      · rw [dmaTake] at hrun ⊢
        exact hrun
      rw [dmaTake_succ] at hrun ⊢
      split_ifs at hrun ⊢
      · exact hrun
      · exact hrun
      · obtain ⟨r', hr', rfl⟩ := Option.map_eq_some_iff.mp hrun
        rw [ih hr' (by omega)]
        rfl

/-- How much is supplied does not depend on the fuel. -/
theorem Takes.length_eq {n k fuel : ℕ} {bs : List U8} {c' : Cell} (h : Takes c n k)
    (hrun : dmaTake fuel c n = some (bs, c')) : bs.length = k := by
  obtain ⟨fuel₀, bs₀, c₀, hrun₀, hlen⟩ := h
  have hboth := (dmaTake_mono fuel₀ hrun₀ (Nat.le_max_left fuel₀ fuel)).symm.trans
    (dmaTake_mono fuel hrun (Nat.le_max_right fuel₀ fuel))
  cases hboth
  exact hlen

/-- A turn after which the loop goes on. -/
theorem takes_next {n k j : ℕ} (hne : (c.drain (n + 1)).2.unread = 0) (hdata : c.data ≠ [])
    (hfull : ((c.drain (n + 1)).2.finishPio true).data ≠ [])
    (h : Takes ((c.drain (n + 1)).2.finishPio true) (n + 1 - (c.drain (n + 1)).1.length) k)
    (hj : (c.drain (n + 1)).1.length + k = j) : Takes c (n + 1) j := by
  obtain ⟨fuel, bs, c', hrun, hlen⟩ := h
  refine ⟨fuel + 1, (c.drain (n + 1)).1 ++ bs, c', ?_, ?_⟩
  · rw [dmaTake_succ, if_neg (by rintro (h | h); exacts [h hne, hdata h]), if_neg hfull, hrun]
    rfl
  · rw [List.length_append, hlen, hj]

/-- A turn that is the last. -/
theorem takes_here {n j : ℕ} (h : (c.drain (n + 1)).2.unread ≠ 0 ∨ c.data = []
    ∨ ((c.drain (n + 1)).2.finishPio true).data = []) (hj : (c.drain (n + 1)).1.length = j) :
    Takes c (n + 1) j := by
  by_cases hfirst : (c.drain (n + 1)).2.unread ≠ 0 ∨ c.data = []
  · refine ⟨1, (c.drain (n + 1)).1, (c.drain (n + 1)).2, ?_, hj⟩
    rw [dmaTake_succ, if_pos hfirst]
  · have hlast : ((c.drain (n + 1)).2.finishPio true).data = [] := by
      rcases h with h | h | h
      · exact absurd (.inl h) hfirst
      · exact absurd (.inr h) hfirst
      · exact h
    refine ⟨1, (c.drain (n + 1)).1, (c.drain (n + 1)).2.finishPio true, ?_, hj⟩
    rw [dmaTake_succ, if_neg hfirst, if_pos hlast]

theorem takes_zero : Takes c 0 0 := ⟨0, [], c, by rw [dmaTake], rfl⟩

/-- No buffer is open. -/
theorem takes_empty (hdata : c.data = []) (n : ℕ) : Takes c n 0 := by
  rcases n with _ | n
  · exact takes_zero
  · have hlen := length_drain (c := c) (n + 1)
    rw [unread, hdata, List.length_nil, Nat.zero_sub, Nat.min_zero] at hlen
    exact takes_here (.inr (.inl hdata)) hlen

/-- **A hard disk** supplies what is asked for, or all that is ahead: what is measured is the
sectors to come. -/
theorem takes_disk (k : ℕ) : ∀ {c : Cell} {n : ℕ}, c.disk = true → c.readLeft = k → c.data ≠ [] →
    Takes c n (min n c.ahead) := by
  induction k with
  | zero =>
      intro c n hdisk hleft hdata
      rcases n with _ | n
      · rw [Nat.zero_min]
        exact takes_zero
      · have hall : c.ahead = c.unread := by rw [ahead, if_pos hdisk, hleft]; rfl
        have hover := (finishPio_disk (c := (c.drain (n + 1)).2) hdisk).1 hleft
        exact takes_here (.inr (.inr hover)) (by rw [length_drain, hall])
  | succ k ih =>
      intro c n hdisk hleft hdata
      rcases n with _ | n
      · rw [Nat.zero_min]
        exact takes_zero
      have hlen := length_drain (c := c) (n + 1)
      have hahead : c.ahead = c.unread + 512 * (k + 1) := by rw [ahead, if_pos hdisk, hleft]
      by_cases hrest : (c.drain (n + 1)).2.unread ≠ 0
      · have hmin : min (n + 1) c.ahead = (c.drain (n + 1)).1.length := by
          rw [unread_drain] at hrest
          omega
        exact takes_here (.inl hrest) hmin.symm
      obtain ⟨hdisk', hleft', hunread⟩ := (finishPio_disk (c := (c.drain (n + 1)).2) hdisk).2
        (show c.readLeft ≠ 0 by omega)
      have hleft'' : ((c.drain (n + 1)).2.finishPio true).readLeft = k :=
        Nat.succ_injective (hleft'.trans hleft)
      have hfull : ((c.drain (n + 1)).2.finishPio true).data ≠ [] := by
        intro hempty
        rw [unread, hempty, List.length_nil, Nat.zero_sub] at hunread
        cases hunread
      have hnext : ((c.drain (n + 1)).2.finishPio true).ahead = 512 * (k + 1) := by
        rw [ahead, if_pos hdisk', hleft'', hunread]
        omega
      have hmin : min (n + 1) c.ahead = (c.drain (n + 1)).1.length
          + min (n + 1 - (c.drain (n + 1)).1.length)
              ((c.drain (n + 1)).2.finishPio true).ahead := by
        rw [not_not, unread_drain] at hrest
        omega
      exact takes_next (not_not.mp hrest) hdata hfull (ih hdisk' hleft'' hfull) hmin.symm

/-- A hard disk always stops. -/
theorem exists_takes (hdisk : c.disk = true) (n : ℕ) : ∃ k, Takes c n k := by
  by_cases hdata : c.data = []
  · exact ⟨0, takes_empty hdata n⟩
  · exact ⟨_, takes_disk _ hdisk rfl hdata⟩

/-- **A packet drive** that is asked for no more than is ahead supplies it. -/
theorem takes_packet (k : ℕ) : ∀ {c : Cell} {n : ℕ}, c.disk = false → c.readLeft = k →
    c.data ≠ [] → n ≤ c.ahead → Takes c n n := by
  induction k using Nat.strong_induction_on with
  | _ k ih =>
      intro c n hdisk hleft hdata hn
      rcases n with _ | n
      · exact takes_zero
      have hlen := length_drain (c := c) (n + 1)
      by_cases hrest : (c.drain (n + 1)).2.unread ≠ 0
      · have hall : (c.drain (n + 1)).1.length = n + 1 := by
          rw [unread_drain] at hrest
          omega
        exact takes_here (.inl hrest) hall
      have hrest := not_not.mp hrest
      obtain ⟨hdisk', hfull, hahead', hless⟩ :=
        finishPio_packet (c := (c.drain (n + 1)).2) hdisk hrest
      have hahead := ahead_drain (c := c) (n + 1)
      have hle : c.unread ≤ c.ahead := Nat.le_add_right _ _
      by_cases hall : (c.drain (n + 1)).2.ahead = 0
      · -- the request was the whole of it
        have hnone : n + 1 - (c.drain (n + 1)).1.length = 0 := by omega
        have hover : Takes ((c.drain (n + 1)).2.finishPio true)
            (n + 1 - (c.drain (n + 1)).1.length) 0 := by
          rw [hnone]
          exact takes_zero
        exact takes_next hrest hdata (hfull hdata) hover (by omega)
      · have hless' : ((c.drain (n + 1)).2.finishPio true).readLeft < c.readLeft := hless hall
        exact takes_next hrest hdata (hfull hdata)
          (ih _ (by omega) hdisk' rfl (hfull hdata) (by omega)) (by omega)

/-- A packet drive with a buffer that is asked for more: the loop turns for ever. -/
theorem dmaTake_none (fuel : ℕ) : ∀ {c : Cell} {n : ℕ}, c.disk = false → c.data ≠ [] →
    c.ahead < n → dmaTake fuel c n = none := by
  induction fuel with
  | zero =>
      intro c n _ _ hn
      obtain ⟨n, rfl⟩ := Nat.exists_eq_succ_of_ne_zero (show n ≠ 0 by omega)
      rw [dmaTake]
  | succ fuel ih =>
      intro c n hdisk hdata hn
      obtain ⟨n, rfl⟩ := Nat.exists_eq_succ_of_ne_zero (show n ≠ 0 by omega)
      have hle : c.unread ≤ c.ahead := Nat.le_add_right _ _
      have hrest : (c.drain (n + 1)).2.unread = 0 := by
        rw [unread_drain]
        omega
      obtain ⟨hdisk', hfull, hahead', -⟩ :=
        finishPio_packet (c := (c.drain (n + 1)).2) hdisk hrest
      have hlen := length_drain (c := c) (n + 1)
      have hahead := ahead_drain (c := c) (n + 1)
      rw [dmaTake_succ, if_neg (by rintro (h | h); exacts [h hrest, hdata h]), if_neg (hfull hdata),
        ih hdisk' (hfull hdata) (by omega)]
      rfl

/-- **What is supplied** is no longer ahead. -/
theorem ahead_dmaTake (fuel : ℕ) : ∀ {c c' : Cell} {n : ℕ} {bs : List U8},
    dmaTake fuel c n = some (bs, c') → c'.ahead + bs.length = c.ahead := by
  induction fuel with
  | zero =>
      intro c c' n bs hrun
      rcases n with _ | n
      · rw [dmaTake] at hrun
        cases hrun
        rfl
      · rw [dmaTake] at hrun
        cases hrun
  | succ fuel ih =>
      intro c c' n bs hrun
      rcases n with _ | n
      · rw [dmaTake] at hrun
        cases hrun
        rfl
      have hlen := length_drain (c := c) (n + 1)
      have hahead := ahead_drain (c := c) (n + 1)
      have hle : c.unread ≤ c.ahead := Nat.le_add_right _ _
      rw [dmaTake_succ] at hrun
      by_cases hfirst : (c.drain (n + 1)).2.unread ≠ 0 ∨ c.data = []
      · rw [if_pos hfirst] at hrun
        obtain ⟨rfl, rfl⟩ := Prod.mk.inj (Option.some.inj hrun)
        show (c.drain (n + 1)).2.ahead + (c.drain (n + 1)).1.length = c.ahead
        omega
      rw [if_neg hfirst] at hrun
      obtain ⟨hrest, -⟩ := not_or.mp hfirst
      have hfinish := ahead_finishPio (not_not.mp hrest)
      split_ifs at hrun
      · obtain ⟨rfl, rfl⟩ := Prod.mk.inj (Option.some.inj hrun)
        omega
      · obtain ⟨⟨bs', c''⟩, hr, hout⟩ := Option.map_eq_some_iff.mp hrun
        obtain ⟨rfl, rfl⟩ := Prod.mk.inj hout
        have hlater := ih hr
        show c''.ahead + ((c.drain (n + 1)).1 ++ bs').length = c.ahead
        rw [List.length_append]
        omega

end Cell

end Ata

end OpenPowerMac
