/-
What the open command still owes the host, beside the drive, and when `dmaTake` keeps to it.

A command asks for so many bytes: a READ for its sectors, IDENTIFY for its 512, a packet for its
reply, and a WRITE for none. The drive does not count them. It goes by its buffer and by
`readLeft`, and a command that needs neither leaves both as it found them: IDENTIFY does not
clear the sectors of a READ that was given up, and a WRITE fills the buffer that `dmaTake` hands
out.
-/
import OpenPowerMac.Drive
import Mathlib.Logic.Relation

set_option autoImplicit false

namespace OpenPowerMac

namespace Ata

open Cell

/-- A drive, and how many bytes its open command still owes the host. -/
structure Served where
  drive : Drive
  owed : ℕ

namespace Served

variable {s s' : Served} {n : ℕ}

/-- The command register is written. -/
def command (s : Served) (cmd : U8) : Served := ⟨s.drive.ataCommand cmd, s.drive.asked cmd⟩

/-- The last byte of a packet is written. -/
def packet (s : Served) (cdb : Fin 12 → U8) : Served :=
  ⟨s.drive.packet cdb, s.drive.packetAsked cdb⟩

/-- The loop stops, and what it supplies is owed. -/
def Within (s : Served) (n : ℕ) : Prop :=
  ∃ fuel bs d', s.drive.dmaTake fuel n = some (bs, d') ∧ bs.length ≤ s.owed

/-- Nothing is on the way to the host but what the command owes it. -/
def Settled (s : Served) : Prop := s.drive.ahead = s.owed

/-- No buffer is open; or a hard disk is asked for no more than is owed, or has no more than that;
or a packet drive is asked for no more than is owed, and has it. -/
def Fits (s : Served) (n : ℕ) : Prop :=
  s.drive.data = []
    ∨ if s.drive.disk then n ≤ s.owed ∨ s.drive.ahead ≤ s.owed
      else n ≤ s.owed ∧ n ≤ s.drive.ahead

/-! ## One request -/

theorem within_iff_takes : s.Within n ↔ ∃ k, Takes s.drive.toCell n k ∧ k ≤ s.owed := by
  constructor
  · rintro ⟨fuel, bs, d', hrun, hle⟩
    obtain ⟨r, hr, hout⟩ := Option.map_eq_some_iff.mp hrun
    obtain ⟨rfl, -⟩ := Prod.mk.inj hout
    exact ⟨_, ⟨fuel, r.1, r.2, hr, rfl⟩, hle⟩
  · rintro ⟨k, ⟨fuel, bs, c', hrun, rfl⟩, hle⟩
    refine ⟨fuel, bs, { s.drive with toCell := c' }, ?_, hle⟩
    rw [Drive.dmaTake, hrun, Option.map_some]

/-- The loop stops with so many bytes, and the question is whether they are owed. -/
theorem within_iff_of_takes {k : ℕ} (h : Takes s.drive.toCell n k) : s.Within n ↔ k ≤ s.owed := by
  rw [within_iff_takes]
  constructor
  · rintro ⟨k', ⟨fuel, bs, c', hrun, rfl⟩, hle⟩
    exact h.length_eq hrun ▸ hle
  · exact fun hle => ⟨k, h, hle⟩

/-- A packet drive with a buffer, asked for more than is ahead of it. -/
theorem not_within (hdisk : s.drive.disk = false) (hdata : s.drive.data ≠ [])
    (hn : s.drive.ahead < n) : ¬ s.Within n := by
  rw [within_iff_takes]
  rintro ⟨k, ⟨fuel, bs, c', hrun, -⟩, -⟩
  rw [dmaTake_none fuel hdisk hdata hn] at hrun
  cases hrun

/-- One request keeps to what is owed exactly where it fits. -/
theorem within_iff_fits (s : Served) (n : ℕ) : s.Within n ↔ s.Fits n := by
  by_cases hdata : s.drive.data = []
  · have hzero := within_iff_of_takes (s := s) (takes_empty hdata n)
    exact iff_of_true (hzero.mpr (Nat.zero_le _)) (.inl hdata)
  rw [Fits, or_iff_right hdata]
  by_cases hdisk : s.drive.disk = true
  · rw [within_iff_of_takes (takes_disk _ hdisk rfl hdata), if_pos hdisk, min_le_iff]
  · have hpacket : s.drive.disk = false := Bool.not_eq_true _ ▸ hdisk
    rw [if_neg hdisk]
    by_cases hn : n ≤ s.drive.ahead
    · rw [within_iff_of_takes (takes_packet _ hpacket rfl hdata hn)]
      omega
    · have hloop := not_within hpacket hdata (not_le.mp hn)
      exact iff_of_false hloop (by omega)

/-! ## A data phase -/

/-- What the host does while a data phase is open: a burst of the channel, a read of the data
register, a store to the task file. -/
inductive Move (s : Served) : Served → Prop
  | take {fuel n : ℕ} {bs : List U8} {d' : Drive} (hrun : s.drive.dmaTake fuel n = some (bs, d')) :
      Move s ⟨d', s.owed - bs.length⟩
  | pull (len : ℕ) (hdev : s.drive.dev &&& 0x10#8 = 0#8) :
      Move s ⟨{ s.drive with toCell := (s.drive.toCell.readData len).2 },
        s.owed - (s.drive.toCell.drain len).1.length⟩
  | store (reg v : U32) (hreg : reg ∈ [0x010#32, 0x020#32, 0x030#32, 0x040#32, 0x050#32, 0x060#32]) :
      Move s ⟨s.drive.writeReg reg v 1, s.owed⟩

theorem Settled.fits_iff (h : s.Settled) :
    s.Fits n ↔ s.drive.disk = true ∨ s.drive.data = [] ∨ n ≤ s.owed := by
  have h : s.drive.ahead = s.owed := h
  rw [Fits, h]
  by_cases hdisk : s.drive.disk = true
  · rw [if_pos hdisk]
    exact iff_of_true (.inr (.inr (le_refl _))) (.inl hdisk)
  · rw [if_neg hdisk, and_self_iff, or_iff_right hdisk]

/-- A read of the data register takes what it supplies from what is ahead. -/
theorem ahead_readData {c : Cell} (len : ℕ) (hdev : c.dev &&& 0x10#8 = 0#8) :
    (c.readData len).2.ahead + (c.drain len).1.length = c.ahead := by
  have hahead := ahead_drain (c := c) len
  have hlen := length_drain (c := c) len
  have hle : c.unread ≤ c.ahead := Nat.le_add_right _ _
  obtain ⟨q, hq⟩ : ∃ q : Cell, q = { (c.drain len).2 with
    pulled := c.pulled + BitVec.ofNat 32 len } := ⟨_, rfl⟩
  have hqahead : q.ahead = (c.drain len).2.ahead := by
    rw [hq]
    rfl
  have hrun : (c.readData len).2
      = if q.data ≠ [] ∧ q.data.length ≤ q.dataAt then q.finishPio true else q := by
    rw [readData, if_neg (not_not.mpr hdev), hq]
    rfl
  rw [hrun]
  split_ifs with hend
  · have hfinish := ahead_finishPio (c := q) (Nat.sub_eq_zero_of_le hend.2)
    omega
  · omega

/-- A step of the host leaves ahead what is owed. -/
theorem Settled.move (h : s.Settled) (hm : Move s s') : s'.Settled := by
  have h : s.drive.ahead = s.owed := h
  cases hm with
  | take hrun =>
      obtain ⟨r, hr, hout⟩ := Option.map_eq_some_iff.mp hrun
      obtain ⟨rfl, rfl⟩ := Prod.mk.inj hout
      have hahead := ahead_dmaTake _ hr
      show r.2.ahead = s.owed - r.1.length
      omega
  | pull len hdev =>
      have hahead := ahead_readData len hdev
      show (s.drive.toCell.readData len).2.ahead = s.owed - (s.drive.toCell.drain len).1.length
      omega
  | store reg v hreg =>
      simp only [List.mem_cons, List.not_mem_nil, or_false] at hreg
      rcases hreg with rfl | rfl | rfl | rfl | rfl | rfl <;> exact h

/-- So does a data phase. -/
theorem Settled.moves (h : s.Settled) (hrun : Relation.ReflTransGen Move s s') : s'.Settled := by
  induction hrun with
  | refl => exact h
  | tail _ hm ih => exact ih.move hm

/-! ## The commands -/

theorem length_w16 (data : List U8) (word : ℕ) (val : U16) :
    (Drive.w16 data word val).length = data.length := by
  rw [Drive.w16, List.length_set, List.length_set]

theorem length_text (data : List U8) (word words : ℕ) (t : String) :
    (Drive.text data word words t).length = data.length := by
  rw [Drive.text]
  generalize List.range (words * 2) = ks
  induction ks generalizing data with
  | nil => rfl
  | cons k ks ih => rw [List.foldl_cons, ih, List.length_set]

theorem length_identify (d : Drive) : d.identify.length = 512 := by
  simp only [Drive.identify, length_w16, length_text, List.length_replicate]

theorem length_identifyPacket : Drive.identifyPacket.length = 512 := by
  simp only [Drive.identifyPacket, length_w16, length_text, List.length_replicate]

theorem ataCommand_disk {d : Drive} (hdisk : d.disk = true) (cmd : U8) :
    d.ataCommand cmd = Drive.diskCommand { d with pulled := 0#32, error := 0#8 } cmd := if_pos hdisk

theorem ahead_diskStartRead {c : Cell} (hdisk : c.disk = true) (hleft : c.readLeft ≠ 0) :
    c.diskStartRead.ahead = 512 * c.readLeft := by
  have hrun : c.finishPio true = c.diskStartRead := by rw [finishPio, if_pos hdisk]
  obtain ⟨hdisk', hleft', hunread⟩ := (finishPio_disk hdisk).2 hleft
  rw [hrun] at hdisk' hleft' hunread
  rw [ahead, if_pos hdisk', hunread]
  omega

/-- A READ of a hard disk has its sectors ahead, and nothing else. -/
theorem settled_read {cmd : U8} (hdisk : s.drive.disk = true) (hcmd : cmd ∈ readCommands) :
    (s.command cmd).Settled := by
  have hne : cmd ≠ 0xEC#8 := by
    rintro rfl
    exact absurd hcmd (by decide)
  have hcount : (if s.drive.nsect ≠ 0#8 then s.drive.nsect.toNat else 256) ≠ 0 := by
    split_ifs with hz
    · exact fun h0 => hz (BitVec.eq_of_toNat_eq h0)
    · decide
  show (s.drive.ataCommand cmd).ahead = s.drive.asked cmd
  rw [Drive.asked, if_pos hdisk, if_neg hne, if_pos hcmd, ataCommand_disk hdisk, Drive.diskCommand]
  simp only [if_neg hne, if_pos hcmd]
  exact ahead_diskStartRead hdisk hcount

/-- IDENTIFY has what it owes ahead, and the sectors of the READ before it. -/
theorem command_identify (hdisk : s.drive.disk = true) :
    (s.command 0xEC#8).drive.disk = true ∧ (s.command 0xEC#8).drive.data ≠ []
      ∧ (s.command 0xEC#8).owed = 512
      ∧ (s.command 0xEC#8).drive.ahead = 512 + 512 * s.drive.readLeft := by
  have howed : s.drive.asked 0xEC#8 = 512 := by rw [Drive.asked, if_pos hdisk, if_pos rfl]
  show (s.drive.ataCommand 0xEC#8).disk = true ∧ (s.drive.ataCommand 0xEC#8).data ≠ []
    ∧ s.drive.asked 0xEC#8 = 512 ∧ (s.drive.ataCommand 0xEC#8).ahead = 512 + 512 * s.drive.readLeft
  rw [ataCommand_disk hdisk, Drive.diskCommand]
  simp only [if_true]
  generalize hreply : Drive.identify _ = reply
  have hlen : reply.length = 512 := hreply ▸ length_identify _
  refine ⟨hdisk, ?_, howed, ?_⟩
  · show reply ≠ []
    rintro rfl
    cases hlen
  · rw [ahead, if_pos hdisk, unread]
    show reply.length - 0 + 512 * s.drive.readLeft = _
    rw [hlen]

theorem settled_identify (hdisk : s.drive.disk = true) :
    (s.command 0xEC#8).Settled ↔ s.drive.readLeft = 0 := by
  obtain ⟨-, -, howed, hahead⟩ := command_identify hdisk
  rw [Settled, hahead, howed]
  omega

/-- A request for more than IDENTIFY's bytes is one for the sectors of the READ before it. -/
theorem fits_identify (hdisk : s.drive.disk = true) :
    (s.command 0xEC#8).Fits n ↔ n ≤ 512 ∨ s.drive.readLeft = 0 := by
  obtain ⟨hdisk', hdata, howed, hahead⟩ := command_identify hdisk
  rw [Fits, if_pos hdisk', howed, hahead, or_iff_right hdata]
  omega

/-- After a WRITE only a request for nothing keeps to what is owed. -/
theorem fits_write {cmd : U8} (hdisk : s.drive.disk = true) (hcmd : cmd ∈ Drive.writeCommands) :
    (s.command cmd).Fits n ↔ n = 0 := by
  have hne : cmd ≠ 0xEC#8 := by
    rintro rfl
    exact absurd hcmd (by decide)
  have hread : cmd ∉ readCommands := fun h => by
    have hdisjoint : ∀ b ∈ readCommands, b ∉ Drive.writeCommands := by decide
    exact hdisjoint cmd h hcmd
  have howed : (s.command cmd).owed = 0 := by
    show s.drive.asked cmd = 0
    rw [Drive.asked, if_pos hdisk, if_neg hne, if_neg hread]
  have hrun : (s.command cmd).drive = (Drive.startWrite
      { s.drive with pulled := 0#32, error := 0#8 }) := by
    show s.drive.ataCommand cmd = _
    rw [ataCommand_disk hdisk, Drive.diskCommand]
    simp only [if_neg hne, if_neg hread, if_pos hcmd]
  have hdisk' : (s.command cmd).drive.disk = true := by
    rw [hrun]
    exact hdisk
  have hdata : (s.command cmd).drive.data ≠ [] := by
    rw [hrun]
    exact List.cons_ne_nil _ _
  have hahead : (s.command cmd).drive.ahead ≠ 0 := by
    have hunread : (s.command cmd).drive.unread = 512 := by
      rw [hrun]
      show (List.replicate 512 0#8).length - 0 = 512
      rw [List.length_replicate]
    have hle : (s.command cmd).drive.unread ≤ (s.command cmd).drive.ahead := Nat.le_add_right _ _
    omega
  rw [Fits, if_pos hdisk', howed, or_iff_right hdata]
  omega

/-- IDENTIFY of a packet drive, which stops at its own bytes. -/
theorem fits_identifyPacket (hdisk : s.drive.disk = false) :
    (s.command 0xA1#8).Fits n ↔ n ≤ 512 := by
  have hfalse : ¬ s.drive.disk = true := hdisk ▸ Bool.false_ne_true
  have howed : (s.command 0xA1#8).owed = 512 := by
    show s.drive.asked 0xA1#8 = 512
    rw [Drive.asked, if_neg hfalse, if_pos rfl]
  obtain ⟨c, hc, hreply⟩ : ∃ c : Cell, (s.command 0xA1#8).drive.toCell = c
      ∧ c.disk = false ∧ c.data = Drive.identifyPacket ∧ c.dataAt = 0 := by
    refine ⟨_, rfl, ?_⟩
    show (s.drive.ataCommand 0xA1#8).disk = false ∧ _
    rw [Served.command, Drive.ataCommand, if_neg hfalse]
    exact ⟨hdisk, rfl, rfl⟩
  obtain ⟨hdisk', hdata, hat⟩ := hreply
  have hle : c.unread ≤ c.ahead := Nat.le_add_right _ _
  have hunread : c.unread = 512 := by rw [unread, hdata, hat, length_identifyPacket]
  have hopen : c.data ≠ [] := by
    intro h
    rw [unread, h, List.length_nil, Nat.zero_sub] at hunread
    cases hunread
  rw [Fits, hc, howed, or_iff_right hopen, hdisk', if_neg Bool.false_ne_true]
  omega

/-- A drive at the start of a fixed reply. -/
structure Fresh (d : Drive) : Prop where
  disk : d.disk = false
  left : d.readLeft = 0
  start : d.dataAt = 0

namespace Fresh

variable {d : Drive}

theorem ahead_eq (h : Fresh d) : d.ahead = d.data.length := by
  rw [ahead, unread, h.start, h.disk, if_neg Bool.false_ne_true, h.left, audioFree]
  rfl

theorem checkCondition (hdisk : d.disk = false) (key asc ascq : U8) :
    Fresh (d.checkCondition key asc ascq) := ⟨hdisk, rfl, rfl⟩

theorem replyWith (h : Fresh d) (data : List U8) : Fresh (d.replyWith data) := by
  rw [Drive.replyWith]
  split_ifs
  · exact ⟨h.disk, h.left, h.start⟩
  · exact ⟨h.disk, h.left, h.start⟩

theorem complete (h : Fresh d) : Fresh d.complete := ⟨h.disk, h.left, h.start⟩

theorem startStop (h : Fresh d) (cdb : Fin 12 → U8) : Fresh (d.startStop cdb) := by
  have heject : Fresh d.hostEject := by
    rw [Drive.hostEject]
    split_ifs
    · exact h
    · exact ⟨h.disk, rfl, h.start⟩
  rw [Drive.startStop]
  split_ifs
  · exact ⟨h.disk, h.left, h.start⟩
  · exact h
  · exact heject
  · exact h
  · exact h

/-- Every packet but a READ leaves its reply at the start of the buffer. -/
theorem packetCommand (h : Fresh d) {cdb : Fin 12 → U8} (hread : cdb 0 ≠ 0x28#8 ∧ cdb 0 ≠ 0xA8#8) :
    Fresh (d.packetCommand cdb) := by
  rw [Drive.packetCommand]
  split
  · exact h.complete.replyWith _
  · refine Fresh.replyWith ?_ _
    exact ⟨h.disk, h.left, h.start⟩
  · exact h.replyWith _
  · exact (h.startStop cdb).complete.replyWith _
  · split_ifs
    · exact checkCondition h.disk _ _ _
    · refine Fresh.replyWith ?_ _
      exact ⟨h.disk, h.left, h.start⟩
  · exact h.complete.replyWith _
  · exact h.complete.replyWith _
  · exact h.replyWith _
  · exact absurd ‹_› hread.1
  · exact absurd ‹_› hread.2
  · exact h.complete.replyWith _
  · exact h.replyWith _
  · exact h.replyWith _
  · exact ⟨h.disk, h.left, h.start⟩

end Fresh

/-- The first chunk of a packet READ. -/
theorem ahead_finishPio_false {c : Cell} (hdisk : c.disk = false) (hdrained : c.unread = 0) :
    (c.finishPio false).ahead = 2048 * audioFree c.media.audioAt c.readLba c.readLeft := by
  have hahead : c.ahead = 2048 * audioFree c.media.audioAt c.readLba c.readLeft := by
    rw [ahead, hdrained, Nat.zero_add, hdisk, if_neg Bool.false_ne_true]
  have hfalse : ¬ c.disk = true := hdisk ▸ Bool.false_ne_true
  rw [← hahead]
  by_cases hleft : c.readLeft = 0
  · rw [finishPio, if_neg hfalse, if_neg (fun h => Bool.false_ne_true h.1), if_pos hleft]
  · have hsame : c.finishPio false = c.finishPio true := by
      simp only [finishPio, hfalse, hleft, and_false, if_false]
    rw [hsame, ahead_finishPio hdrained]

/-- The buffer and the count that a packet starts from. -/
def opened (d : Drive) : Drive :=
  { d with irq := true, error := 0#8, data := [], dataAt := 0, readLeft := 0 }

/-- A READ that the medium is there for. -/
theorem ahead_packetCommand {d : Drive} (h : Fresh d) (hdata : d.data = []) {cdb : Fin 12 → U8}
    (hread : cdb 0 = 0x28#8 ∨ cdb 0 = 0xA8#8) : (d.packetCommand cdb).ahead
      = 2048 * audioFree d.media.audioAt (Drive.lba32 cdb).toNat (Drive.packetSectors cdb) := by
  have hdrained : d.unread = 0 := by rw [unread, hdata, List.length_nil, Nat.zero_sub]
  have hstart : ∀ lba left, ({ d with readLba := lba, readLeft := left } : Drive).unread = 0 :=
    fun _ _ => hdrained
  rw [Drive.packetCommand, Drive.packetSectors]
  rcases hread with h28 | hA8
  · rw [h28, if_pos rfl]
    exact ahead_finishPio_false h.disk (hstart _ _)
  · rw [hA8, if_neg (show ¬ (0xA8#8 : U8) = 0x28#8 by decide)]
    exact ahead_finishPio_false h.disk (hstart _ _)

/-- What `packet` comes to for a packet drive. -/
theorem packet_eq {d : Drive} (hdisk : d.disk = false) (cdb : Fin 12 → U8) : d.packet cdb
    = if cdb 0 ≠ 0x12#8 ∧ cdb 0 ≠ 0x03#8 ∧ d.unitAttention then
        { opened d with unitAttention := false }.checkCondition 0x06#8 0x28#8 0x00#8
      else if cdb 0 ≠ 0x12#8 ∧ cdb 0 ≠ 0x03#8 ∧ Drive.needsMedium (cdb 0) ∧ !d.mediaPresent then
        { opened d with absentSeen := true }.checkCondition 0x02#8 0x3A#8 0x00#8
      else (opened d).packetCommand cdb := by
  have hpacket : (!d.disk) = true := by rw [hdisk]; rfl
  have hdrop : ∀ p : Prop, ((!d.disk) = true ∧ p) ↔ p := fun p => and_iff_right hpacket
  exact if_congr (hdrop _) rfl (if_congr (hdrop _) rfl rfl)

/-- A packet has its reply ahead, and nothing else. -/
theorem settled_packet (hdisk : s.drive.disk = false) (cdb : Fin 12 → U8) :
    (s.packet cdb).Settled := by
  have hfresh : Fresh (opened s.drive) := ⟨hdisk, rfl, rfl⟩
  have hrefused : ∀ d : Drive, d.disk = false → ∀ key asc ascq : U8,
      (d.checkCondition key asc ascq).ahead = 0 := fun d hd key asc ascq =>
    (Fresh.checkCondition hd key asc ascq).ahead_eq
  show (s.drive.packet cdb).ahead = s.drive.packetAsked cdb
  rw [Drive.packetAsked]
  by_cases hread : cdb 0 = 0x28#8 ∨ cdb 0 = 0xA8#8
  · have hquiet : cdb 0 ≠ 0x12#8 ∧ cdb 0 ≠ 0x03#8 ∧ Drive.needsMedium (cdb 0) = true := by
      rcases hread with h | h <;> rw [h] <;> decide
    obtain ⟨h12, h03, hneeds⟩ := hquiet
    rw [if_pos hread, packet_eq hdisk]
    by_cases hattention : s.drive.unitAttention = true
    · rw [if_pos ⟨h12, h03, hattention⟩, if_pos (.inl hattention)]
      exact hrefused { opened s.drive with unitAttention := false } hdisk _ _ _
    rw [if_neg (fun h => hattention h.2.2)]
    by_cases hmedium : (!s.drive.mediaPresent) = true
    · rw [if_pos ⟨h12, h03, hneeds, hmedium⟩, if_pos (.inr hmedium)]
      exact hrefused { opened s.drive with absentSeen := true } hdisk _ _ _
    · rw [if_neg (fun h => hmedium h.2.2.2), if_neg (not_or.mpr ⟨hattention, hmedium⟩)]
      exact ahead_packetCommand hfresh rfl hread
  · rw [if_neg hread, Fresh.ahead_eq]
    rw [packet_eq hdisk]
    split_ifs
    · exact Fresh.checkCondition (by exact hdisk) _ _ _
    · exact Fresh.checkCondition (by exact hdisk) _ _ _
    · exact hfresh.packetCommand (not_or.mp hread)

/-! ## What is supplied -/

/-- A hard disk of two sectors, told to read or to write both. -/
def twoSectors : Served := ⟨{ Drive.attachDisk (List.replicate 1024 0xFF#8) (fun _ => 512) none with
  nsect := 2#8 }, 0⟩

/-- A packet drive without a disc. -/
def tray : Served :=
  ⟨{ Drive.attachDisk [] (fun _ => 512) none with disk := false, iso := false, seated := true }, 0⟩

/-- REQUEST SENSE. -/
def requestSense (k : Fin 12) : U8 := if k.val = 0 then 0x03#8 else 0#8

/-- **`dmaTake` keeps to what is owed** exactly where the request fits; in a data phase that was
opened with nothing else on the way, exactly where the drive is a hard disk, no buffer is open or
no more is asked for than is owed. -/
theorem dmaTake_within_iff (s : Served) (n : ℕ) :
    (s.Within n ↔ s.Fits n)
      ∧ ∀ s₀ : Served, s₀.Settled → Relation.ReflTransGen Move s₀ s →
        (s.Within n ↔ s.drive.disk = true ∨ s.drive.data = [] ∨ n ≤ s.owed) := by
  refine ⟨within_iff_fits s n, fun s₀ h hrun => ?_⟩
  rw [within_iff_fits, (h.moves hrun).fits_iff]

/-- The reply again, once eight of its bytes are taken: ten more are supplied, and eleven are not. -/
theorem dmaTake_within_rest : ∃ s', Relation.ReflTransGen Move (tray.packet requestSense) s'
    ∧ s'.owed = 10 ∧ s'.Within 10 ∧ ¬ s'.Within 11 := by
  have hsettled : (tray.packet requestSense).Settled := settled_packet rfl requestSense
  obtain ⟨bs, d', hrun, hlen, hdisk, hdata⟩ : ∃ bs d',
      (tray.packet requestSense).drive.dmaTake 1 8 = some (bs, d') ∧ bs.length = 8
        ∧ d'.disk = false ∧ d'.data ≠ [] := ⟨_, _, rfl, rfl, rfl, List.cons_ne_nil _ _⟩
  have hmove : Relation.ReflTransGen Move (tray.packet requestSense)
      ⟨d', (tray.packet requestSense).owed - bs.length⟩ := .single (.take hrun)
  have howed : (tray.packet requestSense).owed - bs.length = 10 := by
    rw [hlen]
    rfl
  rw [howed] at hmove
  refine ⟨⟨d', 10⟩, hmove, rfl, ?_, ?_⟩
  · rw [(dmaTake_within_iff _ 10).2 _ hsettled hmove]
    exact .inr (.inr (le_refl _))
  · rw [(dmaTake_within_iff _ 11).2 _ hsettled hmove, hdisk]
    rintro (h | h | h)
    · cases h
    · exact hdata h
    · exact absurd (show 11 ≤ 10 from h) (by decide)

/-- The 18 bytes of REQUEST SENSE do not answer a request for 32; an open WRITE is owed nothing
and hands out its buffer; IDENTIFY is followed by the second sector of a READ that was given up. -/
theorem dmaTake_not_within : ¬ (tray.packet requestSense).Within 32
    ∧ ¬ (twoSectors.command 0xCA#8).Within 512
    ∧ ¬ ((twoSectors.command 0xC8#8).command 0xEC#8).Within 1024 := by
  refine ⟨?_, ?_, ?_⟩
  · have hfresh : Fresh (tray.packet requestSense).drive := by
      have hstart : Fresh (opened tray.drive) := ⟨rfl, rfl, rfl⟩
      have hread : requestSense 0 ≠ 0x28#8 ∧ requestSense 0 ≠ 0xA8#8 := by decide
      exact hstart.packetCommand hread
    refine not_within hfresh.disk (List.cons_ne_nil _ _) ?_
    rw [hfresh.ahead_eq]
    decide
  · rw [within_iff_fits, fits_write rfl (by decide)]
    decide
  · have hleft : (twoSectors.command 0xC8#8).drive.readLeft = 1 := rfl
    rw [within_iff_fits, fits_identify rfl, hleft]
    decide

end Served

end Ata

end OpenPowerMac
