/-
The deferred command of an ATA cell.

A command that is written is held, with the task file as it stands, until its time. Nothing
but another command, a software reset and the tick touches what is held (`slot`), whatever
happens to the live registers meanwhile; and the tick that finds it due leaves the drive that
`ataCommand` makes of one with that task file in its registers (`tick_runs`).
-/
import OpenPowerMac.Deferral
import OpenPowerMac.Drive

set_option autoImplicit false

namespace OpenPowerMac

namespace Ata

open Cell Deferral

/-- The registers that a command is given. -/
structure TaskFile where
  nsect : U8
  lba0 : U8
  bcLo : U8
  bcHi : U8
  dev : U8

namespace Drive

/-- The live task file. -/
def taskFile (d : Drive) : TaskFile := ⟨d.nsect, d.lba0, d.bcLo, d.bcHi, d.dev⟩

/-- The command that is held, the task file it will be given, and when it is due. -/
def slot (d : Drive) : Option (Ticket (U8 × TaskFile) U64) :=
  if d.pending then
    some ⟨(d.pendCmd, ⟨d.pendNsect, d.pendLba0, d.pendBcLo, d.pendBcHi, d.pendDev⟩), d.pendAtTb⟩
  else none

/-! ## Steps -/

/-- What happens to a cell: the guest's accesses, its DMA channel, the clock, and the host that
changes the disc. -/
inductive Event where
  | write (off v : U32) (len : ℕ)
  | read (off : U32) (len : ℕ)
  | dmaTake (fuel n : ℕ)
  | dmaGive (src : List U8)
  | setDmaArmed (a : Bool)
  | setDmaIrq (a : Bool)
  | time (tb : U64)
  | tick (files : Path → Option Medium)
  | hostEject
  | hostInsert (found : Option Medium)
  | hostSwap (files : Path → Option Medium) (path : Path)
  | hostStage (files : Path → Option Medium) (path : Path)

/-- What the write of a register of the drive does to the deferred command. -/
def regNote (d : Drive) (reg v : U32) : Note (U8 × TaskFile) U64 :=
  match reg with
  | 0x070#32 =>
      match d.tbRef with
      | none => .silent
      | some now =>
          if d.dev &&& 0x10#8 ≠ 0#8 then .silent
          else .issued ⟨(v.setWidth 8, d.taskFile), now + d.cmdDelayTb⟩
  | 0x160#32 => if (v.setWidth 8 : U8) &&& 0x04#8 ≠ 0#8 then .cancelled else .silent
  | _ => .silent

/-- What a write does to the deferred command. -/
def writeNote (d : Drive) (off v : U32) : Note (U8 × TaskFile) U64 :=
  if !d.present ∨ off ≥ 0x200#32 then .silent else d.regNote (off &&& 0xFF0#32) v

/-- What a tick does: it runs the command that is held, or leaves it waiting. -/
def tickNote (d : Drive) (files : Path → Option Medium) : Note (U8 × TaskFile) U64 :=
  match d.tbRef with
  | none => .silent
  | some now =>
      if (d.tick files).1 then
        .ran (d.pendCmd, ⟨d.pendNsect, d.pendLba0, d.pendBcLo, d.pendBcHi, d.pendDev⟩) now
      else .waited now

/-- One event; a `dmaTake` that does not return has no next state. -/
def step (d : Drive) : Event → Option (Note (U8 × TaskFile) U64 × Drive)
  | .write off v len => some (d.writeNote off v, d.write off v len)
  | .read off len => some (.silent, (d.read off len).2)
  | .dmaTake fuel n => (d.dmaTake fuel n).map fun r => (.silent, r.2)
  | .dmaGive src => some (.silent, (d.dmaGive src).2)
  | .setDmaArmed a => some (.silent, { d with dmaArmed := a })
  | .setDmaIrq a => some (.silent, if a then { d with dmaIrqLatch := true } else d)
  | .time tb => some (.silent, { d with tbRef := d.tbRef.map fun _ => tb })
  | .tick files => some (d.tickNote files, (d.tick files).2)
  | .hostEject => some (.silent, d.hostEject)
  | .hostInsert found => some (.silent, (d.hostInsert found).2)
  | .hostSwap files path => some (.silent, (d.hostSwap files path).2)
  | .hostStage files path => some (.silent, (d.hostStage files path).2)

/-! ## What leaves the slot alone -/

theorem slot_ite {p : Prop} [Decidable p] {a b : Drive} {k? : Option (Ticket (U8 × TaskFile) U64)}
    (ha : a.slot = k?) (hb : b.slot = k?) : (if p then a else b).slot = k? := by
  split
  · exact ha
  · exact hb

theorem slot_hostEject (d : Drive) : d.hostEject.slot = d.slot := by
  unfold hostEject
  exact slot_ite rfl rfl

theorem slot_hostInsert (d : Drive) (found : Option Medium) :
    (d.hostInsert found).2.slot = d.slot := by
  unfold hostInsert
  split
  · rfl
  · cases found <;> rfl

theorem slot_hostSwap (d : Drive) (files : Path → Option Medium) (path : Path) :
    (d.hostSwap files path).2.slot = d.slot := by
  unfold hostSwap
  split_ifs
  · rfl
  · exact slot_hostInsert d _
  · exact slot_hostEject _

theorem slot_hostStage (d : Drive) (files : Path → Option Medium) (path : Path) :
    (d.hostStage files path).2.slot = d.slot := by
  unfold hostStage
  split_ifs
  · rfl
  · exact slot_hostSwap d files path
  · rfl

theorem slot_commitWriteSector (d : Drive) : d.commitWriteSector.2.slot = d.slot := by
  unfold commitWriteSector
  dsimp only
  split <;> rfl

theorem slot_giveLoop (left : ℕ) (d : Drive) (src : List U8) :
    (giveLoop left d src).2.slot = d.slot := by
  induction left generalizing d src with
  | zero => rfl
  | succ left ih =>
      rw [giveLoop]
      dsimp only
      split_ifs
      · rfl
      · rfl
      · exact (ih _ _).trans (slot_commitWriteSector _)
      · exact slot_commitWriteSector _

theorem slot_diskCommand (d : Drive) (cmd : U8) : (d.diskCommand cmd).slot = d.slot := by
  unfold diskCommand
  exact slot_ite rfl <| slot_ite rfl <| slot_ite rfl <| slot_ite rfl <| slot_ite rfl <|
    slot_ite rfl <| slot_ite rfl <| slot_ite rfl rfl

theorem slot_ataCommand (d : Drive) (cmd : U8) : (d.ataCommand cmd).slot = d.slot := by
  unfold ataCommand
  refine slot_ite (slot_diskCommand _ cmd) ?_
  split <;> rfl

theorem slot_replyWith (d : Drive) (data : List U8) : (d.replyWith data).slot = d.slot := by
  unfold replyWith
  exact slot_ite rfl rfl

theorem slot_startStop (d : Drive) (cdb : Fin 12 → U8) : (d.startStop cdb).slot = d.slot := by
  unfold startStop
  exact slot_ite (slot_ite (slot_ite rfl rfl) (slot_ite (slot_hostEject d) rfl)) rfl

theorem slot_packetCommand (d : Drive) (cdb : Fin 12 → U8) :
    (d.packetCommand cdb).slot = d.slot := by
  unfold packetCommand
  split
  · exact slot_replyWith _ _
  · exact slot_replyWith _ _
  · exact slot_replyWith _ _
  · exact (slot_replyWith _ _).trans (slot_startStop d cdb)
  · split
    · rfl
    · exact slot_replyWith _ _
  · exact slot_replyWith _ _
  · exact slot_replyWith _ _
  · exact slot_replyWith _ _
  · rfl
  · rfl
  · exact slot_replyWith _ _
  · exact slot_replyWith _ _
  · exact slot_replyWith _ _
  · rfl

theorem slot_packet (d : Drive) (cdb : Fin 12 → U8) : (d.packet cdb).slot = d.slot := by
  unfold packet
  exact slot_ite rfl (slot_ite rfl (slot_packetCommand _ cdb))

theorem slot_takeCdb (d : Drive) (bs : List U8) : (d.takeCdb bs).slot = d.slot := by
  induction bs generalizing d with
  | nil => rfl
  | cons b bs ih =>
      rw [takeCdb]
      split
      · exact ih _
      · rfl

theorem slot_writeData (d : Drive) (v : U32) (len : ℕ) : (d.writeData v len).slot = d.slot := by
  unfold writeData
  refine slot_ite (slot_ite ?_ ?_) (slot_ite (slot_ite ?_ ?_) ?_)
  · exact (slot_packet _ _).trans (slot_takeCdb d _)
  · exact slot_takeCdb d _
  · exact slot_commitWriteSector _
  · rfl
  · rfl

theorem slot_read (d : Drive) (off : U32) (len : ℕ) : (d.read off len).2.slot = d.slot := by
  unfold read
  split_ifs
  · rfl
  · rfl
  · rfl
  · rfl
  · split <;> rfl

theorem slot_swapStaged (d : Drive) (files : Path → Option Medium) :
    (d.swapStaged files).slot = d.slot := by
  unfold swapStaged
  split
  · rfl
  · dsimp only
    split
    · exact slot_hostInsert _ _
    · rfl

/-! ## What does not -/

/-- A command is held, or carried out at once where there is no clock. -/
theorem allows_writeCommand (d : Drive) (v : U32) :
    Allows d.slot (d.regNote 0x070#32 v) (d.writeCommand (v.setWidth 8)).slot := by
  show Allows d.slot (match d.tbRef with
      | none => .silent
      | some now =>
          if d.dev &&& 0x10#8 ≠ 0#8 then .silent
          else .issued ⟨(v.setWidth 8, d.taskFile), now + d.cmdDelayTb⟩) _
  unfold writeCommand
  dsimp only
  cases hclock : d.tbRef with
  | none =>
      dsimp only
      split
      · exact .silent _
      · rw [slot_ataCommand]
        exact .silent _
  | some now =>
      dsimp only
      split
      · exact .silent _
      · exact .issued _ _

theorem allows_writeDevctl (d : Drive) (v : U32) :
    Allows d.slot (d.regNote 0x160#32 v) (d.writeDevctl (v.setWidth 8)).slot := by
  show Allows d.slot (if (v.setWidth 8 : U8) &&& 0x04#8 ≠ 0#8 then .cancelled else .silent) _
  unfold writeDevctl
  dsimp only
  split
  · exact .cancelled _
  · exact .silent _

theorem allows_writeReg (d : Drive) (reg v : U32) (len : ℕ) :
    Allows d.slot (d.regNote reg v) (d.writeReg reg v len).slot := by
  unfold writeReg
  dsimp only
  split
  · rw [slot_writeData]
    exact .silent _
  · exact .silent _
  · exact .silent _
  · exact .silent _
  · exact .silent _
  · exact .silent _
  · exact .silent _
  · exact allows_writeCommand d v
  · exact allows_writeDevctl d v
  · next h₇ h₁₆ =>
      unfold regNote
      split
      · exact absurd rfl h₇
      · exact absurd rfl h₁₆
      · exact .silent _

theorem allows_write (d : Drive) (off v : U32) (len : ℕ) :
    Allows d.slot (d.writeNote off v) (d.write off v len).slot := by
  unfold writeNote write
  cases hpresent : d.present with
  | false => exact .silent _
  | true =>
      by_cases hcell : off ≥ 0x200#32
      · -- the cell's own registers
        rw [if_pos (.inr hcell), if_neg (by decide), if_pos hcell]
        split_ifs <;> exact .silent _
      · have hlow : ¬ (off ≥ 0x300#32 ∧ off < 0x310#32) :=
          fun h => hcell (BitVec.le_trans (by decide) h.1)
        rw [if_neg (by rintro (h | h); exacts [absurd h (by decide), hcell h]), if_neg (by decide),
          if_neg hlow, if_neg hcell]
        exact allows_writeReg d _ v len

/-! ## The tick -/

/-- The drive with a task file in its registers, and no command held. -/
def given (d : Drive) (t : TaskFile) : Drive :=
  { d with
    pending := false
    nsect := t.nsect
    lba0 := t.lba0
    bcLo := t.bcLo
    bcHi := t.bcHi
    dev := t.dev }

theorem tbRef_swapStaged (d : Drive) (files : Path → Option Medium) :
    (d.swapStaged files).tbRef = d.tbRef := by
  unfold swapStaged
  split
  · rfl
  · dsimp only
    split
    · unfold hostInsert
      split
      · rfl
      · cases files d.stagedPath <;> rfl
    · rfl

/-- What is due is what is held, at a time not before its own. -/
theorem ripe_eq_some_iff {d : Drive} {t : U64} :
    d.ripe = some t ↔ d.tbRef = some t ∧ ∃ k, d.slot = some k ∧ k.due ≤ t := by
  unfold ripe slot
  cases hclock : d.tbRef with
  | none => simp
  | some now =>
      cases hpending : d.pending with
      | false => simp
      | true =>
          by_cases hdue : now < d.pendAtTb
          · have hnot : ¬ d.pendAtTb ≤ now := BitVec.not_le.mpr hdue
            simp only [hdue, Bool.not_true, Bool.false_eq_true, false_or, if_true, reduceCtorEq,
              Option.some.injEq, exists_eq_left', false_iff, not_and]
            rintro rfl
            exact hnot
          · have hle : d.pendAtTb ≤ now := BitVec.not_lt.mp hdue
            simp only [hdue, Bool.not_true, Bool.false_eq_true, or_false, if_false, if_true,
              Option.some.injEq, exists_eq_left', iff_self_and]
            rintro rfl
            exact hle

/-- A tick runs a command exactly when one is held and due. -/
theorem tick_fst_iff {d : Drive} (files : Path → Option Medium) :
    (d.tick files).1 = true ↔ ∃ t, d.tbRef = some t ∧ ∃ k, d.slot = some k ∧ k.due ≤ t := by
  have hripe := fun t => ripe_eq_some_iff (d := d.swapStaged files) (t := t)
  rw [slot_swapStaged, tbRef_swapStaged] at hripe
  unfold tick
  dsimp only
  cases he : (d.swapStaged files).ripe with
  | none =>
      refine iff_of_false Bool.false_ne_true ?_
      rintro ⟨t, ht⟩
      have := (hripe t).mpr ht
      rw [he] at this
      cases this
  | some t => exact iff_of_true rfl ⟨t, (hripe t).mp he⟩

/-- **What a tick runs**: the command, on the drive with the task file that was held. -/
theorem tick_runs {d : Drive} {files : Path → Option Medium} (hrun : (d.tick files).1 = true)
    {cmd : U8} {t : TaskFile} {due : U64} (hslot : d.slot = some ⟨(cmd, t), due⟩) :
    (d.tick files).2 = ((d.swapStaged files).given t).ataCommand cmd := by
  rw [← slot_swapStaged d files] at hslot
  unfold tick at hrun ⊢
  dsimp only at hrun ⊢
  obtain ⟨e, he⟩ : ∃ e, d.swapStaged files = e := ⟨_, rfl⟩
  rw [he] at hrun hslot ⊢
  cases hripe : e.ripe with
  | none =>
      rw [hripe] at hrun
      exact absurd hrun Bool.false_ne_true
  | some now =>
      unfold slot at hslot
      split at hslot
      · cases hslot
        rfl
      · cases hslot

/-- A tick that runs nothing changes nothing but the disc. -/
theorem tick_waits {d : Drive} {files : Path → Option Medium} (hrun : (d.tick files).1 = false) :
    (d.tick files).2 = d.swapStaged files := by
  unfold tick at hrun ⊢
  dsimp only at hrun ⊢
  cases hripe : (d.swapStaged files).ripe with
  | none => rfl
  | some now =>
      rw [hripe] at hrun
      cases hrun

/-- **A tick** runs what is held if and only if it is due. -/
theorem allows_tick (d : Drive) (files : Path → Option Medium) :
    Allows d.slot (d.tickNote files) (d.tick files).2.slot := by
  have hruns := tick_fst_iff (d := d) files
  unfold tickNote
  cases hrun : (d.tick files).1 with
  | false =>
      rw [tick_waits hrun, slot_swapStaged]
      cases hclock : d.tbRef with
      | none => exact .silent _
      | some now =>
          refine .waited fun k hk hdue => ?_
          rw [hruns.mpr ⟨now, hclock, k, hk, hdue⟩] at hrun
          cases hrun
  | true =>
      obtain ⟨now, hclock, ⟨⟨cmd, t⟩, due⟩, hk, hdue⟩ := hruns.mp hrun
      rw [tick_runs hrun hk, slot_ataCommand, hclock, hk]
      unfold slot at hk
      split at hk
      · cases hk
        exact .ran _ hdue
      · cases hk

/-- **Every step** keeps to what is held. -/
theorem allows_step {d d' : Drive} {e : Event} {n : Note (U8 × TaskFile) U64}
    (h : d.step e = some (n, d')) : Allows d.slot n d'.slot := by
  cases e with
  | write off v len =>
      obtain ⟨rfl, rfl⟩ := Prod.mk.inj (Option.some.inj h)
      exact allows_write d off v len
  | read off len =>
      obtain ⟨rfl, rfl⟩ := Prod.mk.inj (Option.some.inj h)
      rw [slot_read]
      exact .silent _
  | dmaTake fuel n =>
      obtain ⟨r, hr, hn⟩ := Option.map_eq_some_iff.mp h
      obtain ⟨rfl, rfl⟩ := Prod.mk.inj hn
      obtain ⟨r', -, rfl⟩ := Option.map_eq_some_iff.mp hr
      exact .silent _
  | dmaGive src =>
      obtain ⟨rfl, rfl⟩ := Prod.mk.inj (Option.some.inj h)
      rw [dmaGive, slot_giveLoop]
      exact .silent _
  | setDmaArmed a =>
      obtain ⟨rfl, rfl⟩ := Prod.mk.inj (Option.some.inj h)
      exact .silent _
  | setDmaIrq a =>
      obtain ⟨rfl, rfl⟩ := Prod.mk.inj (Option.some.inj h)
      cases a <;> exact .silent _
  | time tb =>
      obtain ⟨rfl, rfl⟩ := Prod.mk.inj (Option.some.inj h)
      exact .silent _
  | tick files =>
      obtain ⟨rfl, rfl⟩ := Prod.mk.inj (Option.some.inj h)
      exact allows_tick d files
  | hostEject =>
      obtain ⟨rfl, rfl⟩ := Prod.mk.inj (Option.some.inj h)
      rw [slot_hostEject]
      exact .silent _
  | hostInsert found =>
      obtain ⟨rfl, rfl⟩ := Prod.mk.inj (Option.some.inj h)
      rw [slot_hostInsert]
      exact .silent _
  | hostSwap files path =>
      obtain ⟨rfl, rfl⟩ := Prod.mk.inj (Option.some.inj h)
      rw [slot_hostSwap]
      exact .silent _
  | hostStage files path =>
      obtain ⟨rfl, rfl⟩ := Prod.mk.inj (Option.some.inj h)
      rw [slot_hostStage]
      exact .silent _

/-! ## Runs -/

/-- A command that is written where there is a clock is held. -/
theorem slot_write {d : Drive} (hpresent : d.present = true) (hsel : d.dev &&& 0x10#8 = 0#8)
    {now : U64} (hclock : d.tbRef = some now) {off : U32} (hoff : off < 0x200#32)
    (hcmd : off &&& 0xFF0#32 = 0x070#32) (v : U32) (len : ℕ) :
    (d.write off v len).slot = some ⟨(v.setWidth 8, d.taskFile), now + d.cmdDelayTb⟩ := by
  have hcell : ¬ off ≥ 0x200#32 := BitVec.not_le.mpr hoff
  have hlow : ¬ (off ≥ 0x300#32 ∧ off < 0x310#32) :=
    fun h => hcell (BitVec.le_trans (by decide) h.1)
  unfold write
  rw [if_neg (by rw [hpresent]; decide), if_neg hlow, if_neg hcell, hcmd]
  show (d.writeCommand (v.setWidth 8)).slot = _
  unfold writeCommand
  dsimp only
  rw [if_neg (not_not.mpr hsel), hclock]
  rfl

/-- **A deferred command.** Whatever happens after the write of the command, as long as no other
is written: a tick that runs a command runs that one, on the task file as it stood at the write,
not before it is due, and neither a reset nor an earlier run came in between; a tick that runs none
leaves the drive to the disc; and the first tick at which it is due runs it. -/
theorem deferred_command {d : Drive} (hpresent : d.present = true) (hsel : d.dev &&& 0x10#8 = 0#8)
    {now : U64} (hclock : d.tbRef = some now) {off : U32} (hoff : off < 0x200#32)
    (hcmd : off &&& 0xFF0#32 = 0x070#32) (v : U32) (len : ℕ) (es : List Event) {e : Drive}
    (hrun : after step (d.write off v len) es = some e)
    (hnew : ∀ n ∈ trace step (d.write off v len) es, ∀ k, n ≠ .issued k)
    (files : Path → Option Medium) :
    ((e.tick files).1 = true →
        (e.tick files).2 = ((e.swapStaged files).given d.taskFile).ataCommand (v.setWidth 8)
          ∧ (∃ t, e.tbRef = some t ∧ now + d.cmdDelayTb ≤ t)
          ∧ ∀ n ∈ trace step (d.write off v len) es, n.Quiet)
      ∧ ((e.tick files).1 = false → (e.tick files).2 = e.swapStaged files)
      ∧ ((∀ n ∈ trace step (d.write off v len) es, n.Quiet) →
          ∀ t, e.tbRef = some t → now + d.cmdDelayTb ≤ t → (e.tick files).1 = true) := by
  have hheld := slot_write hpresent hsel hclock hoff hcmd v len
  have hruns := tick_fst_iff (d := e) files
  refine ⟨fun hticks => ?_, tick_waits, fun hquiet t ht hdue => ?_⟩
  · obtain ⟨t, ht, k, hk, hdue⟩ := hruns.mp hticks
    rcases held_or_gone allows_step es hrun hnew with ⟨hslot, hquiet⟩ | hgone
    · rw [hslot, hheld] at hk
      cases hk
      exact ⟨tick_runs hticks (hslot.trans hheld), ⟨t, ht, hdue⟩, hquiet⟩
    · rw [hgone] at hk
      cases hk
  · have hslot := held_of_quiet allows_step es hrun hquiet
    exact hruns.mpr ⟨t, ht, _, hslot.trans hheld, hdue⟩

/-- A disk of one sector, and a clock. -/
def clockedDisk : Drive := attachDisk (List.replicate 512 0#8) (fun _ => 512) (some 0#64)

/-- READ SECTORS of one sector, held, its sector count overwritten before the tick. -/
def rewritten : Drive := { clockedDisk.hold 0x20#8 0#64 with nsect := 7#8, tbRef := some 5000#64 }

theorem deferred_command_read :
    (rewritten.tick fun _ => none).2
      = ((rewritten.swapStaged fun _ => none).given ⟨1#8, 1#8, 0#8, 0#8, 0#8⟩).ataCommand
        0x20#8 := by
  have hoff : (0x070#32 : U32) < 0x200#32 := by decide
  have hrun : after step (clockedDisk.write 0x070#32 0x20#32 1)
      [.write 0x020#32 7#32 1, .time 5000#64] = some rewritten := rfl
  have hnotes : trace step (clockedDisk.write 0x070#32 0x20#32 1)
      [.write 0x020#32 7#32 1, .time 5000#64] = [.silent, .silent] := rfl
  have h := deferred_command (d := clockedDisk) rfl rfl rfl hoff (by decide) 0x20#32 1 _ hrun
    (by rw [hnotes]; simp) fun _ => none
  exact (h.1 rfl).1

end Drive

end Ata

end OpenPowerMac
