/-
How many descriptors an activation fetches at most.

Whatever the state, with `d` levels of nesting left: a hit comes to at most three
frames (a flush, a woken `run`, a started one), a bus access to at most one more
hit than the rest of the machine may issue, and a turn of the engine to one
descriptor, at most `2 ^ 32` data bytes and a dozen accesses more.
-/
import OpenPowerMac.Dbdma

set_option autoImplicit false

namespace OpenPowerMac

open Trace Trace.Prog DbdmaChannel

/-- The events that are descriptor fetches. -/
def Event.fetches : Event → ℕ
  | .fetch .. => 1
  | _ => 0

namespace Dma

variable {ρ α : Type} {w : World ρ} {k k' : ℕ}

theorem costs_ite {σ : Type} {p : Prop} [Decidable p] {x y : Prog σ Event α}
    (hx : Costs Event.fetches x k) (hy : Costs Event.fetches y k) :
    Costs Event.fetches (if p then x else y) k := by
  by_cases h : p
  · rw [if_pos h]
    exact hx
  · rw [if_neg h]
    exact hy

/-- A return fetches nothing. -/
theorem costs_pure_any (a : α) : Costs Event.fetches (pure a : Dma ρ α) k :=
  (costs_pure a).mono (Nat.zero_le k)

theorem costs_setChan {c : ChannelId} {f : DbdmaChannel → DbdmaChannel} :
    Costs Event.fetches (setChan c f : Dma ρ Unit) 0 :=
  costs_change _

/-- Reading a channel costs nothing. -/
theorem costs_chan_bind {c : ChannelId} {f : DbdmaChannel → Dma ρ α}
    (hf : ∀ ch, Costs Event.fetches (f ch) k) : Costs Event.fetches (chan c >>= f) k := by
  have hchan : Costs Event.fetches (chan c : Dma ρ DbdmaChannel) 0 :=
    costs_bind costs_look fun m => costs_pure (m.chan c)
  exact (costs_bind hchan hf).mono (by omega)

/-- Nor does writing one. -/
theorem costs_setChan_bind {c : ChannelId} {g : DbdmaChannel → DbdmaChannel} {f : Unit → Dma ρ α}
    (hf : ∀ u, Costs Event.fetches (f u) k) : Costs Event.fetches (setChan c g >>= f) k :=
  (costs_bind costs_setChan hf).mono (by omega)

/-! ## A hit -/

section Calls

variable {call : Frame → Dma ρ Unit} (hcall : ∀ f, Costs Event.fetches (call f) k)
include hcall

/-- Each arm of a control write comes to one frame at most. -/
theorem costs_flushArm {c : ChannelId} : Costs Event.fetches (flushArm call c) k :=
  costs_chan_bind fun _ => costs_ite
    (costs_setChan_bind fun _ => costs_ite (hcall _) (costs_pure_any _)) (costs_pure_any _)

theorem costs_wakeArm {c : ChannelId} : Costs Event.fetches (wakeArm call c) k :=
  costs_chan_bind fun _ => costs_ite
    (costs_setChan_bind fun _ => costs_ite (hcall _) (costs_pure_any _)) (costs_pure_any _)

theorem costs_startArm {c : ChannelId} {b : Bool} :
    Costs Event.fetches (startArm call c b) k :=
  costs_chan_bind fun _ => costs_ite (costs_setChan_bind fun _ => hcall _) (costs_pure_any _)

omit hcall in
theorem costs_stopArm {c : ChannelId} : Costs Event.fetches (stopArm c : Dma ρ Unit) k :=
  costs_chan_bind fun _ => costs_ite (costs_setChan.mono (Nat.zero_le k)) (costs_pure_any _)

/-- A control write goes through all four arms, and three of them may call. -/
theorem costs_channelControl {c : ChannelId} {native : U32} :
    Costs Event.fetches (channelControl call c native) (3 * k) := by
  refine costs_chan_bind fun before => costs_setChan_bind fun _ => ?_
  have harms := costs_bind (costs_flushArm (c := c) hcall) fun _ =>
    costs_bind (costs_wakeArm (c := c) hcall) fun _ =>
      costs_bind (costs_startArm (c := c) (b := before.has kRun) hcall) fun _ =>
        costs_stopArm (c := c) (k := 0)
  exact harms.mono (by omega)

/-- A hit is a control write, or a wake. -/
theorem costs_hit (stack : List Frame) (h : Hit) :
    Costs Event.fetches (hit call stack h) (3 * k) := by
  cases h with
  | reg c off v len =>
      refine costs_chan_bind fun ch => ?_
      split
      · refine (costs_bind (costs_note _) fun _ => costs_channelControl hcall).mono ?_
        simp only [Event.fetches]
        omega
      · exact costs_ite (costs_pure_any _) (costs_setChan.mono (Nat.zero_le _))
      · exact costs_setChan.mono (Nat.zero_le _)
      · exact costs_setChan.mono (Nat.zero_le _)
      · exact costs_setChan.mono (Nat.zero_le _)
      · exact costs_pure_any _
  | wake c =>
      refine costs_chan_bind fun ch => costs_ite ?_ (costs_pure_any _)
      refine (costs_bind (costs_note _) fun _ => hcall _).mono ?_
      simp only [Event.fetches]
      omega

end Calls

/-! ## A bus access -/

/-- What an access costs when a hit costs `s`. -/
def busCost (w : World ρ) (s : ℕ) : ℕ := (w.limit + 1) * s

variable {serve : Hit → Dma ρ Unit} {s : ℕ} (hserve : ∀ h, Costs Event.fetches (serve h) s)
include hserve

/-- An operation that may issue `n` hits. -/
theorem costs_act {n : ℕ} {f : ρ → Act ρ Hit α n} :
    Costs Event.fetches (act serve f) (n * s) :=
  (costs_bind costs_look fun m : Machine ρ => costs_exec hserve (f m.rest)).mono (by omega)

/-- An operation of the rest of the machine. -/
theorem costs_world {f : ρ → Act ρ Hit α w.limit} :
    Costs Event.fetches (act serve f) (busCost w s) :=
  (costs_act hserve).mono (Nat.mul_le_mul_right s (Nat.le_succ _))

/-- A read of memory hits nothing; a read elsewhere may. -/
theorem costs_busRead {pa : U32} {len : ℕ} :
    Costs Event.fetches (busRead w serve pa len) (busCost w s) := by
  refine (costs_bind costs_look fun m => (?_ : Costs _ _ (busCost w s))).mono (by omega)
  split
  · exact (costs_bind (costs_change _) fun _ => costs_pure _).mono (Nat.zero_le _)
  · exact costs_world hserve

omit hserve in
/-- The wake of a drive's channel after a store to the drive. -/
def wakeOf (serve : Hit → Dma ρ Unit) (o : Option ChannelId) : Dma ρ Unit :=
  match o with
  | some c => serve (.wake c)
  | none => pure ()

/-- A write hits a channel, or a drive and then its channel, or goes to the rest of the machine.
-/
theorem costs_busWrite {pa v : U32} {len : ℕ} :
    Costs Event.fetches (busWrite w serve pa v len) (busCost w s) := by
  have hone : s ≤ busCost w s := Nat.le_mul_of_pos_left s (Nat.succ_pos _)
  refine (costs_bind costs_look fun m => (?_ : Costs _ _ (busCost w s))).mono (by omega)
  split
  · exact (costs_bind (costs_change _) fun _ => hserve _).mono (by omega)
  · next d _ _ =>
      -- the store itself, and the wake of the drive's channel
      have hwake : Costs Event.fetches (wakeOf serve d.channel) s := by
        cases hc : d.channel with
        | some c => exact hserve _
        | none => exact costs_pure_any _
      refine (costs_bind (costs_act hserve) fun _ => hwake).mono ?_
      rw [busCost, Nat.succ_mul]
  · exact costs_world hserve

theorem costs_rd32le {pa : U32} : Costs Event.fetches (rd32le w serve pa) (busCost w s) :=
  (costs_bind (costs_busRead hserve) fun _ => costs_pure _).mono (by omega)

/-- The status of a descriptor is one write. -/
theorem costs_complete {c : ChannelId} {residual : U32} :
    Costs Event.fetches (complete w serve c residual) (busCost w s) :=
  costs_chan_bind fun _ => costs_busWrite hserve

theorem costs_complete_done {c : ChannelId} {residual moved : U32} :
    Costs Event.fetches (do complete w serve c residual; pure (Fate.done moved)) (busCost w s) :=
  (costs_bind (costs_complete hserve) fun _ => costs_pure _).mono (by omega)

/-! ## A turn -/

/-- A turn: the descriptor, its data, and what goes with them. -/
def turnCost (w : World ρ) (s : ℕ) : ℕ := 1 + (2 ^ 32 + 9) * busCost w s

omit hserve in
/-- No transfer is longer than a word can say. -/
theorem length_le_word (n : U32) (bs : Supply n) : bs.val.length ≤ 2 ^ 32 :=
  bs.property.trans (Nat.le_of_lt n.isLt)

omit hserve in
theorem costs_note_request (r : Request) :
    Costs Event.fetches (note (.request r) : Dma ρ Unit) 0 :=
  costs_note _

/-- An input takes its bytes from the device and stores them one by one, -/
theorem costs_takeBytes {c : ChannelId} {d : Desc} :
    Costs Event.fetches (takeBytes w serve c d) ((2 ^ 32 + 2) * busCost w s) := by
  refine costs_chan_bind fun ch => ?_
  split
  · next dev _ =>
      have hstore (tmp : Supply (d.req - ch.xferDone)) (l : List U32) :
          Costs Event.fetches (forEach (l.zip tmp.val) fun p =>
            busWrite w serve p.1 (p.2.setWidth 32) 1) (2 ^ 32 * busCost w s) := by
        refine (costs_forEach (fun _ => costs_busWrite hserve) _).mono ?_
        refine Nat.mul_le_mul_right _ ?_
        rw [List.length_zip]
        exact (Nat.min_le_right _ _).trans (length_le_word _ tmp)
      refine Costs.mono (costs_bind (costs_world hserve) fun tmp =>
        costs_bind (costs_note_request _) fun _ => costs_bind (costs_world hserve) fun _ =>
          costs_bind (hstore tmp _) fun _ => costs_pure _) ?_
      omega
  · exact costs_pure_any _

/-- and completes, or parks. -/
theorem costs_input {c : ChannelId} {d : Desc} :
    Costs Event.fetches (input w serve c d) ((2 ^ 32 + 3) * busCost w s) := by
  have hrest (moved : U32) (ch : DbdmaChannel) : Costs Event.fetches
      (if ch.xferDone < d.req then
        if ch.xferDone = 0#32 then pure .park
        else do
          let stall ← streams w c
          if stall then pure .park
          else do
            complete w serve c (d.req - ch.xferDone)
            pure (.done moved)
      else do
        complete w serve c 0#32
        pure (.done moved) : Dma ρ Fate) (busCost w s) := by
    refine costs_ite (costs_ite (costs_pure_any _) ?_) (costs_complete_done hserve)
    refine (costs_bind (k := 0) (costs_bind costs_look fun m => costs_pure _) fun stall =>
      costs_ite (costs_pure_any _) (costs_complete_done hserve)).mono (by omega)
  refine (costs_bind (costs_takeBytes hserve) fun moved => costs_setChan_bind fun _ =>
    costs_chan_bind fun ch => hrest moved ch).mono ?_
  omega

/-- An output reads its bytes one by one, and completes, or parks. -/
theorem costs_output {c : ChannelId} {d : Desc} :
    Costs Event.fetches (output w serve c d) ((2 ^ 32 + 3) * busCost w s) := by
  have hread (l : List U32) (n : U32) (hl : l.length = n.toNat) : Costs Event.fetches
      (collect l fun a => do
        let x ← busRead w serve a 1
        pure (x.setWidth 8 : U8) : Dma ρ (List U8)) (2 ^ 32 * busCost w s) := by
    refine (costs_collect (fun a => (costs_bind (costs_busRead hserve) fun _ =>
      costs_pure _)) l).mono ?_
    rw [hl, Nat.add_zero]
    exact Nat.mul_le_mul_right _ (Nat.le_of_lt n.isLt)
  have hrest (moved : U32) (ch : DbdmaChannel) : Costs Event.fetches
      (if ch.xferDone = 0#32 then pure .park
      else do
        let stall ← streams w c
        if ch.xferDone < d.req && stall then pure .park
        else do
          complete w serve c (d.req - ch.xferDone)
          pure (.done moved) : Dma ρ Fate) (busCost w s) := by
    refine costs_ite (costs_pure_any _) ?_
    refine (costs_bind (k := 0) (costs_bind costs_look fun m => costs_pure _) fun stall =>
      costs_ite (costs_pure_any _) (costs_complete_done hserve)).mono (by omega)
  refine (costs_bind (k := 0) costs_look fun m =>
    (?_ : Costs _ _ ((2 ^ 32 + 3) * busCost w s))).mono (by omega)
  split
  · refine costs_chan_bind fun ch => ?_
    refine Costs.mono (costs_bind (costs_note_request _) fun _ =>
      costs_bind (costs_world hserve) fun _ => costs_bind (hread _ (d.req - ch.xferDone) ?_)
        fun tmp => costs_bind (costs_world hserve) fun taken => costs_setChan_bind fun _ =>
          costs_chan_bind fun ch => hrest _ ch) ?_
    · simp [addresses]
    · omega
  · exact (costs_complete_done hserve).mono (by omega)

/-- A literal: one write, and the status. -/
theorem costs_storeQuad {c : ChannelId} {d : Desc} :
    Costs Event.fetches (storeQuad w serve c d) (4 * busCost w s) := by
  refine costs_chan_bind fun ch => ?_
  have hend (pa v : U32) (len : ℕ) : Costs Event.fetches (do
      busWrite w serve pa v len
      complete w serve c 0#32
      pure (.done 0#32) : Dma ρ Fate) (2 * busCost w s) :=
    (costs_bind (costs_busWrite hserve) fun _ => costs_complete_done hserve).mono (by omega)
  refine (costs_bind (costs_rd32le hserve) fun lit => costs_bind (costs_world hserve) fun _ =>
    costs_ite (hend _ _ _) (costs_ite (hend _ _ _) (hend _ _ _))).mono (by omega)

/-- The bytes of a quad are read in at most two accesses. -/
theorem costs_loadImage {addr : U32} {size : ℕ} :
    Costs Event.fetches (loadImage w serve addr size) (2 * busCost w s) := by
  refine costs_ite ((costs_busRead hserve).mono (by omega)) (costs_ite ?_ ?_)
  · exact (costs_bind (costs_busRead hserve) fun _ =>
      costs_bind (costs_busRead hserve) fun _ => costs_pure _).mono (by omega)
  · exact (costs_bind (costs_busRead hserve) fun _ => costs_pure _).mono (by omega)

theorem costs_loadQuad {c : ChannelId} {d : Desc} :
    Costs Event.fetches (loadQuad w serve c d) (5 * busCost w s) :=
  (costs_bind (costs_world hserve) fun _ => costs_bind (costs_loadImage hserve) fun _ =>
    costs_chan_bind fun _ => costs_bind (costs_busWrite hserve) fun _ =>
      costs_complete_done hserve).mono (by omega)

/-- Every command is bounded by the longest transfer. -/
theorem costs_command {c : ChannelId} {d : Desc} :
    Costs Event.fetches (command w serve c d) ((2 ^ 32 + 5) * busCost w s) := by
  unfold command
  split
  · exact costs_setChan_bind fun _ => costs_pure_any _
  · exact (costs_input hserve).mono (by omega)
  · exact (costs_input hserve).mono (by omega)
  · exact (costs_output hserve).mono (by omega)
  · exact (costs_output hserve).mono (by omega)
  · exact (costs_storeQuad hserve).mono (by omega)
  · exact (costs_loadQuad hserve).mono (by omega)
  · exact (costs_complete_done hserve).mono (by omega)
  · exact costs_setChan_bind fun _ => costs_pure_any _

/-- The fetch itself, and three accesses around it. -/
theorem costs_fetch {c : ChannelId} :
    Costs Event.fetches (fetch w serve c) (1 + 3 * busCost w s) := by
  refine costs_chan_bind fun _ => ?_
  have hend (w0 : U32) (ch : DbdmaChannel) : Costs Event.fetches (do
      let addr ← rd32le w serve (ch.cmdPtr + 4#32)
      let ch ← chan c
      note (.fetch c ch.cmdPtr w0 ch.xferDone)
      pure ⟨w0, addr⟩ : Dma ρ Desc) (busCost w s + 1) :=
    costs_bind (costs_rd32le hserve) fun addr => costs_chan_bind fun _ =>
      costs_bind (costs_note _) fun _ => costs_pure _
  refine (costs_bind (costs_world hserve) fun _ => costs_chan_bind fun _ =>
    costs_bind (costs_rd32le hserve) fun w0 => costs_chan_bind fun ch => hend w0 ch).mono ?_
  omega

/-- The branch is one read. -/
theorem costs_advance {c : ChannelId} {d : Desc} :
    Costs Event.fetches (advance w serve c d) (busCost w s) := by
  refine costs_setChan_bind fun _ => costs_chan_bind fun ch => costs_ite ?_ ?_
  · exact (costs_bind (costs_rd32le hserve) fun _ => costs_setChan).mono (by omega)
  · exact costs_setChan.mono (Nat.zero_le _)

omit hserve in
/-- The rest of a turn, once the command is done or has to wait. -/
def afterCommand (w : World ρ) (serve : Hit → Dma ρ Unit) (c : ChannelId) (n : ℕ) (idle : U32)
    (d : Desc) : Fate → Dma ρ Unit
  | .park => pure ()
  | .done moved => do
      advance w serve c d
      if moved ≠ 0#32 then turns w serve c n 0#32
      else if 512#32 < idle + 1#32 then pure ()
      else turns w serve c n (idle + 1#32)

/-- So many turns, by induction on their number. -/
theorem costs_turns {c : ChannelId} (n : ℕ) :
    ∀ idle, Costs Event.fetches (turns w serve c n idle) (n * turnCost w s) := by
  induction n with
  | zero => exact fun _ => costs_pure_any _
  | succ n ih =>
      intro idle
      have hnext (d : Desc) (moved : U32) : Costs Event.fetches (do
          advance w serve c d
          if moved ≠ 0#32 then turns w serve c n 0#32
          else if 512#32 < idle + 1#32 then pure ()
          else turns w serve c n (idle + 1#32) : Dma ρ Unit)
          (busCost w s + n * turnCost w s) :=
        costs_bind (costs_advance hserve) fun _ =>
          costs_ite (ih _) (costs_ite (costs_pure_any _) (ih _))
      have hfate (d : Desc) (fate : Fate) :
          Costs Event.fetches (afterCommand w serve c n idle d fate)
            (busCost w s + n * turnCost w s) := by
        cases fate with
        | park => exact costs_pure_any _
        | done moved => exact hnext d moved
      refine costs_chan_bind fun _ => costs_ite (costs_pure_any _) ?_
      refine (costs_bind (costs_fetch hserve) fun d => costs_bind (costs_command hserve) fun fate =>
        hfate d fate).mono ?_
      have hsucc : (n + 1) * turnCost w s = n * turnCost w s + turnCost w s := Nat.succ_mul _ _
      rw [hsucc, turnCost]
      omega

/-- A frame runs the engine, or flushes. -/
theorem costs_body (f : Frame) :
    Costs Event.fetches (body w serve f) (65536 * turnCost w s) := by
  cases f with
  | run c => exact costs_turns hserve 65536 0#32
  | flush c =>
      have hend (ch : DbdmaChannel) (w0 : U32) : Costs Event.fetches (do
          wr32le w serve (ch.cmdPtr + 12#32)
            ((0x8400#32 <<< 16) ||| (((w0 &&& 0xFFFF#32) - ch.xferDone) &&& 0xFFFF#32))
          setChan c stopped : Dma ρ Unit) (busCost w s) :=
        (costs_bind (costs_busWrite hserve) fun _ => costs_setChan).mono (by omega)
      refine (costs_chan_bind fun _ => costs_bind (costs_world hserve) fun _ =>
        costs_chan_bind fun _ => costs_bind (costs_rd32le hserve) fun w0 =>
          costs_chan_bind fun ch => hend ch w0).mono ?_
      rw [turnCost]
      omega

/-! ## An activation -/

/-- What a frame costs with `d` levels left. -/
def frameCost (w : World ρ) : ℕ → ℕ
  | 0 => 0
  | d + 1 => 65536 * turnCost w (3 * frameCost w d)

omit hserve in
/-- By induction on the levels left: what a frame calls has one level fewer. -/
theorem costs_enter (d : ℕ) :
    ∀ stack f, Costs Event.fetches (enter w d stack f) (frameCost w d) := by
  induction d with
  | zero => exact fun stack f => costs_bind (costs_note _) fun _ => costs_quit
  | succ d ih =>
      intro stack f
      refine (costs_bind (costs_note _) fun _ => costs_body (costs_hit (ih _) _) f).mono ?_
      simp only [Event.fetches, frameCost]
      omega

omit hserve in
/-- **The descriptors of an activation are bounded.** -/
theorem costs_op (d : ℕ) (op : Op ρ) :
    Costs Event.fetches (op.exec w d) (busCost w (3 * frameCost w d)) := by
  cases op with
  | write pa v len => exact costs_busWrite (costs_hit (costs_enter d []) [])
  | wake c =>
      refine (costs_hit (costs_enter d []) [] (.wake c)).mono ?_
      exact Nat.le_mul_of_pos_left _ (Nat.succ_pos _)
  | guest f => exact (costs_change _).mono (Nat.zero_le _)

end Dma

end OpenPowerMac
