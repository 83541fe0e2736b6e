/-
What a turn of the engine keeps.

The engine changes the rest of the machine, its own channel, and, through what its
bus accesses hit, any channel. `Stable` collects what a property of the machine
must be closed under for a turn of channel `c` to keep it: of its own channel the
engine changes anything but the status, except where it stops. `meets_turns` is
the loop: a stable property holds whenever the engine goes on, and what follows
from it at a park, a STOP or an illegal command holds in the end.
-/
import OpenPowerMac.Dbdma

set_option autoImplicit false

namespace OpenPowerMac

open Trace Trace.Prog DbdmaChannel

/-- The addresses a request touches lie behind its cursor, as many as it asks for,
and it asks for the rest of the descriptor, in 32 bits. -/
def Request.Sound (r : Request) : Prop :=
  r.want = r.req - r.cursor
    ∧ ∀ a ∈ r.touched, ∃ k < r.want.toNat, a = r.addr + r.cursor + BitVec.ofNat 32 k

/-- A request is inside its buffer; nothing is asked of the other events. -/
def Event.Sound : Event → Prop
  | .request r => r.Sound
  | _ => True

namespace Dma

variable {ρ α : Type} {P : Pact Event} {serve : Hit → Dma ρ Unit} {c : ChannelId}
  {I J : Machine ρ → Prop} {m : Machine ρ} {w : World ρ}

/-- What a property of the machine is closed under while channel `c` runs. -/
structure Stable (P : Pact Event) (serve : Hit → Dma ρ Unit) (c : ChannelId)
    (I : Machine ρ → Prop) : Prop where
  keep : ∀ e : Event, e.Sound → P.keep e
  rest : ∀ r m, I m → I { m with rest := r }
  own : ∀ f m, (∀ ch, (f ch).status = ch.status) → I m → I (m.setChan c f)
  serve : ∀ h m, I m → Meets P (serve h) m fun _ => I

theorem meets_chan {Q : DbdmaChannel → Machine ρ → Prop} {c' : ChannelId}
    (h : Q (m.chan c') m) : Meets P (chan c' : Dma ρ DbdmaChannel) m Q :=
  meets_bind (meets_look.mpr (meets_pure.mpr h))

theorem meets_streams {Q : Bool → Machine ρ → Prop} (h : ∀ b, Q b m) :
    Meets P (streams w c) m Q :=
  meets_bind (meets_look.mpr (meets_pure.mpr (h _)))

/-- The addresses from the cursor on are the request's. -/
theorem sound_addresses {req addr cursor : U32} {n : ℕ} (hn : n ≤ (req - cursor).toNat) :
    Request.Sound ⟨c, req, addr, cursor, req - cursor, addresses (addr + cursor) n⟩ := by
  refine ⟨rfl, fun a ha => ?_⟩
  obtain ⟨k, hk, rfl⟩ := List.mem_map.mp ha
  exact ⟨k, (List.mem_range.mp hk).trans_le hn, rfl⟩

namespace Stable

variable (hI : Stable P serve c I)
include hI

/-- An operation of the rest of the machine, with the hits it issues. -/
theorem meets_act {n : ℕ} {f : ρ → Act ρ Hit α n} (hm : I m) :
    Meets P (act serve f) m fun _ => I :=
  meets_bind (meets_look.mpr (meets_exec (fun r m h => hI.rest r m h) hI.serve _ hm))

/-- What a frame does to its own channel without touching its status. -/
theorem meets_own {f : DbdmaChannel → DbdmaChannel} (hf : ∀ ch, (f ch).status = ch.status)
    (hm : I m) : Meets P (setChan c f : Dma ρ Unit) m fun _ => I :=
  meets_change.mpr (hI.own f m hf hm)

theorem meets_busRead {pa : U32} {len : ℕ} (hm : I m) :
    Meets P (busRead w serve pa len) m fun _ => I := by
  refine meets_bind (meets_look.mpr ?_)
  split
  · exact meets_bind (meets_change.mpr (meets_pure.mpr (hI.rest _ _ hm)))
  · exact hI.meets_act hm

/-- A write of memory, of a register, or of a drive and then its wake. -/
theorem meets_busWrite {pa v : U32} {len : ℕ} (hm : I m) :
    Meets P (busWrite w serve pa v len) m fun _ => I := by
  refine meets_bind (meets_look.mpr ?_)
  split
  · exact meets_bind (meets_change.mpr (hI.serve _ _ (hI.rest _ _ hm)))
  · refine meets_bind ((hI.meets_act hm).mono fun _ m' h => ?_)
    split
    · exact hI.serve _ _ h
    · exact meets_pure.mpr h
  · exact hI.meets_act hm

theorem meets_rd32le {pa : U32} (hm : I m) : Meets P (rd32le w serve pa) m fun _ => I :=
  meets_bind ((hI.meets_busRead hm).mono fun _ _ h => meets_pure.mpr h)

theorem meets_complete {residual : U32} (hm : I m) :
    Meets P (complete w serve c residual) m fun _ => I :=
  meets_bind (meets_chan (hI.meets_busWrite hm))

/-- The end of a descriptor that goes on. -/
theorem meets_complete_done {residual moved : U32} (hm : I m) :
    Meets P (do complete w serve c residual; pure (Fate.done moved)) m fun _ => I :=
  meets_bind ((hI.meets_complete hm).mono fun _ _ h => meets_pure.mpr h)

/-- Asking a device: the request is sound when the addresses are those from the
cursor on, as many as the device may be asked for. -/
theorem meets_request {Q : Unit → Machine ρ → Prop} {req addr cursor : U32} {n : ℕ}
    (hn : n ≤ (req - cursor).toNat) (h : Q () m) :
    Meets P (note (.request ⟨c, req, addr, cursor, req - cursor, addresses (addr + cursor) n⟩)) m
      Q :=
  meets_note.mpr fun _ => ⟨hI.keep _ (sound_addresses hn), h⟩

/-- The bytes of an input, stored one by one. -/
theorem meets_takeBytes {d : Desc} (hm : I m) :
    Meets P (takeBytes w serve c d) m fun _ => I := by
  unfold takeBytes
  refine meets_bind (meets_chan ?_)
  split
  · refine meets_bind ((hI.meets_act hm).mono fun tmp m₁ h₁ => ?_)
    refine meets_bind (hI.meets_request tmp.property ?_)
    refine meets_bind ((hI.meets_act h₁).mono fun _ m₂ h₂ => ?_)
    refine meets_bind ((meets_forEach (I := I) ?_ _ h₂).mono fun _ m₃ h₃ => ?_)
    · rintro ⟨a, x⟩ m h
      exact hI.meets_busWrite h
    · exact meets_pure.mpr h₃
  · exact meets_pure.mpr hm

theorem meets_input {d : Desc} (hm : I m) : Meets P (input w serve c d) m fun _ => I := by
  unfold input
  refine meets_bind ((hI.meets_takeBytes hm).mono fun moved m₁ h₁ => ?_)
  refine meets_bind (Meets.mono (hI.meets_own (by intro; rfl) h₁) fun _ m₂ h₂ => ?_)
  refine meets_bind (meets_chan ?_)
  split_ifs
  · exact meets_pure.mpr h₂
  · refine meets_bind (meets_streams fun stall => ?_)
    split_ifs
    · exact meets_pure.mpr h₂
    · exact hI.meets_complete_done h₂
  · exact hI.meets_complete_done h₂

theorem meets_output {d : Desc} (hm : I m) : Meets P (output w serve c d) m fun _ => I := by
  unfold output
  refine meets_bind (meets_look.mpr ?_)
  split
  · refine meets_bind (meets_chan ?_)
    refine meets_bind (hI.meets_request (Nat.le_refl _) ?_)
    refine meets_bind ((hI.meets_act hm).mono fun _ m₁ h₁ => ?_)
    refine meets_bind ((meets_collect (I := I) ?_ _ h₁).mono fun tmp m₂ h₂ => ?_)
    · intro a m h
      exact meets_bind ((hI.meets_busRead h).mono fun _ _ h => meets_pure.mpr h)
    refine meets_bind ((hI.meets_act h₂).mono fun taken m₃ h₃ => ?_)
    refine meets_bind (Meets.mono (hI.meets_own (by intro; rfl) h₃) fun _ m₄ h₄ => ?_)
    refine meets_bind (meets_chan ?_)
    split_ifs
    · exact meets_pure.mpr h₄
    · refine meets_bind (meets_streams fun stall => ?_)
      split_ifs
      · exact meets_pure.mpr h₄
      · exact hI.meets_complete_done h₄
  · exact hI.meets_complete_done hm

theorem meets_storeQuad {d : Desc} (hm : I m) :
    Meets P (storeQuad w serve c d) m fun _ => I := by
  unfold storeQuad
  refine meets_bind (meets_chan ?_)
  refine meets_bind ((hI.meets_rd32le hm).mono fun lit m₁ h₁ => ?_)
  refine meets_bind ((hI.meets_act h₁).mono fun _ m₂ h₂ => ?_)
  split_ifs
  · exact meets_bind ((hI.meets_busWrite h₂).mono fun _ _ h => hI.meets_complete_done h)
  · exact meets_bind ((hI.meets_busWrite h₂).mono fun _ _ h => hI.meets_complete_done h)
  · exact meets_bind ((hI.meets_busWrite h₂).mono fun _ _ h => hI.meets_complete_done h)

theorem meets_loadImage {addr : U32} {size : ℕ} (hm : I m) :
    Meets P (loadImage w serve addr size) m fun _ => I := by
  unfold loadImage
  split_ifs
  · exact hI.meets_busRead hm
  · refine meets_bind ((hI.meets_busRead hm).mono fun _ m₁ h₁ => ?_)
    exact meets_bind ((hI.meets_busRead h₁).mono fun _ _ h => meets_pure.mpr h)
  · exact meets_bind ((hI.meets_busRead hm).mono fun _ _ h => meets_pure.mpr h)

theorem meets_loadQuad {d : Desc} (hm : I m) : Meets P (loadQuad w serve c d) m fun _ => I := by
  unfold loadQuad
  refine meets_bind ((hI.meets_act hm).mono fun _ m₁ h₁ => ?_)
  refine meets_bind ((hI.meets_loadImage h₁).mono fun img m₂ h₂ => ?_)
  refine meets_bind (meets_chan ?_)
  exact meets_bind ((hI.meets_busWrite h₂).mono fun _ _ h => hI.meets_complete_done h)

/-- The fetch ends where it logged: the pointer, the first word and the cursor. -/
theorem meets_fetch (hm : I m) : Meets P (fetch w serve c) m fun d m' =>
    I m' ∧ P.rely (.fetch c (m'.chan c).cmdPtr d.w0 (m'.chan c).xferDone) := by
  unfold fetch
  refine meets_bind (meets_chan ?_)
  refine meets_bind ((hI.meets_act hm).mono fun _ m₁ h₁ => ?_)
  refine meets_bind (meets_chan ?_)
  refine meets_bind ((hI.meets_rd32le h₁).mono fun w0 m₂ h₂ => ?_)
  refine meets_bind (meets_chan ?_)
  refine meets_bind ((hI.meets_rd32le h₂).mono fun addr m₃ h₃ => ?_)
  refine meets_bind (meets_chan ?_)
  refine meets_bind (meets_note.mpr fun hr => ⟨hI.keep _ trivial, ?_⟩)
  exact meets_pure.mpr ⟨h₃, hr⟩

theorem meets_goOn {d : Desc} (hm : I m) : Meets P (goOn w serve c d) m fun _ => I := by
  unfold goOn
  refine meets_bind (meets_chan ?_)
  split_ifs
  · refine meets_bind ((hI.meets_rd32le hm).mono fun target m₁ h₁ => ?_)
    exact hI.meets_own (by intro; rfl) h₁
  · exact hI.meets_own (by intro; rfl) hm

theorem meets_advance {d : Desc} (hm : I m) : Meets P (advance w serve c d) m fun _ => I := by
  unfold advance
  refine meets_bind (Meets.mono (hI.meets_own ?_ hm) fun _ m₁ h₁ => hI.meets_goOn h₁)
  intro ch
  rfl

end Stable

/-! ## The loop -/

/-- What an illegal command leaves of the channel. -/
def dead (ch : DbdmaChannel) : DbdmaChannel := (ch.setStatus kDead).clearStatus kActive

/-- What holds when the engine stops: what was stable, at a park, and what a STOP
and an illegal command make of it. -/
structure Stops (P : Pact Event) (c : ChannelId) (I J : Machine ρ → Prop) : Prop where
  park : ∀ m, I m → J m
  stop : ∀ m, I m → J (m.setChan c stopped)
  dead : ∀ m (d : Desc), I m → P.rely (.fetch c (m.chan c).cmdPtr d.w0 (m.chan c).xferDone) →
    7 < d.op → J (m.setChan c dead)

/-- Every command, of which a stop may go to `J`. -/
theorem meets_command (hI : Stable P serve c I) (hJ : Stops P c I J) {d : Desc} (hm : I m)
    (hr : P.rely (.fetch c (m.chan c).cmdPtr d.w0 (m.chan c).xferDone)) :
    Meets P (command w serve c d) m fun fate m' => match fate with
      | .park => J m'
      | .done _ => I m' := by
  have hgoes : ∀ (fate : Fate) (m' : Machine ρ), I m' → (match fate with
      | .park => J m'
      | .done _ => I m') := by
    rintro (_ | moved) m' h
    · exact hJ.park m' h
    · exact h
  unfold command
  split
  · exact meets_bind (meets_change.mpr (meets_pure.mpr (hJ.stop m hm)))
  · exact (hI.meets_input hm).mono hgoes
  · exact (hI.meets_input hm).mono hgoes
  · exact (hI.meets_output hm).mono hgoes
  · exact (hI.meets_output hm).mono hgoes
  · exact (hI.meets_storeQuad hm).mono hgoes
  · exact (hI.meets_loadQuad hm).mono hgoes
  · exact (hI.meets_complete_done hm).mono hgoes
  · next h7 h2 h3 h0 h1 h4 h5 h6 =>
      rw [imp_false] at h7 h2 h3 h0 h1 h4 h5 h6
      exact meets_bind (meets_change.mpr (meets_pure.mpr (hJ.dead m d hm hr (by omega))))

/-- **The loop of `run`.** -/
theorem meets_turns (hI : Stable P serve c I) (hJ : Stops P c I J) (n : ℕ) :
    ∀ (idle : U32) (m : Machine ρ), I m → Meets P (turns w serve c n idle) m fun _ => J := by
  induction n with
  | zero => exact fun idle m hm => meets_pure.mpr (hJ.park m hm)
  | succ n ih =>
      intro idle m hm
      unfold turns
      refine meets_bind (meets_chan ?_)
      by_cases hrun : (!(m.chan c).has kRun) = true
      · rw [if_pos hrun]
        exact meets_pure.mpr (hJ.park m hm)
      · rw [if_neg hrun]
        refine meets_bind ((hI.meets_fetch hm).mono fun d m₁ h₁ => ?_)
        refine meets_bind ((meets_command hI hJ h₁.1 h₁.2).mono fun fate m₂ h₂ => ?_)
        rcases fate with _ | moved
        · exact meets_pure.mpr h₂
        · refine meets_bind ((hI.meets_advance h₂).mono fun _ m₃ h₃ => ?_)
          split_ifs
          · exact ih _ m₃ h₃
          · exact meets_pure.mpr (hJ.park m₃ h₃)
          · exact ih _ m₃ h₃

/-- A whole `run`, all of its turns. -/
theorem meets_run (hI : Stable P serve c I) (hJ : Stops P c I J) (hm : I m) :
    Meets P (run w serve c) m fun _ => J :=
  meets_turns hI hJ 65536 0#32 m hm

/-- A flush ends where a STOP does. -/
theorem meets_flush (hI : Stable P serve c I) (hJ : ∀ m, I m → J (m.setChan c stopped))
    (hm : I m) : Meets P (flush w serve c) m fun _ => J := by
  unfold flush
  refine meets_bind (meets_chan ?_)
  refine meets_bind ((hI.meets_act hm).mono fun _ m₁ h₁ => ?_)
  refine meets_bind (meets_chan ?_)
  refine meets_bind ((hI.meets_rd32le h₁).mono fun w0 m₂ h₂ => ?_)
  refine meets_bind (meets_chan ?_)
  refine meets_bind ((hI.meets_busWrite h₂).mono fun _ m₃ h₃ => ?_)
  exact meets_change.mpr (hJ m₃ h₃)

end Dma

end OpenPowerMac
