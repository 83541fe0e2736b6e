/-
A channel parked inside a descriptor, and what can strand it.

`xferDone` is only worth something to a channel that is RUN and ACTIVE: no other is
woken, and no other keeps its command pointer. `run` does not look at ACTIVE, so it
is the ways into it that must see to that. `Steady` lists what they must not be:
a control write that takes ACTIVE from under a cursor or wakes a channel without
it, an illegal command in place of a half-done descriptor, and a control write or
a wake of a channel whose own `run` or flush is still open. Between these, every
channel that holds a cursor can be resumed (`parked_resumable`).
-/
import OpenPowerMac.DbdmaRequests

set_option autoImplicit false

namespace OpenPowerMac

open Trace Trace.Prog DbdmaChannel

/-- A channel that holds a cursor is RUN and ACTIVE. -/
def DbdmaChannel.Resumable (ch : DbdmaChannel) : Prop :=
  ch.xferDone ≠ 0#32 → ch.parked = true

/-- The control write leaves a running channel's ACTIVE alone while there is a
cursor, and wakes it only while it is ACTIVE and stays so. -/
def DbdmaChannel.Tame (before : DbdmaChannel) (native : U32) : Prop :=
  let after := before.latch native
  before.has kRun = true → after.has kRun = true →
    (before.xferDone ≠ 0#32 → after.has kActive = true)
      ∧ (after.has kWake = true →
        after.has kActive = true ∧ (after.has kFlush = true → after.cmdPtr = 0#32))

instance (before : DbdmaChannel) (native : U32) : Decidable (before.Tame native) := by
  unfold DbdmaChannel.Tame
  infer_instance

/-- An activation of the channel is open. -/
def Busy (stack : List Frame) (c : ChannelId) : Prop :=
  Frame.run c ∈ stack ∨ Frame.flush c ∈ stack

instance (stack : List Frame) (c : ChannelId) : Decidable (Busy stack c) := by
  unfold Busy
  infer_instance

def Event.Steady : Event → Prop
  | .control c stack before native => ¬ Busy stack c ∧ before.Tame native
  | .wake c stack => ¬ Busy stack c
  | .fetch _ _ w0 cursor => 7 < (w0 >>> 28).toNat → cursor = 0#32
  | _ => True

instance : DecidablePred Event.Steady
  | .control c stack before native =>
      inferInstanceAs (Decidable (¬ Busy stack c ∧ before.Tame native))
  | .wake c stack => inferInstanceAs (Decidable (¬ Busy stack c))
  | .fetch _ _ w0 cursor => inferInstanceAs (Decidable (7 < (w0 >>> 28).toNat → cursor = 0#32))
  | .enter .. | .request .. => isTrue trivial

namespace Dma

variable {ρ : Type} {w : World ρ} {m m₁ m₂ : Machine ρ} {c : ChannelId} {stack : List Frame}

/-- What the log is relied on for. Giving up is allowed: only ends count here. -/
def steady : Pact Event := ⟨Event.Steady, fun _ => True, True⟩

/-! ## What nested operations keep -/

/-- A busy channel's status and cursor do not move; another stays resumable. -/
def KeptAt (stack : List Frame) (c : ChannelId) (m m' : Machine ρ) : Prop :=
  if Busy stack c then
    (m'.chan c).status = (m.chan c).status ∧ (m'.chan c).xferDone = (m.chan c).xferDone
  else (m.chan c).Resumable → (m'.chan c).Resumable

def Kept (stack : List Frame) (m m' : Machine ρ) : Prop := ∀ c, KeptAt stack c m m'

/-- Kept but for one channel. -/
def KeptBut (c : ChannelId) (stack : List Frame) (m m' : Machine ρ) : Prop :=
  ∀ c', c' ≠ c → KeptAt stack c' m m'

theorem KeptAt.refl (stack : List Frame) (c : ChannelId) (m : Machine ρ) :
    KeptAt stack c m m := by
  unfold KeptAt
  split_ifs
  · exact ⟨rfl, rfl⟩
  · exact id

theorem KeptAt.trans (h₁ : KeptAt stack c m m₁) (h₂ : KeptAt stack c m₁ m₂) :
    KeptAt stack c m m₂ := by
  unfold KeptAt at *
  split_ifs at *
  · exact ⟨h₂.1.trans h₁.1, h₂.2.trans h₁.2⟩
  · exact h₂ ∘ h₁

/-- A change that leaves the status and the cursor is kept anywhere. -/
theorem KeptAt.of_eq (hs : (m₁.chan c).status = (m.chan c).status)
    (hx : (m₁.chan c).xferDone = (m.chan c).xferDone) : KeptAt stack c m m₁ := by
  unfold KeptAt
  split_ifs
  · exact ⟨hs, hx⟩
  · intro h hne
    rw [hx] at hne
    have hp := h hne
    unfold parked has at hp ⊢
    rwa [hs]

theorem KeptBut.trans (h₁ : KeptBut c stack m m₁) (h₂ : KeptBut c stack m₁ m₂) :
    KeptBut c stack m m₂ :=
  fun c' hne => (h₁ c' hne).trans (h₂ c' hne)

theorem KeptBut.refl (c : ChannelId) (stack : List Frame) (m : Machine ρ) :
    KeptBut c stack m m :=
  fun c' _ => KeptAt.refl stack c' m

theorem chan_setChan_self {f : DbdmaChannel → DbdmaChannel} :
    (m.setChan c f).chan c = f (m.chan c) :=
  Function.update_self _ _ _

theorem chan_setChan_ne {c' : ChannelId} (h : c' ≠ c) {f : DbdmaChannel → DbdmaChannel} :
    (m.setChan c f).chan c' = m.chan c' :=
  Function.update_of_ne h _ _

/-- Changing the channel itself does not count. -/
theorem KeptBut.setChan (h : KeptBut c stack m m₁) (f : DbdmaChannel → DbdmaChannel) :
    KeptBut c stack m (m₁.setChan c f) := by
  intro c' hne
  refine (h c' hne).trans (KeptAt.of_eq ?_ ?_) <;> rw [chan_setChan_ne hne]

theorem KeptBut.kept (h : KeptBut c stack m m₁) (hc : ¬ Busy stack c)
    (hr : (m.chan c).Resumable → (m₁.chan c).Resumable) : Kept stack m m₁ := by
  intro c'
  by_cases heq : c' = c
  · rw [heq, KeptAt, if_neg hc]
    exact hr
  · exact h c' heq

/-- Inside a frame of the channel, another is busy if it was. -/
theorem busy_cons_iff {f : Frame} (hf : f = .run c ∨ f = .flush c) {c' : ChannelId}
    (hne : c' ≠ c) : Busy (f :: stack) c' ↔ Busy stack c' := by
  unfold Busy
  rcases hf with rfl | rfl <;> simp [hne]

theorem busy_cons_self {f : Frame} (hf : f = .run c ∨ f = .flush c) : Busy (f :: stack) c := by
  unfold Busy
  rcases hf with rfl | rfl <;> simp

/-- What is kept inside a frame of the channel, seen from outside it. -/
theorem Kept.outside {f : Frame} (hf : f = .run c ∨ f = .flush c) (h : Kept (f :: stack) m m₁) :
    KeptBut c stack m m₁ ∧ (m₁.chan c).status = (m.chan c).status
      ∧ (m₁.chan c).xferDone = (m.chan c).xferDone := by
  refine ⟨fun c' hne => ?_, ?_⟩
  · have hc' := h c'
    unfold KeptAt at hc' ⊢
    rwa [if_congr (busy_cons_iff hf hne) rfl rfl] at hc'
  · have hc := h c
    rwa [KeptAt, if_pos (busy_cons_self hf)] at hc

/-! ## Status bits -/

theorem has_clearStatus {ch : DbdmaChannel} {b bit : U32} (h : ~~~b &&& bit = bit) :
    (ch.clearStatus b).has bit = ch.has bit := by
  unfold has clearStatus
  rw [BitVec.and_assoc, h]

theorem has_setStatus {ch : DbdmaChannel} {b bit : U32} (h : b &&& bit = 0#32) :
    (ch.setStatus b).has bit = ch.has bit := by
  unfold has setStatus
  rw [BitVec.and_or_distrib_right, h, BitVec.or_zero]

theorem has_congr {ch ch' : DbdmaChannel} (h : ch'.status = ch.status) {bit : U32} :
    ch'.has bit = ch.has bit := by
  rw [has, has, h]

theorem parked_iff {ch : DbdmaChannel} :
    ch.parked = true ↔ ch.has kRun = true ∧ ch.has kActive = true := by
  rw [parked, Bool.and_eq_true]

theorem parked_congr {ch ch' : DbdmaChannel} (h : ch'.status = ch.status) :
    ch'.parked = ch.parked := by
  unfold parked has
  rw [h]

theorem resumable_of_parked {ch : DbdmaChannel} (h : ch.parked = true) : ch.Resumable :=
  fun _ => h

theorem resumable_of_zero {ch : DbdmaChannel} (h : ch.xferDone = 0#32) : ch.Resumable :=
  fun hne => absurd h hne

theorem parked_fresh {ch : DbdmaChannel} (h : ch.has kRun = true) : (fresh ch).parked = true := by
  rw [parked_iff]
  constructor
  · show ((ch.clearStatus kDead).setStatus kActive).has kRun = true
    rw [has_setStatus (by decide), has_clearStatus (by decide), h]
  · show ((ch.clearStatus kDead).setStatus kActive).has kActive = true
    unfold has setStatus
    rw [BitVec.and_or_distrib_right, BitVec.and_self, bne_iff_ne]
    intro hz
    have hbit := congrArg (fun x : U32 => x.getLsbD 10) hz
    simp [kActive] at hbit

/-! ## The frames -/

/-- What a call of a frame of the channel does, from outside. -/
structure CallOk (stack : List Frame) (call : Frame → Dma ρ Unit) : Prop where
  run : ∀ c m, ¬ Busy stack c → Meets steady (call (.run c)) m fun _ m' =>
    KeptBut c stack m m' ∧ ((m.chan c).parked = true → (m'.chan c).Resumable)
  flush : ∀ c m, ¬ Busy stack c → Meets steady (call (.flush c)) m fun _ m' =>
    KeptBut c stack m m' ∧ (m'.chan c).status = ((m.chan c).clearStatus kActive).status
      ∧ (m'.chan c).xferDone = 0#32

/-- What a hit keeps. -/
def HitOk (stack : List Frame) (serve : Hit → Dma ρ Unit) : Prop :=
  ∀ h m, Meets steady (serve h) m fun _ m' => Kept stack m m'

section Frames

variable {serve : Hit → Dma ρ Unit} {f : Frame} (hf : f = .run c ∨ f = .flush c)
  (hserve : HitOk (f :: stack) serve)
include hf hserve

/-- Inside a frame the channel's status only changes where the engine stops. -/
theorem stable_of_status (m₀ : Machine ρ) {K : U32 → Prop} :
    Stable steady serve c fun m => KeptBut c stack m₀ m ∧ K (m.chan c).status where
  keep _ _ := trivial
  rest _ _ h := h
  own g m hg h := by
    refine ⟨h.1.setChan g, ?_⟩
    rw [chan_setChan_self, hg]
    exact h.2
  serve h m hm := (hserve h m).mono fun _ m' hkept => by
    obtain ⟨hbut, hstatus, -⟩ := hkept.outside hf
    refine ⟨hm.1.trans hbut, ?_⟩
    rw [hstatus]
    exact hm.2

end Frames

theorem meets_run_steady {serve : Hit → Dma ρ Unit} (hserve : HitOk (.run c :: stack) serve)
    (m : Machine ρ) : Meets steady (run w serve c) m fun _ m' =>
      KeptBut c stack m m' ∧ ((m.chan c).parked = true → (m'.chan c).Resumable) := by
  -- while it goes on, a parked channel stays parked
  let K : U32 → Prop := fun s => (m.chan c).parked = true → ({ status := s } : DbdmaChannel).parked
  have hI := stable_of_status (Or.inl rfl) hserve m (K := K)
  refine meets_run hI ⟨?_, ?_, ?_⟩ ⟨KeptBut.refl c stack m, fun h => ?_⟩
  · intro m' h
    refine ⟨h.1, fun hp => resumable_of_parked ?_⟩
    rw [← h.2 hp]
    exact parked_congr rfl
  · intro m' h
    refine ⟨h.1.setChan _, fun _ => resumable_of_zero ?_⟩
    rw [chan_setChan_self]
    rfl
  · intro m' d h hr hop
    refine ⟨h.1.setChan _, fun _ => resumable_of_zero ?_⟩
    rw [chan_setChan_self]
    exact hr hop
  · rw [← h]
    exact parked_congr rfl

theorem meets_flush_steady {serve : Hit → Dma ρ Unit} (hserve : HitOk (.flush c :: stack) serve)
    (m : Machine ρ) : Meets steady (flush w serve c) m fun _ m' =>
      KeptBut c stack m m' ∧ (m'.chan c).status = ((m.chan c).clearStatus kActive).status
        ∧ (m'.chan c).xferDone = 0#32 := by
  have hI := stable_of_status (Or.inr rfl) hserve m (K := fun s => s = (m.chan c).status)
  refine meets_flush hI ?_ ⟨KeptBut.refl c stack m, rfl⟩
  intro m' h
  refine ⟨h.1.setChan _, ?_, ?_⟩
  · rw [chan_setChan_self, clearStatus, ← h.2]
    rfl
  · rw [chan_setChan_self]
    rfl

/-! ## The control write -/

section Arms

variable {call : Frame → Dma ρ Unit} (hcall : CallOk stack call) (hc : ¬ Busy stack c)
include hcall hc

/-- The flush arm: RUN and WAKE stay, and either the cursor is given up or it stays
with its ACTIVE. -/
theorem meets_flushArm_steady : Meets steady (flushArm call c) m fun _ m' =>
    KeptBut c stack m m'
      ∧ (m'.chan c).has kRun = (m.chan c).has kRun ∧ (m'.chan c).has kWake = (m.chan c).has kWake
      ∧ ((m.chan c).has kFlush = true ∧ (m.chan c).cmdPtr ≠ 0#32 ∧ (m'.chan c).xferDone = 0#32
        ∨ (m'.chan c).xferDone = (m.chan c).xferDone
          ∧ (m'.chan c).has kActive = (m.chan c).has kActive) := by
  unfold flushArm
  refine meets_bind (meets_chan ?_)
  by_cases hflush : (m.chan c).has kFlush = true
  · rw [if_pos hflush]
    refine meets_bind (meets_change.mpr ?_)
    have hbut := (KeptBut.refl c stack m).setChan fun ch => ch.clearStatus kFlush
    by_cases hact : ((m.chan c).has kActive && (m.chan c).cmdPtr != 0#32) = true
    · rw [if_pos hact]
      rw [Bool.and_eq_true, bne_iff_ne] at hact
      refine (hcall.flush c _ hc).mono fun _ m' h => ?_
      obtain ⟨hkept, hstatus, hx⟩ := h
      rw [chan_setChan_self] at hstatus
      refine ⟨hbut.trans hkept, ?_, ?_, .inl ⟨hflush, hact.2, hx⟩⟩
      · rw [has_congr hstatus, has_clearStatus (by decide), has_clearStatus (by decide)]
      · rw [has_congr hstatus, has_clearStatus (by decide), has_clearStatus (by decide)]
    · rw [if_neg hact]
      refine meets_pure.mpr ⟨hbut, ?_⟩
      rw [chan_setChan_self]
      exact ⟨has_clearStatus (by decide), has_clearStatus (by decide),
        .inr ⟨rfl, has_clearStatus (by decide)⟩⟩
  · rw [if_neg hflush]
    exact meets_pure.mpr ⟨KeptBut.refl c stack m, rfl, rfl, .inr ⟨rfl, rfl⟩⟩

/-- The wake arm runs the channel, or leaves all but WAKE. -/
theorem meets_wakeArm_steady : Meets steady (wakeArm call c) m fun _ m' =>
    KeptBut c stack m m'
      ∧ ((m.chan c).has kWake = true ∧ (m.chan c).has kRun = true
          ∧ ((m.chan c).parked = true → (m'.chan c).Resumable)
        ∨ (m'.chan c).has kRun = (m.chan c).has kRun
          ∧ (m'.chan c).has kActive = (m.chan c).has kActive
          ∧ (m'.chan c).xferDone = (m.chan c).xferDone
          ∧ ¬ ((m.chan c).has kWake = true ∧ (m.chan c).has kRun = true)) := by
  unfold wakeArm
  refine meets_bind (meets_chan ?_)
  by_cases hwake : (m.chan c).has kWake = true
  · rw [if_pos hwake]
    refine meets_bind (meets_change.mpr ?_)
    have hbut := (KeptBut.refl c stack m).setChan fun ch => ch.clearStatus kWake
    by_cases hrun : (m.chan c).has kRun = true
    · rw [if_pos hrun]
      refine (hcall.run c _ hc).mono fun _ m' h => ?_
      obtain ⟨hkept, hres⟩ := h
      refine ⟨hbut.trans hkept, .inl ⟨hwake, hrun, fun hp => hres ?_⟩⟩
      rw [parked_iff] at hp
      rw [chan_setChan_self, parked_iff, has_clearStatus (by decide), has_clearStatus (by decide)]
      exact hp
    · rw [if_neg hrun]
      refine meets_pure.mpr ⟨hbut, .inr ?_⟩
      rw [chan_setChan_self]
      exact ⟨has_clearStatus (by decide), has_clearStatus (by decide), rfl, fun h => hrun h.2⟩
  · rw [if_neg hwake]
    exact meets_pure.mpr ⟨KeptBut.refl c stack m, .inr ⟨rfl, rfl, rfl, fun h => hwake h.1⟩⟩

/-- A fresh list starts parked at a head, so what it leaves is resumable. -/
theorem meets_startArm_steady {wasRun : Bool} : Meets steady (startArm call c wasRun) m
    fun _ m' => KeptBut c stack m m'
      ∧ ((m'.chan c).Resumable
        ∨ m' = m ∧ ¬ ((m.chan c).has kRun = true ∧ wasRun = false)) := by
  unfold startArm
  refine meets_bind (meets_chan ?_)
  by_cases hstart : ((m.chan c).has kRun && !wasRun) = true
  · rw [if_pos hstart]
    rw [Bool.and_eq_true] at hstart
    refine meets_bind (meets_change.mpr ?_)
    have hbut := (KeptBut.refl c stack m).setChan fresh
    refine (hcall.run c _ hc).mono fun _ m' h => ?_
    refine ⟨hbut.trans h.1, .inl (h.2 ?_)⟩
    rw [chan_setChan_self]
    exact parked_fresh hstart.1
  · rw [if_neg hstart]
    refine meets_pure.mpr ⟨KeptBut.refl c stack m, .inr ⟨rfl, fun h => hstart ?_⟩⟩
    rw [h.1, h.2]
    rfl

omit hcall hc in
theorem meets_stopArm_steady (hr : (m.chan c).has kRun = true → (m.chan c).Resumable) :
    Meets steady (stopArm c : Dma ρ Unit) m fun _ m' =>
      KeptBut c stack m m' ∧ (m'.chan c).Resumable := by
  unfold stopArm
  refine meets_bind (meets_chan ?_)
  by_cases hrun : (m.chan c).has kRun = true
  · rw [hrun]
    exact meets_pure.mpr ⟨KeptBut.refl c stack m, hr hrun⟩
  · rw [Bool.not_eq_true] at hrun
    rw [hrun]
    refine meets_change.mpr ⟨(KeptBut.refl c stack m).setChan _, resumable_of_zero ?_⟩
    rw [chan_setChan_self]
    rfl

/-- **A tame control write leaves the channel resumable.** -/
theorem meets_channelControl_steady {native : U32} (ht : (m.chan c).Tame native) :
    Meets steady (channelControl call c native) m fun _ m' =>
      KeptBut c stack m m' ∧ (m'.chan c).Resumable := by
  have hafter : (m.setChan c fun ch => ch.latch native).chan c = (m.chan c).latch native :=
    chan_setChan_self
  have hbut := (KeptBut.refl c stack m).setChan fun ch => ch.latch native
  unfold channelControl
  refine meets_bind (meets_chan (meets_bind (meets_change.mpr ?_)))
  refine meets_bind ((meets_flushArm_steady hcall hc).mono fun _ m₁ h₁ => ?_)
  refine meets_bind ((meets_wakeArm_steady hcall hc).mono fun _ m₂ h₂ => ?_)
  refine meets_bind ((meets_startArm_steady hcall hc).mono fun _ m₃ h₃ => ?_)
  rw [hafter] at h₁
  obtain ⟨hkept₁, hrun₁, hwake₁, hcur₁⟩ := h₁
  have hkept₃ := ((hbut.trans hkept₁).trans h₂.1).trans h₃.1
  refine (meets_stopArm_steady ?_).mono fun _ m' h => ⟨hkept₃.trans h.1, h.2⟩
  intro hrun₃
  rcases h₃.2 with hres | ⟨rfl, hnot⟩
  · exact hres
  -- the channel was running: nothing was started
  have hwas : (m.chan c).has kRun = true := by
    by_contra hwas
    exact hnot ⟨hrun₃, by simpa using hwas⟩
  rcases h₂.2 with ⟨hwake₂, hrun₂, hres⟩ | ⟨hrun₂, hact₂, hx₂, -⟩
  -- it was woken, while ACTIVE and not flushed
  · rw [hrun₁] at hrun₂
    rw [hwake₁] at hwake₂
    obtain ⟨hact, hflush⟩ := (ht hwas hrun₂).2 hwake₂
    rcases hcur₁ with ⟨hf, hptr, -⟩ | ⟨-, hact₁⟩
    · exact absurd (hflush hf) hptr
    · exact hres (parked_iff.mpr ⟨by rw [hrun₁, hrun₂], by rw [hact₁, hact]⟩)
  -- it was not: its cursor is given up, or as before with its ACTIVE
  · intro hne
    rw [hx₂] at hne
    rcases hcur₁ with ⟨-, -, hz⟩ | ⟨hx₁, hact₁⟩
    · exact absurd hz hne
    · rw [hx₁] at hne
      rw [hrun₂, hrun₁] at hrun₃
      have hact := (ht hwas hrun₃).1 hne
      exact parked_iff.mpr ⟨by rw [hrun₂, hrun₁, hrun₃], by rw [hact₂, hact₁, hact]⟩

end Arms

/-! ## Everything else -/

/-- A change of the channel's other registers. -/
theorem kept_setChan {g : DbdmaChannel → DbdmaChannel} (hs : ∀ ch, (g ch).status = ch.status)
    (hx : ∀ ch, (g ch).xferDone = ch.xferDone) : Kept stack m (m.setChan c g) := by
  intro c'
  by_cases heq : c' = c
  · rw [heq]
    refine KeptAt.of_eq ?_ ?_ <;> rw [chan_setChan_self]
    · exact hs _
    · exact hx _
  · refine KeptAt.of_eq ?_ ?_ <;> rw [chan_setChan_ne heq]

theorem Kept.refl (stack : List Frame) (m : Machine ρ) : Kept stack m m :=
  fun c => KeptAt.refl stack c m

theorem Kept.trans (h₁ : Kept stack m m₁) (h₂ : Kept stack m₁ m₂) : Kept stack m m₂ :=
  fun c => (h₁ c).trans (h₂ c)

theorem hitOk_of_callOk {call : Frame → Dma ρ Unit} (hcall : CallOk stack call) :
    HitOk stack (hit call stack) := by
  rintro (⟨c, off, v, len⟩ | c) m
  · show Meets steady (channelWrite call stack c off v len) m _
    unfold channelWrite
    refine meets_bind (meets_chan ?_)
    split
    · refine meets_bind (meets_note.mpr fun hr => ⟨trivial, ?_⟩)
      obtain ⟨hc, ht⟩ := hr
      refine (meets_channelControl_steady hcall hc ht).mono fun _ m' h => ?_
      exact h.1.kept hc fun _ => h.2
    · split_ifs
      · exact meets_pure.mpr (Kept.refl stack m)
      · exact meets_change.mpr (kept_setChan (fun _ => rfl) fun _ => rfl)
    · exact meets_change.mpr (kept_setChan (fun _ => rfl) fun _ => rfl)
    · exact meets_change.mpr (kept_setChan (fun _ => rfl) fun _ => rfl)
    · exact meets_change.mpr (kept_setChan (fun _ => rfl) fun _ => rfl)
    · exact meets_pure.mpr (Kept.refl stack m)
  · show Meets steady (wake call stack c) m _
    unfold wake
    refine meets_bind (meets_chan ?_)
    by_cases hp : ((m.chan c).has kRun && (m.chan c).has kActive) = true
    · rw [if_pos hp]
      refine meets_bind (meets_note.mpr fun hc => ⟨trivial, ?_⟩)
      exact (hcall.run c m hc).mono fun _ m' h => h.1.kept hc fun _ => h.2 hp
    · rw [if_neg hp]
      exact meets_pure.mpr (Kept.refl stack m)

theorem callOk_enter (w : World ρ) (d : ℕ) : ∀ stack, CallOk stack (enter w d stack) := by
  induction d with
  | zero =>
      intro stack
      constructor
      · exact fun c m _ => meets_bind (meets_note.mpr fun _ => ⟨trivial, meets_quit.mpr trivial⟩)
      · exact fun c m _ => meets_bind (meets_note.mpr fun _ => ⟨trivial, meets_quit.mpr trivial⟩)
  | succ d ih =>
      intro stack
      constructor
      · intro c m _
        refine meets_bind (meets_note.mpr fun _ => ⟨trivial, ?_⟩)
        exact meets_run_steady (hitOk_of_callOk (ih _)) m
      · intro c m _
        refine meets_bind (meets_note.mpr fun _ => ⟨trivial, ?_⟩)
        exact meets_flush_steady (hitOk_of_callOk (ih _)) m

/-- Outside every frame nothing is busy, and a property of the channels alone is
closed under what the rest of the machine does. -/
theorem stable_kept {serve : Hit → Dma ρ Unit} (hserve : HitOk [] serve) (m₀ : Machine ρ) :
    ∀ h m, Kept [] m₀ m → Meets steady (serve h) m fun _ m' => Kept [] m₀ m' :=
  fun h m hm => (hserve h m).mono fun _ _ hk => hm.trans hk

theorem meets_op_steady (w : World ρ) (d : ℕ) (op : Op ρ) (m : Machine ρ) :
    Meets steady (op.exec w d) m fun _ m' => Kept [] m m' := by
  have hserve : HitOk [] (hit (enter w d []) []) := hitOk_of_callOk (callOk_enter w d [])
  cases op with
  | wake c => exact hserve (.wake c) m
  | guest g => exact meets_change.mpr (Kept.refl [] m)
  | write pa v len =>
      have hact {n : ℕ} (g : ρ → Act ρ Hit Unit n) (m₁ : Machine ρ) (h₁ : Kept [] m m₁) :
          Meets steady (act (hit (enter w d []) []) g) m₁ fun _ m' => Kept [] m m' :=
        meets_bind (meets_look.mpr
          (meets_exec (I := Kept [] m) (fun _ _ h => h) (stable_kept hserve m) _ h₁))
      refine meets_bind (meets_look.mpr ?_)
      split
      · exact meets_bind (meets_change.mpr (stable_kept hserve m _ _ (Kept.refl [] m)))
      · refine meets_bind ((hact _ m (Kept.refl [] m)).mono fun _ m₁ h₁ => ?_)
        split
        · exact stable_kept hserve m _ _ h₁
        · exact meets_pure.mpr h₁
      · exact hact _ m (Kept.refl [] m)

theorem meets_history_steady (w : World ρ) (d : ℕ) (ops : List (Op ρ)) {m : Machine ρ}
    (hm : ∀ c, (m.chan c).Resumable) :
    Meets steady (history w d ops) m fun _ m' => ∀ c, (m'.chan c).Resumable := by
  have hop (op : Op ρ) (m : Machine ρ) (hm : ∀ c, (m.chan c).Resumable) :
      Meets steady (op.exec w d) m fun _ m' => ∀ c, (m'.chan c).Resumable :=
    (meets_op_steady w d op m).mono fun _ m' h c => h c (hm c)
  exact meets_forEach hop ops hm

/-- **A channel that holds a cursor can be resumed.** From power-on, over any history
whose control writes, wakes and descriptors are steady: it is parked, and a write
of its command pointer does nothing. -/
theorem parked_resumable (w : World ρ) (d : ℕ) (ops : List (Op ρ)) (r : ρ)
    (hsteady : ∀ e ∈ (history w d ops (powerOn r)).log, e.Steady) (m' : Machine ρ)
    (hend : (history w d ops (powerOn r)).out = some ((), m')) (c : ChannelId)
    (hcursor : (m'.chan c).xferDone ≠ 0#32) :
    (m'.chan c).parked = true
      ∧ ∀ call stack v, (channelWrite call stack c 0x0C#32 v 4 m').out = some ((), m') := by
  have hstart : ∀ c, ((powerOn r).chan c).Resumable := fun c => resumable_of_zero rfl
  have hends := (meets_history_steady w d ops hstart hsteady).2
  rw [Traced.Ends, hend] at hends
  have hparked := hends c hcursor
  refine ⟨hparked, fun call stack v => ?_⟩
  have hreg : regIndex 0x0C#32 = 3 := by decide
  unfold channelWrite
  rw [out_bind_some (t := m') (a := m'.chan c) rfl]
  simp only [hreg]
  rw [if_pos (parked_iff.mp hparked).2]
  rfl

/-- The audio input channel takes four of the eight bytes and parks. -/
theorem parked_resumable_input : ∃ m',
    (history codecWorld levels (shrinkOps.take 2) (powerOn inputRam)).out = some ((), m')
      ∧ (m'.chan .sndIn).parked = true := by
  have hsteady : ∀ e ∈ (history codecWorld levels (shrinkOps.take 2) (powerOn inputRam)).log,
      e.Steady := by
    decide
  have hcursor : ((history codecWorld levels (shrinkOps.take 2) (powerOn inputRam)).out.map
      fun p => (p.2.chan .sndIn).xferDone) = some 4#32 := by
    decide
  obtain ⟨⟨_, m'⟩, hend, hx⟩ := Option.map_eq_some_iff.mp hcursor
  refine ⟨m', hend, ?_⟩
  have hne : (m'.chan .sndIn).xferDone ≠ 0#32 := by rw [hx]; decide
  exact (parked_resumable codecWorld levels (shrinkOps.take 2) inputRam hsteady m' hend .sndIn
    hne).1

/-! ## A stopped list that is woken -/

/-- The channel is started on a STOP, which ends the list but not RUN. The guest
makes the STOP an `INPUT_MORE` and sets WAKE. -/
def stopThenWake : List (Op (ℕ → U8)) :=
  [.write 0x8000890C#32 0x00010000#32 4, .guest fun r => Function.update r 0x103 0x70#8,
    .write 0x80008900#32 0x00800080#32 4, .guest fun r => Function.update r 0x103 0x20#8,
    .write 0x80008900#32 0x00100010#32 4]

theorem parked_stranded : ¬ ∀ (ops : List (Op (ℕ → U8))) (m' : Machine (ℕ → U8)),
    (history codecWorld levels ops (powerOn inputRam)).out = some ((), m') →
      ∀ c, (m'.chan c).Resumable := by
  intro h
  have hend : ((history codecWorld levels stopThenWake (powerOn inputRam)).out.map
      fun p => ((p.2.chan .sndIn).xferDone, (p.2.chan .sndIn).parked)) = some (4#32, false) := by
    decide
  obtain ⟨⟨_, m'⟩, hout, hsnd⟩ := Option.map_eq_some_iff.mp hend
  rw [Prod.mk.injEq] at hsnd
  have hparked := h stopThenWake m' hout .sndIn (by rw [hsnd.1]; decide)
  rw [hsnd.2] at hparked
  exact Bool.noConfusion hparked

end Dma

end OpenPowerMac
