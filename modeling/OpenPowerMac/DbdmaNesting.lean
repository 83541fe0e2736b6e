/-
How deep the activations of the DBDMA channels nest, and when they return.

There are two frames to a channel, its `run` and its flush. As long as none is
entered while it is still open, at most 26 are open at once, every one of them
returns, and the descriptors fetched in all are bounded. Nothing in the engine
sees to that: the bound of 65536 descriptors is a local of one `run`, and a
`STORE_QUAD` that sets WAKE in its own channel's control register enters `run`
again on the same descriptor. That activation never returns.
-/
import OpenPowerMac.DbdmaTurn
import OpenPowerMac.DbdmaCost
import Mathlib.Tactic.IntervalCases

set_option autoImplicit false

namespace OpenPowerMac

open Trace Trace.Prog DbdmaChannel

/-- A frame is entered only when it is not open already. -/
def Event.Fresh : Event → Prop
  | .enter f stack => f ∉ stack
  | _ => True

instance : DecidablePred Event.Fresh
  | .enter f stack => inferInstanceAs (Decidable (f ∉ stack))
  | .control .. | .wake .. | .fetch .. | .request .. => isTrue trivial

namespace Dma

variable {ρ : Type} {P : Pact Event} {w : World ρ} {m : Machine ρ}

/-! ## Hits, when nothing is asked of the state -/

section Calls

variable {call : Frame → Dma ρ Unit} (hcall : ∀ f m, Meets P (call f) m fun _ _ => True)
include hcall

theorem meets_flushArm {c : ChannelId} : Meets P (flushArm call c) m fun _ _ => True := by
  unfold flushArm
  refine meets_bind (meets_chan ?_)
  split_ifs
  · exact meets_bind (meets_change.mpr (hcall _ _))
  · exact meets_bind (meets_change.mpr (meets_pure.mpr trivial))
  · exact meets_pure.mpr trivial

theorem meets_wakeArm {c : ChannelId} : Meets P (wakeArm call c) m fun _ _ => True := by
  unfold wakeArm
  refine meets_bind (meets_chan ?_)
  split_ifs
  · exact meets_bind (meets_change.mpr (hcall _ _))
  · exact meets_bind (meets_change.mpr (meets_pure.mpr trivial))
  · exact meets_pure.mpr trivial

theorem meets_startArm {c : ChannelId} {wasRun : Bool} :
    Meets P (startArm call c wasRun) m fun _ _ => True := by
  unfold startArm
  refine meets_bind (meets_chan ?_)
  split_ifs
  · exact meets_bind (meets_change.mpr (hcall _ _))
  · exact meets_pure.mpr trivial

omit hcall in
theorem meets_stopArm {c : ChannelId} :
    Meets P (stopArm c : Dma ρ Unit) m fun _ _ => True := by
  unfold stopArm
  refine meets_bind (meets_chan ?_)
  split_ifs
  · exact meets_change.mpr trivial
  · exact meets_pure.mpr trivial

theorem meets_channelControl {c : ChannelId} {native : U32} :
    Meets P (channelControl call c native) m fun _ _ => True := by
  unfold channelControl
  refine meets_bind (meets_chan (meets_bind (meets_change.mpr ?_)))
  refine meets_bind ((meets_flushArm hcall).mono fun _ _ _ => ?_)
  refine meets_bind ((meets_wakeArm hcall).mono fun _ _ _ => ?_)
  refine meets_bind ((meets_startArm hcall).mono fun _ _ _ => ?_)
  exact meets_stopArm

variable (hkeep : ∀ e : Event, e.Sound → P.keep e)
include hkeep

theorem meets_channelWrite {stack : List Frame} {c : ChannelId} {off v : U32} {len : ℕ} :
    Meets P (channelWrite call stack c off v len) m fun _ _ => True := by
  unfold channelWrite
  refine meets_bind (meets_chan ?_)
  split
  · refine meets_bind (meets_note.mpr fun _ => ⟨hkeep _ trivial, ?_⟩)
    exact meets_channelControl hcall
  · split_ifs
    · exact meets_pure.mpr trivial
    · exact meets_change.mpr trivial
  · exact meets_change.mpr trivial
  · exact meets_change.mpr trivial
  · exact meets_change.mpr trivial
  · exact meets_pure.mpr trivial

theorem meets_wake {stack : List Frame} {c : ChannelId} :
    Meets P (wake call stack c) m fun _ _ => True := by
  unfold wake
  refine meets_bind (meets_chan ?_)
  split_ifs
  · exact meets_bind (meets_note.mpr fun _ => ⟨hkeep _ trivial, hcall _ _⟩)
  · exact meets_pure.mpr trivial

theorem meets_hit {stack : List Frame} (h : Hit) :
    Meets P (hit call stack h) m fun _ _ => True := by
  cases h with
  | reg c off v len => exact meets_channelWrite hcall hkeep
  | wake c => exact meets_wake hcall hkeep

/-- Anything is stable that asks nothing of the machine. -/
theorem stable_true (stack : List Frame) (c : ChannelId) :
    Stable P (hit call stack) c fun _ => True where
  keep := hkeep
  rest _ _ _ := trivial
  own _ _ _ _ := trivial
  serve h _ _ := meets_hit hcall hkeep h

theorem meets_body (stack : List Frame) (f : Frame) :
    Meets P (body w (hit call stack) f) m fun _ _ => True := by
  cases f with
  | run c =>
      exact meets_run (stable_true hcall hkeep stack c)
        ⟨fun _ _ => trivial, fun _ _ => trivial, fun _ _ _ _ _ => trivial⟩ trivial
  | flush c =>
      exact meets_flush (stable_true hcall hkeep stack c) (fun _ _ => trivial) trivial

end Calls

/-! ## The budget -/

/-- Room for the frames to come: with none left, what is promised of the next entry
must allow giving up. -/
structure Room (P : Pact Event) (room : ℕ → List Frame → Prop) : Prop where
  last : ∀ stack f, room 0 stack → P.rely (.enter f stack) → P.mayQuit
  next : ∀ d stack f, room (d + 1) stack → P.rely (.enter f stack) → room d (f :: stack)

variable {room : ℕ → List Frame → Prop}

theorem meets_enter (hkeep : ∀ e : Event, e.Sound → P.keep e) (hroom : Room P room) (d : ℕ) :
    ∀ stack f m, room d stack → Meets P (enter w d stack f) m fun _ _ => True := by
  induction d with
  | zero =>
      intro stack f m h
      unfold enter
      refine meets_bind (meets_note.mpr fun hr => ⟨hkeep _ trivial, ?_⟩)
      exact meets_quit.mpr (hroom.last stack f h hr)
  | succ d ih =>
      intro stack f m h
      unfold enter
      refine meets_bind (meets_note.mpr fun hr => ⟨hkeep _ trivial, ?_⟩)
      exact meets_body (fun f' m' => ih _ f' m' (hroom.next d stack f h hr)) hkeep _ f

theorem meets_exec_true (hkeep : ∀ e : Event, e.Sound → P.keep e) (hroom : Room P room) {d : ℕ}
    (h : room d []) (op : Op ρ) : Meets P (op.exec w d) m fun _ _ => True := by
  have hcall : ∀ f m, Meets P (enter w d [] f) m fun _ _ => True :=
    fun f m => meets_enter hkeep hroom d [] f m h
  cases op with
  | write pa v len => exact (stable_true hcall hkeep [] .ataDma).meets_busWrite trivial
  | wake c => exact meets_wake hcall hkeep
  | guest f => exact meets_change.mpr trivial

/-- As many levels as there are frames: a `run` and a flush to each of 13
channels. -/
def levels : ℕ := 26

theorem card_frame : Fintype.card Frame = levels := by decide

theorem room_fresh {ε : Prop} : Room ⟨Event.Fresh, fun _ => True, ε⟩ fun d stack =>
    stack.Nodup ∧ stack.length + d = levels where
  last stack f h hr := by
    have hle := (List.Nodup.cons hr h.1).length_le_card
    rw [List.length_cons, card_frame] at hle
    have hsum := h.2
    omega
  next d stack f h hr := by
    refine ⟨List.Nodup.cons hr h.1, ?_⟩
    rw [List.length_cons]
    omega

/-- **An activation returns** when no frame is entered that is still open, with no
more levels than there are frames and no more descriptors than these allow. -/
theorem activation_returns (w : World ρ) (op : Op ρ) (m : Machine ρ)
    (h : ∀ e ∈ (op.exec w levels m).log, e.Fresh) :
    (op.exec w levels m).out.isSome
      ∧ weigh Event.fetches (op.exec w levels m).log ≤ busCost w (3 * frameCost w levels) := by
  refine ⟨?_, costs_op levels op m⟩
  have hroom : ([] : List Frame).Nodup ∧ ([] : List Frame).length + levels = levels :=
    ⟨List.nodup_nil, Nat.zero_add _⟩
  have hmeets : Meets ⟨Event.Fresh, fun _ => True, False⟩ (op.exec w levels) m fun _ _ => True :=
    meets_exec_true (fun _ _ => trivial) room_fresh hroom op
  have hends := (hmeets h).2
  rcases hout : (op.exec w levels m).out with _ | p
  · rw [Traced.Ends, hout] at hends
    exact hends.elim
  · rfl

/-! ## A channel that wakes itself -/

/-- The channel stands on a `STORE_QUAD` of a literal to its own control register
that sets WAKE and leaves the status otherwise as it is, and nothing of the
processor's is dirty. -/
structure SelfWake (w : World ρ) (c : ChannelId) (m : Machine ρ) (w0 addr lit off : U32) :
    Prop where
  quiet : ∀ pa len, w.snoopBeforeDmaWrite pa len m.rest = .done m.rest ()
  still : w.noteNow m.rest = m.rest
  isMemory : ∀ k ∈ [0#32, 4#32, 8#32], ∃ win i,
    (w.bus m.rest).readPlace ((m.chan c).cmdPtr + k) 4 = .store win i
  word0 : w.read ((m.chan c).cmdPtr + 0#32) 4 m.rest = .done m.rest (swap32 w0)
  word1 : w.read ((m.chan c).cmdPtr + 4#32) 4 m.rest = .done m.rest (swap32 addr)
  word2 : w.read ((m.chan c).cmdPtr + 8#32) 4 m.rest = .done m.rest (swap32 lit)
  op : (w0 >>> 28).toNat = 4
  req : 4#32 ≤ w0 &&& 0xFFFF#32
  own : (w.bus m.rest).writePlace addr 4 = .dbdma c off
  control : regIndex off = 0
  runs : (m.chan c).has kRun = true
  wakes : ((m.chan c).latch lit).has kWake = true
  noFlush : ((m.chan c).latch lit).has kFlush = false
  same : ((m.chan c).latch lit).clearStatus kWake = m.chan c

theorem swap32_swap32 (v : U32) : swap32 (swap32 v) = v := by
  unfold swap32
  ext i hi
  interval_cases i <;> simp

theorem out_busRead_store {serve : Hit → Dma ρ Unit} {pa : U32} {len : ℕ}
    (hp : ∃ win i, (w.bus m.rest).readPlace pa len = .store win i) :
    (busRead w serve pa len m).out = (act serve (w.read pa len) m).out := by
  obtain ⟨win, i, hp⟩ := hp
  unfold busRead
  rw [out_bind_some (t := m) (a := m) rfl, hp]

namespace SelfWake

variable {c : ChannelId} {w0 addr lit off : U32} (h : SelfWake w c m w0 addr lit off)
include h

/-- Reading a descriptor word disturbs nothing. -/
theorem out_rd32le {serve : Hit → Dma ρ Unit} {k x : U32} (hk : k ∈ [0#32, 4#32, 8#32])
    (hread : w.read ((m.chan c).cmdPtr + k) 4 m.rest = .done m.rest (swap32 x)) :
    (rd32le w serve ((m.chan c).cmdPtr + k) m).out = some (x, m) := by
  have hbus : (busRead w serve ((m.chan c).cmdPtr + k) 4 m).out = some (swap32 x, m) := by
    rw [out_busRead_store (h.isMemory k hk), act, out_bind_some (t := m) (a := m) rfl, hread]
    rfl
  unfold rd32le
  rw [out_bind_some hbus, swap32_swap32]
  rfl

theorem out_snoop {serve : Hit → Dma ρ Unit} {pa len : U32} :
    (act serve (w.snoopBeforeDmaWrite pa len) m).out = some ((), m) := by
  rw [act, out_bind_some (t := m) (a := m) rfl, h.quiet]
  rfl

/-- The fetch finds the `STORE_QUAD`. -/
theorem out_fetch {serve : Hit → Dma ρ Unit} :
    (fetch w serve c m).out = some (⟨w0, addr⟩, m) := by
  have hword0 : (rd32le w serve (m.chan c).cmdPtr m).out = some (w0, m) := by
    have hz : (m.chan c).cmdPtr + 0#32 = (m.chan c).cmdPtr := BitVec.add_zero _
    rw [← hz]
    exact h.out_rd32le (by simp) h.word0
  unfold fetch
  rw [out_bind_some (t := m) (a := m.chan c) rfl, out_bind_some h.out_snoop,
    out_bind_some (t := m) (a := m.chan c) rfl, out_bind_some hword0,
    out_bind_some (t := m) (a := m.chan c) rfl, out_bind_some (h.out_rd32le (by simp) h.word1)]
  rfl

/-- The control write sets WAKE, and the wake arm calls `run` on the machine as it
was. -/
theorem out_channelControl {call : Frame → Dma ρ Unit} (hcall : (call (.run c) m).out = none) :
    (channelControl call c lit m).out = none := by
  have hlatch : (m.setChan c fun ch => ch.latch lit).chan c = (m.chan c).latch lit := by
    rw [Machine.setChan]
    exact Function.update_self _ _ _
  have hback : (m.setChan c fun ch => ch.latch lit).setChan c (fun ch => ch.clearStatus kWake)
      = m := by
    have hchan : Function.update (m.setChan c fun ch => ch.latch lit).chan c
        (((m.chan c).latch lit).clearStatus kWake) = m.chan := by
      rw [h.same, Machine.setChan, Function.update_idem, Function.update_eq_self]
    rw [Machine.setChan, hlatch, hchan]
    rfl
  have hruns : ((m.chan c).latch lit).has kRun = true := by
    have hsame := congrArg (fun ch => ch.has kRun) h.same
    rw [h.runs] at hsame
    rw [← hsame]
    simp only [has, clearStatus, kRun, kWake]
    rw [BitVec.and_assoc]
    rfl
  have hflush : (flushArm call c (m.setChan c fun ch => ch.latch lit)).out
      = some ((), m.setChan c fun ch => ch.latch lit) := by
    unfold flushArm
    rw [out_bind_some (t := _) (a := _) rfl, hlatch, h.noFlush]
    rfl
  have hwake : (wakeArm call c (m.setChan c fun ch => ch.latch lit)).out = none := by
    unfold wakeArm
    rw [out_bind_some (t := _) (a := _) rfl, hlatch, if_pos h.wakes,
      out_bind_some (t := _) (a := _) rfl, hruns, if_pos rfl, hback]
    exact hcall
  unfold channelControl
  rw [out_bind_some (t := m) (a := m.chan c) rfl, out_bind_some (t := _) (a := ()) rfl,
    out_bind_some hflush]
  exact out_bind_none hwake

theorem out_hit {call : Frame → Dma ρ Unit} {stack : List Frame}
    (hcall : (call (.run c) m).out = none) :
    (hit call stack (.reg c off (swap32 lit) 4) m).out = none := by
  have hnative : (m.chan c).native off (swap32 lit) 4 = lit := by
    rw [native, if_pos rfl, swap32_swap32]
  show (channelWrite call stack c off (swap32 lit) 4 m).out = none
  unfold channelWrite
  rw [out_bind_some (t := m) (a := m.chan c) rfl]
  simp only [h.control, hnative]
  rw [out_bind_some (t := m) (a := ()) rfl]
  exact h.out_channelControl hcall

theorem out_storeQuad {serve : Hit → Dma ρ Unit}
    (hserve : (serve (.reg c off (swap32 lit) 4) m).out = none) :
    (storeQuad w serve c ⟨w0, addr⟩ m).out = none := by
  have hstill : (⟨m.chan, w.noteNow m.rest⟩ : Machine ρ) = m := by rw [h.still]
  have hstore : (wr32le w serve addr lit m).out = none := by
    unfold wr32le busWrite
    rw [out_bind_some (t := m) (a := m) rfl, h.own]
    rw [out_bind_some (t := m) (a := ()) (by rw [change, hstill])]
    exact hserve
  have hreq : 4#32 ≤ Desc.req ⟨w0, addr⟩ := h.req
  unfold storeQuad
  rw [out_bind_some (t := m) (a := m.chan c) rfl, out_bind_some (h.out_rd32le (by simp) h.word2),
    out_bind_some h.out_snoop, if_pos hreq]
  exact out_bind_none hstore

theorem out_turns {serve : Hit → Dma ρ Unit}
    (hserve : (serve (.reg c off (swap32 lit) 4) m).out = none) (n : ℕ) (idle : U32) :
    (turns w serve c (n + 1) idle m).out = none := by
  have hruns : ¬ (!(m.chan c).has kRun) = true := by rw [h.runs]; decide
  have hcmd : command w serve c ⟨w0, addr⟩ = storeQuad w serve c ⟨w0, addr⟩ := by
    unfold command
    rw [Desc.op, h.op]
    rfl
  rw [turns, out_bind_some (t := m) (a := m.chan c) rfl, if_neg hruns,
    out_bind_some h.out_fetch, hcmd]
  exact out_bind_none (h.out_storeQuad hserve)

/-- **A channel that wakes itself never returns**, however deep it may nest. -/
theorem never_returns (d : ℕ) : ∀ stack, (enter w d stack (.run c) m).out = none := by
  induction d with
  | zero =>
      intro stack
      rw [enter, out_bind_some (t := m) (a := ()) rfl]
      rfl
  | succ d ih =>
      intro stack
      rw [enter, out_bind_some (t := m) (a := ()) rfl]
      exact h.out_turns (h.out_hit (ih _)) 65535 0#32

end SelfWake

/-! ## An instance -/

/-- Big-endian reads and writes of a byte array. -/
def ramRead (r : ℕ → U8) (pa : U32) (len : ℕ) : U32 :=
  (List.range len).foldl (fun v k => (v <<< 8) ||| (r (pa.toNat + k)).setWidth 32) 0#32

def ramWrite (r : ℕ → U8) (pa v : U32) (len : ℕ) : ℕ → U8 :=
  (List.range len).foldl
    (fun r k => Function.update r (pa.toNat + k) ((v >>> (8 * (len - 1 - k))).setWidth 8)) r

/-- A machine that is its RAM, read and written in place, with no device and no
cache. -/
def ramWorld (size : ℕ) : World (ℕ → U8) where
  limit := 0
  bus _ := { ramSize := size, romSize := 0 }
  noteNow r := r
  read pa len r := .done r (ramRead r pa len)
  write pa v len r := .done (ramWrite r pa v len) ()
  snoopBeforeDmaRead _ _ r := .done r ()
  snoopBeforeDmaWrite _ _ r := .done r ()
  dmaTake _ n r := .done r ⟨[], length_nil_le n⟩
  dmaGive _ _ r := .done r 0
  dmaWriteSink _ _ := false
  dmaStreams _ _ := false

/-- A descriptor at 0x100: store 0x10001000, which sets WAKE, to `ChannelControl` of
channel 0. -/
@[irreducible] def selfWakeRam (a : ℕ) : U8 :=
  ([0x04#8, 0x00#8, 0x00#8, 0x40#8, 0x00#8, 0x80#8, 0x00#8, 0x80#8,
    0x00#8, 0x10#8, 0x00#8, 0x10#8] : List U8).getD (a - 0x100) 0#8

/-- Channel 0 is armed on it. -/
def selfWakeMachine : Machine (ℕ → U8) where
  chan _ := { status := kRun ||| kActive, cmdPtr := 0x100#32 }
  rest := selfWakeRam

theorem selfWake_word {k x : U32} (h : ramRead selfWakeRam (0x100#32 + k) 4 = swap32 x) :
    (ramWorld 0x4000000).read ((selfWakeMachine.chan (.dmaGen 0)).cmdPtr + k) 4
      selfWakeMachine.rest = .done selfWakeMachine.rest (swap32 x) := by
  have hptr : (selfWakeMachine.chan (.dmaGen 0)).cmdPtr = 0x100#32 := rfl
  have hrest : selfWakeMachine.rest = selfWakeRam := rfl
  rw [hptr, hrest, ← h]
  rfl

theorem selfWake_instance : SelfWake (ramWorld 0x4000000) (.dmaGen 0) selfWakeMachine
    0x40000004#32 0x80008000#32 0x10001000#32 0#32 where
  quiet _ _ := rfl
  still := rfl
  isMemory k hk := by
    refine ⟨.ramFast, (0x100#32 + k).toNat, ?_⟩
    simp only [List.mem_cons, List.not_mem_nil, or_false] at hk
    rcases hk with rfl | rfl | rfl <;> decide
  word0 := selfWake_word (by decide +kernel)
  word1 := selfWake_word (by decide +kernel)
  word2 := selfWake_word (by decide +kernel)
  op := by decide
  req := by decide
  own := by decide
  control := by decide
  runs := by decide
  wakes := by decide
  noFlush := by decide
  same := by decide

/-- Waking that channel never returns, whatever the budget. -/
theorem activation_never_returns : ¬ ∀ (op : Op (ℕ → U8)) (m : Machine (ℕ → U8)),
    ∃ d, (op.exec (ramWorld 0x4000000) d m).out.isSome := by
  intro h
  obtain ⟨d, hd⟩ := h (.wake (.dmaGen 0)) selfWakeMachine
  have hwake : (wake (enter (ramWorld 0x4000000) d []) [] (.dmaGen 0) selfWakeMachine).out
      = none := by
    unfold wake
    rw [out_bind_some (t := selfWakeMachine) (a := selfWakeMachine.chan (.dmaGen 0)) rfl,
      if_pos (by decide), out_bind_some (t := selfWakeMachine) (a := ()) rfl]
    exact selfWake_instance.never_returns d []
  rw [Op.exec, hwake] at hd
  exact absurd hd (by decide)

/-- At 0x100 a descriptor that stores the same word to `ChannelControl` of channel 1, and behind it
a STOP; at 0x200 a STOP. -/
def nestedRam (a : ℕ) : U8 :=
  if a = 0x113 ∨ a = 0x203 then 0x70#8
  else ([0x04#8, 0x00#8, 0x00#8, 0x40#8, 0x00#8, 0x81#8, 0x00#8, 0x80#8,
    0x00#8, 0x10#8, 0x00#8, 0x10#8] : List U8).getD (a - 0x100) 0#8

/-- Channel 0 is armed on the one, the others on the other. -/
def nestedMachine : Machine (ℕ → U8) where
  chan c := { status := kRun ||| kActive, cmdPtr := if c = .dmaGen 0 then 0x100#32 else 0x200#32 }
  rest := nestedRam

/-- Channel 0 wakes channel 1 from its own list, and both return. -/
theorem activation_returns_nested :
    ((Op.wake (.dmaGen 0)).exec (ramWorld 0x4000000) levels nestedMachine).out.isSome
      ∧ .enter (.run (.dmaGen 1)) [.run (.dmaGen 0)]
        ∈ ((Op.wake (.dmaGen 0)).exec (ramWorld 0x4000000) levels nestedMachine).log :=
  ⟨(activation_returns (ramWorld 0x4000000) (.wake (.dmaGen 0)) nestedMachine (by decide +kernel)).1,
    List.mem_of_getElem? (i := 4) rfl⟩

end Dma

end OpenPowerMac
