/-
The timer flags of the PMU's VIA.

IFR stores no timer flag: a read computes both from the counts. So an acknowledgement, which
clears the stored bit, changes nothing, and a flag that was acknowledged after its timer ran
out reads as set again (`ifrTells_iff`).
-/
import OpenPowerMac.Pmu

set_option autoImplicit false

namespace OpenPowerMac

open ViaReg

/-! ## Times -/

namespace PmuClock

/-- The timebase has not gone back; it is wired or not once and for all. -/
def TbAdvances : Option U64 → Option U64 → Prop
  | none, none => True
  | some tb, some tb' => tb ≤ tb'
  | _, _ => False

instance : ∀ tb tb' : Option U64, Decidable (TbAdvances tb tb')
  | none, none => inferInstanceAs (Decidable True)
  | some _, some _ => inferInstanceAs (Decidable (_ ≤ _))
  | none, some _ => inferInstanceAs (Decidable False)
  | some _, none => inferInstanceAs (Decidable False)

/-- Time has not gone back. -/
def Advances (k k' : PmuClock) : Prop := k.now ≤ k'.now ∧ TbAdvances k.tb k'.tb

instance (k k' : PmuClock) : Decidable (Advances k k') := inferInstanceAs (Decidable (_ ∧ _))

theorem Advances.vclk {k k' : PmuClock} (h : Advances k k') :
    k.vclk.toNat ≤ k'.vclk.toNat := by
  rcases k with ⟨now, tb⟩
  rcases k' with ⟨now', tb'⟩
  rcases h with ⟨hnow, htb⟩
  rcases tb with - | tb <;> rcases tb' with - | tb'
  · simp only [PmuClock.vclk, BitVec.toNat_udiv]
    exact Nat.div_le_div_right hnow
  · exact htb.elim
  · exact htb.elim
  · simp only [PmuClock.vclk, BitVec.toNat_ushiftRight, Nat.shiftRight_eq_div_pow]
    exact Nat.div_le_div_right htb

theorem Advances.trans {k k' k'' : PmuClock} (h : Advances k k') (h' : Advances k' k'') :
    Advances k k'' := by
  rcases k with ⟨now, tb⟩
  rcases k' with ⟨now', tb'⟩
  rcases k'' with ⟨now'', tb''⟩
  refine ⟨BitVec.le_trans h.1 h'.1, ?_⟩
  have htb : TbAdvances tb tb' := h.2
  have htb' : TbAdvances tb' tb'' := h'.2
  rcases tb with - | tb <;> rcases tb' with - | tb' <;> rcases tb'' with - | tb''
  all_goals first | exact trivial | exact htb.elim | exact htb'.elim | skip
  exact BitVec.le_trans htb htb'

end PmuClock

namespace PmuVia

/-- When an access is made. -/
def Access.clock : Access → PmuClock
  | .read _ k => k
  | .write _ _ k => k

/-- The accesses come one after the other, and then the time is `k`. -/
def InOrder (run : List Access) (k : PmuClock) : Prop :=
  (run.map Access.clock ++ [k]).IsChain PmuClock.Advances

/-! ## A timer as the host knows it -/

inductive Timer where
  | t1
  | t2
  deriving DecidableEq

namespace Timer

def bit : Timer → U8
  | t1 => 0x40#8
  | t2 => 0x20#8

/-- The write sets the low byte of the next load. -/
def SetsLow : Timer → ViaReg → Prop
  | t1, r => r = vT1CL ∨ r = vT1LL
  | t2, r => r = vT2CL

/-- The write loads the timer. -/
def Loads : Timer → ViaReg → Prop
  | t1, r => r = vT1CH
  | t2, r => r = vT2CH

/-- The read acknowledges. -/
def AcksRead : Timer → ViaReg → Prop
  | t1, r => r = vT1CL
  | t2, r => r = vT2CL

instance : ∀ (t : Timer) (r : ViaReg), Decidable (t.SetsLow r)
  | t1, _ => inferInstanceAs (Decidable (_ ∨ _))
  | t2, _ => inferInstanceAs (Decidable (_ = _))

instance : ∀ (t : Timer) (r : ViaReg), Decidable (t.Loads r)
  | t1, _ => inferInstanceAs (Decidable (_ = _))
  | t2, _ => inferInstanceAs (Decidable (_ = _))

instance : ∀ (t : Timer) (r : ViaReg), Decidable (t.AcksRead r)
  | t1, _ => inferInstanceAs (Decidable (_ = _))
  | t2, _ => inferInstanceAs (Decidable (_ = _))

end Timer

/-- What the host knows of a timer: the low byte that waits, the last load and when it was, and
when it has acknowledged since. As the VIA is made, both timers are loaded with 0xFFFF. -/
structure Watch where
  low : U8
  load : U16
  since : ℕ
  acks : List ℕ

namespace Watch

def start : Watch := { low := 0#8, load := 0xFFFF#16, since := 0, acks := [] }

/-- When the timer runs out. -/
def expiry (w : Watch) : ℕ := w.since + w.load.toNat + 1

/-- What a write of the high byte loads. -/
def loaded (high low : U8) : U16 := (high.setWidth 16 <<< 8) ||| low.setWidth 16

/-- What an access tells about the timer. -/
def after (t : Timer) (w : Watch) : Access → Watch
  | .read off k =>
    if t.AcksRead (regOf off) then { w with acks := w.acks ++ [k.vclk.toNat] } else w
  | .write off v k =>
    if t.SetsLow (regOf off) then { w with low := v }
    else if t.Loads (regOf off) then
      { w with
        load := loaded v w.low
        since := k.vclk.toNat
        acks := [] }
    else if regOf off = vIFR ∧ v &&& t.bit ≠ 0#8 then
      { w with acks := w.acks ++ [k.vclk.toNat] }
    else w

/-- No acknowledgement since the last load came after the timer had run out. -/
def Early (w : Watch) : Prop := ∀ a ∈ w.acks, a < w.expiry

instance (w : Watch) : Decidable w.Early := inferInstanceAs (Decidable (∀ a ∈ w.acks, a < _))

/-- The timer has run out by a time, and nothing has acknowledged it since it did. -/
def Pending (w : Watch) (t : ℕ) : Prop := w.expiry ≤ t ∧ w.Early

end Watch

/-- The cell after a run. -/
def ran (straps : U8) (run : List Access) : PmuVia := run.foldl after (powerOn straps)

/-- A timer after a run. -/
def watch (t : Timer) (run : List Access) : Watch := run.foldl (Watch.after t) Watch.start

/-- IFR reads as it should: a timer's flag says that it has run out since it was last loaded or
acknowledged, and bit 7 that an enabled flag is up. -/
structure IfrTells (straps : U8) (run : List Access) (k : PmuClock) : Prop where
  timer : ∀ t : Timer, ((ran straps run).readReg k vIFR).1 &&& t.bit ≠ 0#8 ↔
    (watch t run).Pending k.vclk.toNat
  any : ((ran straps run).readReg k vIFR).1 &&& 0x80#8 ≠ 0#8 ↔
    ((ran straps run).readReg k vIFR).1 &&& (ran straps run).ier &&& 0x7F#8 ≠ 0#8

/-! ## The cell keeps the host's account -/

/-- What the cell has of a timer, and the flags that are stored. -/
structure Counts where
  low : U8
  load : U16
  at' : U64
  ifr : U8

def counts (s : PmuVia) : Timer → Counts
  | .t1 => { low := s.t1ll, load := s.t1Load, at' := s.t1At, ifr := s.ifr }
  | .t2 => { low := s.t2cl, load := s.t2Load, at' := s.t2At, ifr := s.ifr }

/-- The cell agrees with the account, and no flag is stored. -/
structure Counts.Tracks (c : Counts) (w : Watch) : Prop where
  low : c.low = w.low
  load : c.load = w.load
  since : c.at'.toNat = w.since
  ifr : c.ifr = 0#8

theorem powerOn_tracks (straps : U8) (t : Timer) :
    ((powerOn straps).counts t).Tracks Watch.start := by
  cases t <;> exact ⟨rfl, rfl, rfl, rfl⟩

theorem giveByte_counts (s : PmuVia) (t : Timer) : s.giveByte.counts t = s.counts t := by
  simp only [giveByte, nextReply]
  rcases s.reply[s.replyAt]? with - | b <;> cases t <;> rfl

/-- The PMU leaves the timers alone. -/
theorem reqEdge_counts (s : PmuVia) (asserted : Bool) (t : Timer) :
    (s.reqEdge asserted).counts t = s.counts t := by
  unfold reqEdge
  split
  · split
    · cases t <;> rfl
    · exact s.giveByte_counts t
  · simp only
    split <;> cases t <;> rfl

theorem orbWrite_counts (s : PmuVia) (v : U8) (t : Timer) :
    (s.orbWrite v).counts t = s.counts t := by
  simp only [orbWrite]
  split
  · rw [reqEdge_counts]
    cases t <;> rfl
  · cases t <;> rfl

/-- An acknowledgement, and any other read, clears nothing, for nothing is stored. -/
theorem Counts.Tracks.read {s : PmuVia} {t : Timer} {w : Watch} (h : (s.counts t).Tracks w)
    (off : U32) (k : PmuClock) :
    ((s.read off k).2.counts t).Tracks (w.after t (.read off k)) := by
  have hifr : s.ifr = 0#8 := by
    cases t <;> exact h.ifr
  have hkept : (s.read off k).2.counts t = s.counts t := by
    unfold PmuVia.read
    cases regOf off <;> cases t <;> simp [readReg, counts, hifr]
  rw [hkept]
  simp only [Watch.after]
  split_ifs <;> exact ⟨h.low, h.load, h.since, h.ifr⟩

theorem Counts.Tracks.write {s : PmuVia} {t : Timer} {w : Watch} (h : (s.counts t).Tracks w)
    (off : U32) (v : U8) (k : PmuClock) :
    ((s.write off v k).counts t).Tracks (w.after t (.write off v k)) := by
  have hifr : s.ifr = 0#8 := by
    cases t <;> exact h.ifr
  simp only [PmuVia.write, Watch.after]
  cases regOf off
  case vORB =>
    rw [show s.writeReg k vORB v = s.orbWrite v from rfl, orbWrite_counts]
    cases t <;> exact ⟨h.low, h.load, h.since, h.ifr⟩
  case vT1CH =>
    cases t
    · exact ⟨h.low, congrArg (Watch.loaded v) h.low, rfl, by simp [writeReg, counts, hifr]⟩
    · exact ⟨h.low, h.load, h.since, by simp [writeReg, counts, hifr]⟩
  case vT2CH =>
    cases t
    · exact ⟨h.low, h.load, h.since, by simp [writeReg, counts, hifr]⟩
    · exact ⟨h.low, congrArg (Watch.loaded v) h.low, rfl, by simp [writeReg, counts, hifr]⟩
  case vIFR =>
    have hkept : (s.writeReg k vIFR v).counts t = s.counts t := by
      cases t <;> simp [writeReg, counts, hifr]
    have hset : ¬ t.SetsLow vIFR := by cases t <;> decide
    have hload : ¬ t.Loads vIFR := by cases t <;> decide
    rw [hkept, if_neg hset, if_neg hload]
    split_ifs <;> exact ⟨h.low, h.load, h.since, h.ifr⟩
  case vIER =>
    simp only [writeReg]
    split <;> cases t <;> exact ⟨h.low, h.load, h.since, h.ifr⟩
  all_goals cases t <;> first
    | exact ⟨h.low, h.load, h.since, h.ifr⟩
    | exact ⟨rfl, h.load, h.since, h.ifr⟩

theorem Counts.Tracks.after {s : PmuVia} {t : Timer} {w : Watch} (h : (s.counts t).Tracks w)
    (a : Access) : ((s.after a).counts t).Tracks (w.after t a) :=
  match a with
  | .read off k => h.read off k
  | .write off v k => h.write off v k

theorem ran_tracks (straps : U8) (t : Timer) (run : List Access) :
    ((ran straps run).counts t).Tracks (watch t run) := by
  unfold ran watch
  induction run using List.reverseRecOn with
  | nil => exact powerOn_tracks straps t
  | append_singleton run a ih =>
    rw [List.foldl_append, List.foldl_append]
    exact ih.after a

/-! ## What IFR tells -/

theorem InOrder.clock_le {run : List Access} {k : PmuClock} (h : InOrder run k) :
    ∀ a ∈ run, a.clock.vclk.toNat ≤ k.vclk.toNat := by
  have : IsTrans PmuClock PmuClock.Advances := ⟨fun _ _ _ => PmuClock.Advances.trans⟩
  rw [InOrder, List.isChain_iff_pairwise, List.pairwise_append] at h
  intro a ha
  exact (h.2.2 a.clock (List.mem_map_of_mem ha) k List.mem_cons_self).vclk

/-- The account has no time in it that is later than every access. -/
theorem watch_le (t : Timer) {run : List Access} {b : ℕ}
    (h : ∀ a ∈ run, a.clock.vclk.toNat ≤ b) :
    (watch t run).since ≤ b ∧ ∀ a ∈ (watch t run).acks, a ≤ b := by
  unfold watch
  induction run using List.reverseRecOn with
  | nil => exact ⟨Nat.zero_le b, fun a ha => absurd ha List.not_mem_nil⟩
  | append_singleton run a ih =>
    rcases ih fun a ha => h a (List.mem_append_left _ ha) with ⟨hsince, hacks⟩
    have ha : a.clock.vclk.toNat ≤ b := h a (List.mem_append_right _ List.mem_cons_self)
    have hmore : ∀ c ∈ (run.foldl (Watch.after t) Watch.start).acks ++ [a.clock.vclk.toNat],
        c ≤ b := by
      intro c hc
      rcases List.mem_append.mp hc with hc | hc
      · exact hacks c hc
      · rw [List.mem_singleton.mp hc]
        exact ha
    rw [List.foldl_append, List.foldl_cons, List.foldl_nil]
    cases a with
    | read off k =>
      simp only [Watch.after]
      split_ifs
      · exact ⟨hsince, hmore⟩
      · exact ⟨hsince, hacks⟩
    | write off v k =>
      simp only [Watch.after]
      split_ifs
      · exact ⟨hsince, hacks⟩
      · exact ⟨ha, fun c hc => absurd hc List.not_mem_nil⟩
      · exact ⟨hsince, hmore⟩
      · exact ⟨hsince, hacks⟩

theorem ran_iff {load : U16} {at' : U64} {k : PmuClock} (h : at'.toNat ≤ k.vclk.toNat) :
    Ran load at' k ↔ at'.toNat + load.toNat + 1 ≤ k.vclk.toNat := by
  have hload : load.toNat < 2 ^ 16 := load.isLt
  unfold Ran
  rw [BitVec.le_def, BitVec.toNat_sub_of_le h, BitVec.toNat_add, BitVec.toNat_setWidth,
    Nat.mod_eq_of_lt (a := load.toNat) (by omega)]
  simp only [BitVec.toNat_ofNat]
  omega

/-- A flag is what its count tells. -/
theorem flags_bit {s : PmuVia} (k : PmuClock) (hifr : s.ifr = 0#8) (t : Timer) :
    s.flags k &&& t.bit ≠ 0#8 ↔ Ran (s.counts t).load (s.counts t).at' k := by
  simp only [flags, hifr]
  by_cases h1 : Ran s.t1Load s.t1At k <;> by_cases h2 : Ran s.t2Load s.t2At k <;>
    cases t <;> simp only [counts, h1, h2, if_true, if_false] <;> split_ifs <;> decide

/-- Bit 7 hides no other flag. -/
theorem any_hides (f ier : U8) : (f ||| 0x80#8) &&& ier &&& 0x7F#8 = f &&& ier &&& 0x7F#8 := by
  have hnone : 0x80#8 &&& (ier &&& 0x7F#8) = 0#8 := by
    rw [BitVec.and_comm ier, ← BitVec.and_assoc, show 0x80#8 &&& 0x7F#8 = 0#8 from rfl,
      BitVec.zero_and]
  rw [BitVec.and_assoc, BitVec.and_comm, BitVec.and_or_distrib_left, BitVec.and_comm _ 0x80#8,
    hnone, BitVec.or_zero, BitVec.and_comm, ← BitVec.and_assoc]

theorem flags_any {s : PmuVia} (k : PmuClock) (hifr : s.ifr = 0#8) :
    s.flags k &&& 0x80#8 ≠ 0#8 ↔ s.flags k &&& s.ier &&& 0x7F#8 ≠ 0#8 := by
  -- the timers' flags, before bit 7 is put to them
  have hany : ∀ f : U8, f &&& 0x80#8 = 0#8 →
      ((if f &&& s.ier &&& 0x7F#8 ≠ 0#8 then f ||| 0x80#8 else f) &&& 0x80#8 ≠ 0#8 ↔
        (if f &&& s.ier &&& 0x7F#8 ≠ 0#8 then f ||| 0x80#8 else f) &&& s.ier &&& 0x7F#8
          ≠ 0#8) := by
    intro f hf
    by_cases h : f &&& s.ier &&& 0x7F#8 = 0#8
    · simp [h, hf]
    · rw [if_pos h, any_hides]
      refine iff_of_true ?_ h
      rw [BitVec.and_comm, BitVec.and_or_distrib_left, BitVec.and_comm, hf]
      decide
  simp only [flags]
  apply hany
  rw [hifr]
  split_ifs <;> decide

/-- IFR tells what it should exactly when no timer was acknowledged after it had run out. -/
theorem ifrTells_iff (straps : U8) {run : List Access} {k : PmuClock} (h : InOrder run k) :
    IfrTells straps run k ↔ ∀ t : Timer, (watch t run).Early := by
  have hifr : (ran straps run).ifr = 0#8 := (ran_tracks straps .t1 run).ifr
  have htimer (t : Timer) : ((ran straps run).readReg k vIFR).1 &&& t.bit ≠ 0#8 ↔
      (watch t run).expiry ≤ k.vclk.toNat := by
    have htracks := ran_tracks straps t run
    have hsince := (watch_le t h.clock_le).1
    rw [← htracks.since] at hsince
    rw [show ((ran straps run).readReg k vIFR).1 = (ran straps run).flags k from rfl,
      flags_bit k hifr t, ran_iff hsince, htracks.since, htracks.load, Watch.expiry]
  constructor
  · intro htells t a ha
    -- a late acknowledgement is one of a flag that still reads as set
    by_contra hlate
    have hout : (watch t run).expiry ≤ k.vclk.toNat :=
      le_trans (not_lt.mp hlate) ((watch_le t h.clock_le).2 a ha)
    exact hlate (((htells.timer t).mp ((htimer t).mpr hout)).2 a ha)
  · intro hearly
    refine ⟨fun t => ?_, flags_any k hifr⟩
    rw [htimer t, Watch.Pending, and_iff_left (hearly t)]

/-- T1 is loaded with 0, and acknowledged when it may have run out. -/
def loadThenAck (t : U64) : List Access :=
  [.write 0x0A00#32 0#8 ⟨0#64, none⟩, .read 0x0800#32 ⟨t, none⟩]

theorem ifrTells_iff_loadThenAck :
    InOrder (loadThenAck 0x40#64) ⟨0x100#64, none⟩
      ∧ (IfrTells 0#8 (loadThenAck 0x40#64) ⟨0x100#64, none⟩
        ↔ ∀ t : Timer, (watch t (loadThenAck 0x40#64)).Early) := by
  have h : InOrder (loadThenAck 0x40#64) ⟨0x100#64, none⟩ := by
    unfold InOrder
    decide
  exact ⟨h, ifrTells_iff 0#8 h⟩

/-- An acknowledgement that follows the expiry leaves the flag set. -/
theorem lateAck_reads :
    ¬ ∀ (straps : U8) (run : List Access) (k : PmuClock), InOrder run k →
      IfrTells straps run k := by
  intro h
  have horder : InOrder (loadThenAck 0x100#64) ⟨0x100#64, none⟩ := by
    unfold InOrder
    decide
  have hpending := ((h 0#8 _ _ horder).timer .t1).mp (by decide)
  revert hpending
  unfold Watch.Pending
  decide

end PmuVia

end OpenPowerMac
