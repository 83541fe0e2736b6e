/-
Host pacing: `HostPacer` (`machine/include/opm/hostclock.hpp`), which moves the timebase to where
the host's clock says it should be.

The pacer keeps an origin, a host time and the timebase at it, and brings the timebase up to
`tbBase + (now - base) / 40` through `Cpu::tick`. It knows a value that it did not leave there
for somebody else's and takes it for its new origin. All of that is exact (`pacing_exact`) as long
as the target is below `2^64` and the cycles handed over fit the 32 bits they are passed in. A guest
that writes a timebase close to the top stops its clock: the target wraps, and a wrapped target
is always behind (`wrapped_target_stalls`).
-/
import OpenPowerMac.ClockSplit

set_option autoImplicit false

namespace OpenPowerMac

variable {β : Type}

/-! ## The source -/

/-- `HostPacer`. A host time is its count of nanoseconds. -/
structure HostPacer where
  base : ℕ := 0
  tbBase : U64 := 0#64
  slips : U64 := 0#64
  lastTb : U64 := 0#64
  rebases : U64 := 0#64

namespace HostPacer

/-- 25 MHz: one timebase tick every 40 ns. -/
def kNsPerTick : U64 := 40#64

/-- The most timebase ticks that are ever handed over in one go. -/
def kCatchupTb : U64 := 1250000#64

/-- `HostPacer::anchor`, at the host time `now`. -/
def anchor (p : HostPacer) (now : ℕ) (cpu : Cpu β) : HostPacer :=
  { p with base := now, tbBase := cpu.st.tb, lastTb := cpu.st.tb }

/-- `HostPacer::sync`, at the host time `now`: the timebase delta applied, the pacer and the
processor. -/
def sync (p : HostPacer) (now : ℕ) (cpu : Cpu β) : U64 × HostPacer × Cpu β :=
  -- someone else moved the timebase: start over from where it is
  if cpu.st.tb ≠ p.lastTb then
    (0#64,
      { p with base := now, tbBase := cpu.st.tb, lastTb := cpu.st.tb, rebases := p.rebases + 1#64 },
      cpu)
  else
    let ns := BitVec.ofNat 64 (now - p.base)
    let want := p.tbBase + ns / kNsPerTick
    if want ≤ cpu.st.tb then (0#64, p, cpu)
    else
      let behind := want - cpu.st.tb
      -- no more than this is made up at once; the rest is let slip
      let delta := if kCatchupTb < behind then kCatchupTb else behind
      let p :=
        if kCatchupTb < behind then
          { p with base := now, tbBase := cpu.st.tb + delta, slips := p.slips + 1#64 }
        else p
      let cpu := cpu.tick ((delta * cpu.cyclesPerTbTick.setWidth 64).setWidth 32)
      (delta, { p with lastTb := cpu.st.tb }, cpu)

end HostPacer

/-! ## What is handed over -/

namespace Cpu

variable (c : Cpu β) (hacc : c.cycleAccum.toNat < c.cyclesPerTbTick.toNat)
include hacc

/-- A tick of any length, as one division of what the accumulator then holds. -/
theorem tick_divides (x : U32) :
    (c.tick x).st.tb = c.st.tb + BitVec.ofNat 64 ((c.cycleAccum + x).toNat / c.cyclesPerTbTick.toNat)
      ∧ (c.tick x).cycleAccum.toNat < (c.tick x).cyclesPerTbTick.toNat := by
  have hpos : 0 < c.cyclesPerTbTick.toNat := Nat.lt_of_le_of_lt (Nat.zero_le _) hacc
  have hdiv : c.cyclesPerTbTick ≠ 0#32 := by
    intro h0
    rw [h0] at hpos
    exact absurd hpos (by decide)
  obtain ⟨-, -, hlt, -⟩ := tick_counts c hacc x
  refine ⟨?_, hlt⟩
  have hq := Nat.lt_of_le_of_lt (Nat.div_le_self _ c.cyclesPerTbTick.toNat) (c.cycleAccum + x).isLt
  rw [tick]
  dsimp only
  split
  · rename_i hsmall
    rw [Nat.div_eq_of_lt (BitVec.lt_def.mp hsmall)]
    exact (BitVec.add_zero _).symm
  · rw [tickQuot_eq _ _ hdiv]
    dsimp only
    congr 1
    apply BitVec.eq_of_toNat_eq
    rw [setWidth64_toNat, BitVec.toNat_ofNat, BitVec.toNat_ofNat, Nat.mod_eq_of_lt hq,
      Nat.mod_eq_of_lt (by omega)]

/-- Ticks handed over as cycles never come out as more, and come out whole where the accumulator
has room for the cycles. -/
theorem tick_hands_over {delta : U64} (hcap : delta.toNat ≤ 1250000)
    (htop : c.st.tb.toNat + delta.toNat < 2 ^ 64) {after : Cpu β}
    (hafter : after = c.tick ((delta * c.cyclesPerTbTick.setWidth 64).setWidth 32)) :
    after.cycleAccum.toNat < after.cyclesPerTbTick.toNat
      ∧ ∃ q ≤ delta.toNat, after.st.tb.toNat = c.st.tb.toNat + q
        ∧ (c.cycleAccum.toNat + delta.toNat * c.cyclesPerTbTick.toNat < 2 ^ 32 →
          q = delta.toNat) := by
  have hpos : 0 < c.cyclesPerTbTick.toNat := Nat.lt_of_le_of_lt (Nat.zero_le _) hacc
  obtain ⟨x, hx⟩ : ∃ x : U32, x = (delta * c.cyclesPerTbTick.setWidth 64).setWidth 32 := ⟨_, rfl⟩
  obtain ⟨htb, hlt⟩ := tick_divides c hacc x
  rw [← hx] at hafter
  subst hafter
  have hprod : delta.toNat * c.cyclesPerTbTick.toNat ≤ 1250000 * 2 ^ 32 :=
    Nat.mul_le_mul hcap c.cyclesPerTbTick.isLt.le
  have hxn : x.toNat = delta.toNat * c.cyclesPerTbTick.toNat % 2 ^ 32 := by
    rw [hx, BitVec.toNat_setWidth, BitVec.toNat_mul, setWidth64_toNat,
      Nat.mod_eq_of_lt (a := delta.toNat * _) (by omega)]
  have hsum : (c.cycleAccum + x).toNat
      ≤ c.cycleAccum.toNat + delta.toNat * c.cyclesPerTbTick.toNat := by
    rw [BitVec.toNat_add, hxn]
    exact (Nat.mod_le _ _).trans (Nat.add_le_add_left (Nat.mod_le _ _) _)
  have hle : (c.cycleAccum + x).toNat / c.cyclesPerTbTick.toNat ≤ delta.toNat := by
    apply Nat.le_of_lt_succ
    rw [Nat.div_lt_iff_lt_mul hpos, Nat.succ_mul]
    omega
  refine ⟨hlt, (c.cycleAccum + x).toNat / c.cyclesPerTbTick.toNat, hle, ?_, ?_⟩
  · rw [htb, BitVec.toNat_add, BitVec.toNat_ofNat, Nat.mod_eq_of_lt (a := _ / _) (by omega),
      Nat.mod_eq_of_lt (by omega)]
  · intro hroom
    rw [BitVec.toNat_add, hxn, Nat.mod_eq_of_lt (a := delta.toNat * _) (by omega),
      Nat.mod_eq_of_lt hroom, Nat.add_mul_div_right _ _ hpos, Nat.div_eq_of_lt hacc, Nat.zero_add]

end Cpu

/-! ## Runs -/

/-- A paced machine, and the host time at which it was last looked at. -/
structure Paced (β : Type) where
  pacer : HostPacer
  cpu : Cpu β
  now : ℕ

namespace Paced

/-- After a `sync` at the host time `now`. -/
def synced (s : Paced β) (now : ℕ) : Paced β where
  pacer := (s.pacer.sync now s.cpu).2.1
  cpu := (s.pacer.sync now s.cpu).2.2
  now := now

/-- The timebase is not where the pacer left it. -/
def Foreign (s : Paced β) : Prop := s.cpu.st.tb ≠ s.pacer.lastTb

/-- Where the host's clock says the timebase should be: `tbBase + ⌊(now - base) / 40 ns⌋`. -/
def target (s : Paced β) (now : ℕ) : ℕ := s.pacer.tbBase.toNat + (now - s.pacer.base) / 40

/-- How far behind the timebase is. -/
def behind (s : Paced β) (now : ℕ) : ℕ := s.target now - s.cpu.st.tb.toNat

/-- A host time the pacer can be called at: not before the last one, and a count that the clock's
64 signed bits hold. -/
def Later (s : Paced β) (now : ℕ) : Prop := s.now ≤ now ∧ now < 2 ^ 63

/-- The target has its 64 bits, and the cycles handed over have their 32. -/
def Room (s : Paced β) (now : ℕ) : Prop :=
  ¬ s.Foreign → s.target now < 2 ^ 64
    ∧ s.cpu.cycleAccum.toNat + min (s.behind now) 1250000 * s.cpu.cyclesPerTbTick.toNat < 2 ^ 32

/-- The states of a run: calls of `sync`, each meeting `ok`, and between them the guest, which
writes the timebase and everything else as it likes and leaves the clock's remainder below its
divisor. -/
inductive Run (ok : Paced β → ℕ → Prop) (s₀ : Paced β) : Paced β → Prop
  | start : Run ok s₀ s₀
  | guest {s : Paced β} (cpu : Cpu β) (hrun : Run ok s₀ s)
      (hdivider : cpu.cycleAccum.toNat < cpu.cyclesPerTbTick.toNat) : Run ok s₀ { s with cpu := cpu }
  | sync {s : Paced β} (now : ℕ) (hrun : Run ok s₀ s) (hlater : s.Later now) (hok : ok s now) :
      Run ok s₀ (s.synced now)

/-- Syncs with no guest write and no stall between them. -/
inductive Steady (s₀ : Paced β) : Paced β → Prop
  | start : Steady s₀ s₀
  | sync {s : Paced β} (now : ℕ) (hrun : Steady s₀ s) (hlater : s.Later now) (hroom : s.Room now)
      (hprompt : s.behind now ≤ 1250000) : Steady s₀ (s.synced now)

/-- A pacer that starts at its origin, with the clock's remainder below its divisor. -/
structure Started (s : Paced β) : Prop where
  divider : s.cpu.cycleAccum.toNat < s.cpu.cyclesPerTbTick.toNat
  origin : s.pacer.base ≤ s.now
  left : s.pacer.lastTb = s.pacer.tbBase

/-- What is asked of a `sync` at the host time `now`. -/
structure SyncExact (s : Paced β) (now : ℕ) : Prop where
  /-- The timebase never runs backwards. -/
  forward : s.cpu.st.tb ≤ (s.synced now).cpu.st.tb
  /-- It is where the host's clock says. -/
  onTarget : (s.synced now).cpu.st.tb.toNat = (s.synced now).target now
  /-- It is what the pacer will look for. -/
  owned : ¬ (s.synced now).Foreign
  /-- A foreign value costs one rebase, and becomes the origin. -/
  rebased : s.Foreign → (s.synced now).pacer =
    { s.pacer with base := now, tbBase := s.cpu.st.tb, lastTb := s.cpu.st.tb,
                   rebases := s.pacer.rebases + 1#64 } ∧ (s.synced now).cpu = s.cpu
  /-- Otherwise the origin stays, while the timebase is not far behind. -/
  kept : ¬ s.Foreign → s.behind now ≤ 1250000 → (s.synced now).cpu.st.tb.toNat = s.target now
    ∧ (s.synced now).pacer = { s.pacer with lastTb := (s.synced now).cpu.st.tb }
  /-- After a stall the guest is given all but what is beyond the cap. -/
  slipped : ¬ s.Foreign → 1250000 < s.behind now →
    (s.synced now).cpu.st.tb.toNat = s.cpu.st.tb.toNat + 1250000
      ∧ (s.synced now).pacer =
        { s.pacer with base := now, tbBase := (s.synced now).cpu.st.tb,
                       lastTb := (s.synced now).cpu.st.tb, slips := s.pacer.slips + 1#64 }
  /-- From here on the clock goes at the host's rate. -/
  steady : ∀ s', Steady (s.synced now) s' →
    s'.cpu.st.tb.toNat = (s.synced now).target s'.now
      ∧ s'.pacer = { (s.synced now).pacer with lastTb := s'.cpu.st.tb }

/-- The pacer's invariant: what it left the timebase at is not ahead of the host. -/
structure Inv (s : Paced β) : Prop where
  divider : s.cpu.cycleAccum.toNat < s.cpu.cyclesPerTbTick.toNat
  origin : s.pacer.base ≤ s.now
  left : s.pacer.lastTb.toNat ≤ s.target s.now

/-! ## One call -/

variable {s : Paced β} {now : ℕ}

theorem synced_foreign (hf : s.Foreign) : s.synced now =
    { pacer := { s.pacer with base := now, tbBase := s.cpu.st.tb, lastTb := s.cpu.st.tb,
                              rebases := s.pacer.rebases + 1#64 }, cpu := s.cpu, now := now } := by
  have hne : s.cpu.st.tb ≠ s.pacer.lastTb := hf
  rw [synced, HostPacer.sync, if_pos hne]

/-- The target the source computes is the target in 64 bits. -/
theorem want_toNat (hlater : s.Later now) :
    (s.pacer.tbBase + BitVec.ofNat 64 (now - s.pacer.base) / HostPacer.kNsPerTick).toNat
      = s.target now % 2 ^ 64 := by
  obtain ⟨-, hcount⟩ := hlater
  rw [BitVec.toNat_add, BitVec.toNat_udiv, BitVec.toNat_ofNat,
    Nat.mod_eq_of_lt (a := now - s.pacer.base) (by omega)]
  rfl

theorem synced_idle (hf : ¬ s.Foreign) (hlater : s.Later now)
    (hidle : s.target now % 2 ^ 64 ≤ s.cpu.st.tb.toNat) : s.synced now = { s with now := now } := by
  have hwant : s.pacer.tbBase + BitVec.ofNat 64 (now - s.pacer.base) / HostPacer.kNsPerTick
      ≤ s.cpu.st.tb := by
    rw [BitVec.le_def, want_toNat hlater]
    exact hidle
  have heq : ¬ s.cpu.st.tb ≠ s.pacer.lastTb := hf
  rw [synced, HostPacer.sync, if_neg heq]
  dsimp only
  rw [if_pos hwant]

/-- A timebase that is behind is brought forward, and never past the target. -/
theorem synced_behind (hdivider : s.cpu.cycleAccum.toNat < s.cpu.cyclesPerTbTick.toNat)
    (hf : ¬ s.Foreign) (hlater : s.Later now) {gap : ℕ}
    (hgap : s.target now % 2 ^ 64 = s.cpu.st.tb.toNat + gap) (hpos : 0 < gap) :
    (s.synced now).cpu.cycleAccum.toNat < (s.synced now).cpu.cyclesPerTbTick.toNat
      ∧ (∃ q ≤ min gap 1250000, (s.synced now).cpu.st.tb.toNat = s.cpu.st.tb.toNat + q
        ∧ (s.cpu.cycleAccum.toNat + min gap 1250000 * s.cpu.cyclesPerTbTick.toNat < 2 ^ 32 →
          q = min gap 1250000))
      ∧ (s.synced now).pacer =
        if 1250000 < gap then
          { s.pacer with base := now, tbBase := BitVec.ofNat 64 (s.cpu.st.tb.toNat + 1250000),
                         lastTb := (s.synced now).cpu.st.tb, slips := s.pacer.slips + 1#64 }
        else { s.pacer with lastTb := (s.synced now).cpu.st.tb } := by
  obtain ⟨want, hw⟩ : ∃ want,
      want = s.pacer.tbBase + BitVec.ofNat 64 (now - s.pacer.base) / HostPacer.kNsPerTick := ⟨_, rfl⟩
  have hwant : want.toNat = s.cpu.st.tb.toNat + gap := by rw [hw, want_toNat hlater, hgap]
  have hwlt := want.isLt
  have heq : ¬ s.cpu.st.tb ≠ s.pacer.lastTb := hf
  have hnle : ¬ want ≤ s.cpu.st.tb := by
    rw [BitVec.le_def]
    omega
  have hbehind : (want - s.cpu.st.tb).toNat = gap := by
    rw [BitVec.toNat_sub_of_le (by rw [BitVec.le_def]; omega)]
    omega
  have hover : HostPacer.kCatchupTb < want - s.cpu.st.tb ↔ 1250000 < gap := by
    rw [BitVec.lt_def, hbehind]
    exact Iff.rfl
  obtain ⟨delta, hd⟩ : ∃ delta, delta = if HostPacer.kCatchupTb < want - s.cpu.st.tb then
      HostPacer.kCatchupTb else want - s.cpu.st.tb := ⟨_, rfl⟩
  have hdelta : delta.toNat = min gap 1250000 := by
    rw [hd]
    split
    · rename_i h
      rw [Nat.min_eq_right (hover.mp h).le]
      rfl
    · rename_i h
      rw [hbehind, Nat.min_eq_left (not_lt.mp (hover.not.mp h))]
  -- the sync charges the timebase by ticking, the ticks' cycles cut to 32 bits
  have hcpu : (s.synced now).cpu
      = s.cpu.tick ((delta * s.cpu.cyclesPerTbTick.setWidth 64).setWidth 32) := by
    rw [synced, HostPacer.sync, if_neg heq]
    dsimp only
    rw [← hw, if_neg hnle, ← hd]
  obtain ⟨hlt, q, hq, htb, hwhole⟩ :=
    Cpu.tick_hands_over s.cpu hdivider (by omega) (by omega) hcpu
  rw [hdelta] at hq hwhole
  refine ⟨hlt, ⟨q, hq, htb, hwhole⟩, ?_⟩
  rw [hcpu, synced, HostPacer.sync, if_neg heq]
  dsimp only
  rw [← hw, if_neg hnle, ← hd]
  by_cases hcap : 1250000 < gap
  · have hfull : s.cpu.st.tb + delta = BitVec.ofNat 64 (s.cpu.st.tb.toNat + 1250000) := by
      rw [hd, if_pos (hover.mpr hcap), BitVec.ofNat_add, BitVec.ofNat_toNat, BitVec.setWidth_eq]
      rfl
    rw [if_pos hcap, if_pos (hover.mpr hcap), hfull]
  · rw [if_neg hcap, if_neg (hover.not.mpr hcap)]

theorem target_mono (s : Paced β) {t u : ℕ} (h : t ≤ u) : s.target t ≤ s.target u :=
  Nat.add_le_add_left (Nat.div_le_div_right (Nat.sub_le_sub_right h _)) _

/-- Every call keeps the invariant, takes the timebase no further back, and remembers it. -/
theorem Inv.sync (hinv : s.Inv) (hlater : s.Later now) :
    (s.synced now).Inv ∧ s.cpu.st.tb ≤ (s.synced now).cpu.st.tb ∧ ¬ (s.synced now).Foreign := by
  by_cases hf : s.Foreign
  · rw [synced_foreign hf]
    exact ⟨⟨hinv.divider, le_rfl, Nat.le_add_right _ _⟩, BitVec.le_refl _, fun h => h rfl⟩
  · have hleft := hinv.left.trans (target_mono s hlater.1)
    rcases Nat.lt_or_ge s.cpu.st.tb.toNat (s.target now % 2 ^ 64) with hlt | hidle
    · obtain ⟨gap, hpos, hgap⟩ : ∃ gap, 0 < gap
          ∧ s.target now % 2 ^ 64 = s.cpu.st.tb.toNat + gap :=
        ⟨_, Nat.sub_pos_of_lt hlt, (Nat.add_sub_of_le hlt.le).symm⟩
      obtain ⟨hdivider, ⟨q, hq, htb, -⟩, hpacer⟩ := synced_behind hinv.divider hf hlater hgap hpos
      have hforward : s.cpu.st.tb ≤ (s.synced now).cpu.st.tb := by
        rw [BitVec.le_def, htb]
        exact Nat.le_add_right _ _
      have hmod := Nat.mod_le (s.target now) (2 ^ 64)
      by_cases hcap : 1250000 < gap
      · rw [if_pos hcap] at hpacer
        refine ⟨⟨hdivider, ?_, ?_⟩, hforward, ?_⟩
        · rw [hpacer]
          exact le_rfl
        · -- the new origin is what was handed over, or above it
          have htop : s.cpu.st.tb.toNat + 1250000 < 2 ^ 64 := by omega
          rw [target, hpacer, htb]
          dsimp only
          rw [BitVec.toNat_ofNat, Nat.mod_eq_of_lt htop]
          omega
        · rw [Foreign, hpacer]
          exact fun h => h rfl
      · rw [if_neg hcap] at hpacer
        refine ⟨⟨hdivider, ?_, ?_⟩, hforward, ?_⟩
        · rw [hpacer]
          exact hinv.origin.trans hlater.1
        · have hsame : (s.synced now).target now = s.target now := by rw [target, hpacer]; rfl
          change _ ≤ (s.synced now).target now
          rw [hsame, hpacer]
          dsimp only
          omega
        · rw [Foreign, hpacer]
          exact fun h => h rfl
    · rw [synced_idle hf hlater hidle]
      exact ⟨⟨hinv.divider, hinv.origin.trans hlater.1, hleft⟩, BitVec.le_refl _, hf⟩

/-- With room, a call that finds its own value brings it up to the target, or by the cap. -/
theorem Inv.sync_owned (hinv : s.Inv) (hlater : s.Later now) (hroom : s.Room now)
    (hf : ¬ s.Foreign) : s.target now = s.cpu.st.tb.toNat + s.behind now
      ∧ (s.synced now).cpu.st.tb.toNat = s.cpu.st.tb.toNat + min (s.behind now) 1250000
      ∧ (s.synced now).pacer =
        if 1250000 < s.behind now then
          { s.pacer with base := now, tbBase := (s.synced now).cpu.st.tb,
                         lastTb := (s.synced now).cpu.st.tb, slips := s.pacer.slips + 1#64 }
        else { s.pacer with lastTb := (s.synced now).cpu.st.tb } := by
  obtain ⟨htop, hcycles⟩ := hroom hf
  have hmine : s.cpu.st.tb = s.pacer.lastTb := not_not.mp hf
  have hleft := hinv.left.trans (target_mono s hlater.1)
  have htarget : s.target now = s.cpu.st.tb.toNat + s.behind now := by
    rw [behind, hmine]
    omega
  refine ⟨htarget, ?_⟩
  rcases Nat.eq_zero_or_pos (s.behind now) with hzero | hpos
  · have hidle : s.target now % 2 ^ 64 ≤ s.cpu.st.tb.toNat := by
      rw [Nat.mod_eq_of_lt htop, htarget, hzero]
      exact le_rfl
    rw [synced_idle hf hlater hidle, hzero, if_neg (by omega)]
    refine ⟨rfl, ?_⟩
    dsimp only
    rw [hmine]
  · have hgap : s.target now % 2 ^ 64 = s.cpu.st.tb.toNat + s.behind now := by
      rw [Nat.mod_eq_of_lt htop, htarget]
    obtain ⟨-, ⟨q, -, htb, hwhole⟩, hpacer⟩ := synced_behind hinv.divider hf hlater hgap hpos
    rw [hwhole hcycles] at htb
    refine ⟨htb, ?_⟩
    rw [hpacer]
    split
    · rename_i hcap
      have hnew : BitVec.ofNat 64 (s.cpu.st.tb.toNat + 1250000) = (s.synced now).cpu.st.tb := by
        apply BitVec.eq_of_toNat_eq
        rw [htb, Nat.min_eq_right hcap.le, BitVec.toNat_ofNat, Nat.mod_eq_of_lt (by omega)]
      rw [hnew]
    · rfl

/-! ## Whole runs -/

theorem Run.inv {ok : Paced β → ℕ → Prop} {s₀ : Paced β} (hstart : s₀.Started)
    (hrun : Run ok s₀ s) : s.Inv := by
  induction hrun with
  | start =>
      exact ⟨hstart.divider, hstart.origin, hstart.left ▸ Nat.le_add_right _ _⟩
  | guest cpu _ hdivider ih => exact ⟨hdivider, ih.origin, ih.left⟩
  | sync now _ hlater _ ih => exact (ih.sync hlater).1

/-- Between guest writes and stalls the origin stays, and the timebase keeps to it. -/
theorem Steady.exact {s₀ : Paced β} (hinv : s₀.Inv) (hmine : ¬ s₀.Foreign)
    (hon : s₀.cpu.st.tb.toNat = s₀.target s₀.now) (hrun : Steady s₀ s) :
    s.Inv ∧ ¬ s.Foreign ∧ s.cpu.st.tb.toNat = s₀.target s.now
      ∧ s.pacer = { s₀.pacer with lastTb := s.cpu.st.tb } := by
  induction hrun with
  | start =>
      refine ⟨hinv, hmine, hon, ?_⟩
      rw [not_not.mp hmine]
  | @sync s now _ hlater hroom hprompt ih =>
      obtain ⟨ihinv, ihmine, -, ihpacer⟩ := ih
      obtain ⟨hinv', -, hmine'⟩ := ihinv.sync hlater
      obtain ⟨htarget, htb, hpacer⟩ := ihinv.sync_owned hlater hroom ihmine
      have hsame : s.target now = s₀.target now := by rw [target, ihpacer]; rfl
      rw [if_neg (not_lt.mpr hprompt), ihpacer] at hpacer
      rw [Nat.min_eq_left hprompt, ← htarget, hsame] at htb
      exact ⟨hinv', hmine', htb, hpacer⟩

/-- **Host pacing is exact.** In every run no call takes the timebase back, and in a run whose calls
all have room every call that has room does what is asked of it. -/
theorem pacing_exact (s₀ : Paced β) (hstart : s₀.Started) :
    (∀ s, Run (fun _ _ => True) s₀ s → ∀ now, s.Later now →
        s.cpu.st.tb ≤ (s.synced now).cpu.st.tb)
      ∧ ∀ s, Run Room s₀ s → ∀ now, s.Later now → s.Room now → SyncExact s now := by
  refine ⟨fun s hrun now hlater => ((hrun.inv hstart).sync hlater).2.1, ?_⟩
  intro s hrun now hlater hroom
  have hinv := hrun.inv hstart
  obtain ⟨hinv', hforward, hmine'⟩ := hinv.sync hlater
  have hon : (s.synced now).cpu.st.tb.toNat = (s.synced now).target now := by
    by_cases hf : s.Foreign
    · rw [synced_foreign hf, target]
      dsimp only
      rw [Nat.sub_self]
      rfl
    · obtain ⟨htarget, htb, hpacer⟩ := hinv.sync_owned hlater hroom hf
      rw [target, hpacer]
      split
      · dsimp only
        rw [Nat.sub_self]
        rfl
      · rename_i hcap
        rw [htb, Nat.min_eq_left (not_lt.mp hcap), ← htarget]
        rfl
  refine ⟨hforward, hon, hmine', ?_, ?_, ?_, ?_⟩
  · intro hf
    rw [synced_foreign hf]
    exact ⟨rfl, rfl⟩
  · intro hf hprompt
    obtain ⟨htarget, htb, hpacer⟩ := hinv.sync_owned hlater hroom hf
    rw [if_neg (not_lt.mpr hprompt)] at hpacer
    rw [Nat.min_eq_left hprompt, ← htarget] at htb
    exact ⟨htb, hpacer⟩
  · intro hf hcap
    obtain ⟨-, htb, hpacer⟩ := hinv.sync_owned hlater hroom hf
    rw [if_pos hcap] at hpacer
    rw [Nat.min_eq_right hcap.le] at htb
    exact ⟨htb, hpacer⟩
  · intro s' hsteady
    obtain ⟨-, -, htb, hpacer⟩ := hsteady.exact hinv' hmine' hon
    exact ⟨htb, hpacer⟩

/-- A machine just anchored. -/
def anchored : Paced Unit := { pacer := {}, cpu := { bus := () }, now := 0 }

/-- Ten ticks on, the guest writes its timebase and runs three cycles of a tick. -/
def rewrittenTb : Paced Unit :=
  { anchored.synced 400 with cpu := { bus := (), cycleAccum := 3#32, st := { tb := 1000#64 } } }

/-- The pacer takes that for its origin; then the host is away for two million ticks. -/
def returned : Paced Unit := (rewrittenTb.synced 800).synced 80000800

/-- A rebase and a slip behind it, the next call is exact. -/
theorem pacing_exact_returned :
    returned.pacer.rebases = 1#64 ∧ returned.pacer.slips = 1#64 ∧ SyncExact returned 80004000 := by
  have hrun : Run Room anchored (anchored.synced 400) :=
    .sync 400 .start ⟨by decide, by decide⟩ fun _ => ⟨by decide +kernel, by decide +kernel⟩
  have hguest : Run Room anchored rewrittenTb :=
    .guest { bus := (), cycleAccum := 3#32, st := { tb := 1000#64 } } hrun (by decide)
  have hrebase : Run Room anchored (rewrittenTb.synced 800) :=
    .sync 800 hguest ⟨by decide, by decide⟩ fun _ => ⟨by decide +kernel, by decide +kernel⟩
  have hslip : Run Room anchored returned :=
    .sync 80000800 hrebase ⟨by decide, by decide⟩ fun _ => ⟨by decide +kernel, by decide +kernel⟩
  exact ⟨by decide +kernel, by decide +kernel, (pacing_exact anchored ⟨by decide, le_rfl, rfl⟩).2
    returned hslip 80004000 ⟨by decide, by decide⟩ fun _ => ⟨by decide +kernel, by decide +kernel⟩⟩

/-- The guest writes a timebase of all ones. It is taken for the origin, and a tick later the target
is zero: the clock stands still. -/
theorem wrapped_target_stalls :
    ¬ ∀ s₀ : Paced Unit, s₀.Started → ∀ s, Run (fun _ _ => True) s₀ s → ∀ now, s.Later now →
      SyncExact s now := by
  intro h
  have hexact := h { pacer := {}, cpu := { bus := () }, now := 0 } ⟨by decide, le_rfl, rfl⟩ _
    (.sync 0 (.guest { bus := (), st := { tb := 0xFFFFFFFFFFFFFFFF#64 } } .start (by decide))
      ⟨le_rfl, by decide⟩ trivial) 40 ⟨by decide, by decide⟩
  exact absurd hexact.onTarget (by decide)

end Paced

end OpenPowerMac
