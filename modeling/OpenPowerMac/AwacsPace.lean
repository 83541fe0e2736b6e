/-
The sound codec's pace over whole runs: how much it has accepted by when, and where in the stream
its ring begins.

The cursor is the account. What has been accepted is never more than the cursor stands for, but
for what the divisions dropped, and the cursor is never more than the FIFO ahead of the clock.
-/
import OpenPowerMac.Awacs

set_option autoImplicit false

namespace OpenPowerMac

namespace Awacs

/-! ## One give -/

/-- The whole frames the FIFO has room for. -/
def room (c : Awacs) : ℕ := c.roomFor (c.nowTb.toNat + c.fifoTicks - c.reach c.playTb)

/-- The cell once `can` bytes are accepted. -/
def accept (c : Awacs) (src : ℕ → U8) (can : U32) : Awacs :=
  { c with
    ring := pushRing c.ring src can.toNat
    playTb := c.playTb + c.tbForBytes (can.setWidth 64)
    played := c.played + can.setWidth 64 }

section Accept

variable (c : Awacs) (src : ℕ → U8) (can : U32)

@[simp] theorem accept_soundCtl : (c.accept src can).soundCtl = c.soundCtl := by rw [accept]

@[simp] theorem accept_nowTb : (c.accept src can).nowTb = c.nowTb := by rw [accept]

@[simp] theorem accept_ring : (c.accept src can).ring = pushRing c.ring src can.toNat := by
  rw [accept]

@[simp] theorem accept_playTb :
    (c.accept src can).playTb = c.playTb + c.tbForBytes (can.setWidth 64) := by rw [accept]

end Accept

theorem reach_of_le {c : Awacs} {t : U64} (h : c.nowTb.toNat ≤ t.toNat) : c.reach t = t.toNat :=
  max_eq_left h

/-- A give brings the cursor up to now, and accepts what there is room for. -/
theorem dmaGive_eq (c : Awacs) (src : ℕ → U8) (n : U32) :
    ∃ u k can, k.toNat = c.reach c.playTb ∧ can.toNat = min n.toNat c.room
      ∧ c.dmaGive src n = (can, if can = 0#32 then { c with underruns := u, playTb := k }
          else ({ c with underruns := u, playTb := k } : Awacs).accept src can) := by
  obtain ⟨hk, hroom⟩ := c.credit_spec c.playTb
  obtain ⟨p, hp⟩ : ∃ p, p = c.credit c.playTb := ⟨_, rfl⟩
  rw [← hp] at hk hroom
  obtain ⟨can, hcan⟩ : ∃ can, can = if n < p.1 then n else p.1 := ⟨_, rfl⟩
  have hmin : can.toNat = min n.toNat c.room := by
    rw [room, ← hroom, hcan]
    split
    case isTrue h => exact (min_eq_left (BitVec.le_of_lt h)).symm
    case isFalse h => exact (min_eq_right (BitVec.not_lt.mp h)).symm
  have hpair : ∀ c' : Awacs, (if can = 0#32 then (0#32, c') else (can, c'.accept src can))
      = (can, if can = 0#32 then c' else c'.accept src can) := by
    intro c'
    split
    case isTrue h0 => rw [h0]
    case isFalse h0 => rfl
  by_cases hlate : c.playTb < c.nowTb ∧ c.played ≠ 0#64
  · refine ⟨_, p.2, can, hk, hmin,
      Eq.trans ?_ (hpair { c with underruns := c.underruns + 1#64, playTb := p.2 })⟩
    rw [hcan, hp, dmaGive, if_pos hlate]
    rfl
  · refine ⟨_, p.2, can, hk, hmin,
      Eq.trans ?_ (hpair { c with underruns := c.underruns, playTb := p.2 })⟩
    rw [hcan, hp, dmaGive, if_neg hlate]
    rfl

theorem byteHz_eq (c : Awacs) : c.byteHz = c.rateHz.toNat * 4 := by
  have hrate := c.rate_cases
  generalize c.rateHz = rate at hrate ⊢
  generalize c.byteHz = hz at hrate ⊢
  fin_cases hrate <;> rfl

/-- What is accepted, what it leaves in the ring, and where the cursor goes. -/
structure Gave (c : Awacs) (src : ℕ → U8) (can : ℕ) (c' : Awacs) : Prop where
  soundCtl : c'.soundCtl = c.soundCtl
  nowTb : c'.nowTb = c.nowTb
  ring : c'.ring = if can = 0 then c.ring else pushRing c.ring src can
  cursor : c.nowTb.toNat + c.fifoTicks < 2 ^ 64 →
    c'.reach c'.playTb = c.reach c.playTb + can * 25000000 / c.byteHz

theorem room_le (c : Awacs) : c.room ≤ 0x2000 := (c.roomFor_le _).1

theorem dvd_room (c : Awacs) : 4 ∣ c.room := c.dvd_roomFor _

/-- The ticks of what is accepted are ticks the FIFO has left. -/
theorem ticks_le (c : Awacs) {can : ℕ} (h : can ≤ c.room) (hpos : 0 < can) :
    c.reach c.playTb + can * 25000000 / c.byteHz ≤ c.nowTb.toNat + c.fifoTicks := by
  have hz := c.byteHz_bounds
  obtain ⟨-, hpaid⟩ := c.roomFor_le (c.nowTb.toNat + c.fifoTicks - c.reach c.playTb)
  have hticks : can * 25000000 / c.byteHz ≤ c.nowTb.toNat + c.fifoTicks - c.reach c.playTb := by
    apply Nat.div_le_of_le_mul
    calc can * 25000000 ≤ 25000000 * c.room := by rw [Nat.mul_comm]; exact Nat.mul_le_mul_left _ h
      _ ≤ (c.nowTb.toNat + c.fifoTicks - c.reach c.playTb) * c.byteHz := hpaid
      _ = c.byteHz * (c.nowTb.toNat + c.fifoTicks - c.reach c.playTb) := Nat.mul_comm _ _
  -- there is no room behind a cursor that is the FIFO ahead
  have hlt : c.reach c.playTb < c.nowTb.toNat + c.fifoTicks := by
    by_contra hge
    have hnone : c.room = 0 := by
      rw [room, Nat.sub_eq_zero_of_le (not_lt.mp hge), roomFor, Nat.zero_mul]
      rfl
    omega
  omega

/-- What `accept` does to a cell whose cursor has been brought up to now. -/
theorem accept_gave {c : Awacs} (src : ℕ → U8) {can : U32} (hcur : c.nowTb.toNat ≤ c.playTb.toNat)
    (hpos : 0 < can.toNat) (hle : can.toNat ≤ c.room) :
    Gave c src can.toNat (c.accept src can) := by
  have hroom := c.room_le
  have hz := c.byteHz_bounds
  have hreach : c.reach c.playTb = c.playTb.toNat := reach_of_le hcur
  have hticks := c.ticks_le hle hpos
  have htb : (c.tbForBytes (can.setWidth 64)).toNat = can.toNat * 25000000 / c.byteHz := by
    have hwide : (can.setWidth 64).toNat = can.toNat := by
      rw [BitVec.toNat_setWidth, Nat.mod_eq_of_lt (by omega)]
    rw [c.tbForBytes_toNat (by omega), hwide]
  have hcursor : c.nowTb.toNat + c.fifoTicks < 2 ^ 64 →
      (c.accept src can).reach (c.accept src can).playTb
        = c.reach c.playTb + can.toNat * 25000000 / c.byteHz := by
    intro hfar
    have hsum : (c.accept src can).playTb.toNat
        = c.reach c.playTb + can.toNat * 25000000 / c.byteHz := by
      rw [accept_playTb, BitVec.toNat_add, htb, ← hreach, Nat.mod_eq_of_lt (hticks.trans_lt hfar)]
    rw [reach_of_le, hsum]
    rw [accept_nowTb, hsum, hreach]
    exact hcur.trans (Nat.le_add_right _ _)
  refine ⟨accept_soundCtl c src can, accept_nowTb c src can, ?_, hcursor⟩
  rw [if_neg hpos.ne', accept_ring]

theorem dmaGive_gave (c : Awacs) (src : ℕ → U8) (n : U32) :
    (c.dmaGive src n).1.toNat = min n.toNat c.room
      ∧ Gave c src (min n.toNat c.room) (c.dmaGive src n).2 := by
  obtain ⟨u, k, can, hk, hcan, heq⟩ := c.dmaGive_eq src n
  have hle : can.toNat ≤ c.room := hcan ▸ min_le_right _ _
  have hnow : c.nowTb.toNat ≤ k.toNat := hk ▸ le_max_right _ _
  rw [heq, ← hcan]
  refine ⟨rfl, ?_⟩
  -- the cell whose cursor has been brought up to now
  obtain ⟨d, hd⟩ : ∃ d : Awacs, d = { c with underruns := u, playTb := k } := ⟨_, rfl⟩
  have hreach : d.reach d.playTb = c.reach c.playTb := by
    subst hd
    exact (reach_of_le hnow).trans hk
  have hctl : d.soundCtl = c.soundCtl ∧ d.nowTb = c.nowTb ∧ d.ring = c.ring
      ∧ d.fifoTicks = c.fifoTicks ∧ d.byteHz = c.byteHz ∧ d.nowTb.toNat ≤ d.playTb.toNat := by
    subst hd
    exact ⟨rfl, rfl, rfl, rfl, rfl, hnow⟩
  obtain ⟨hctl, htb, hring, hfifo, hz, hcur⟩ := hctl
  have hroom : d.room = c.room := by
    rw [room, room, hreach, htb, hfifo, roomFor, roomFor, hz]
  rw [← hd]
  by_cases h0 : can = 0#32
  · have hzero : can.toNat = 0 := congrArg BitVec.toNat h0
    rw [if_pos h0, hzero]
    refine ⟨hctl, htb, hring, fun _ => ?_⟩
    rw [hreach, Nat.zero_mul, Nat.zero_div, Nat.add_zero]
  · have hpos : 0 < can.toNat := Nat.pos_of_ne_zero fun h => h0 (BitVec.eq_of_toNat_eq h)
    have hgave := accept_gave src hcur hpos (hroom ▸ hle)
    rw [if_neg h0]
    refine ⟨hgave.soundCtl.trans hctl, hgave.nowTb.trans htb, ?_, ?_⟩
    · rw [hgave.ring, hring]
    · rw [← htb, ← hfifo, ← hreach, ← hz]
      exact hgave.cursor

/-! ## Runs -/

/-- Runs from the first give on: time passes, the channel gives, the other channel takes, and the
host drains whole frames. What the gives accepted is collected, block by block. A give is made
where `ok` lets it. -/
inductive Gives (ok : Awacs → List (List U8) → U32 → Prop) (c₀ : Awacs) :
    Awacs → List (List U8) → Prop
  | first : Gives ok c₀ c₀ []
  | time {c : Awacs} {gs : List (List U8)} (tb : U64) :
      Gives ok c₀ c gs → c.nowTb ≤ tb → Gives ok c₀ (c.noteTb tb) gs
  | give {c : Awacs} {gs : List (List U8)} (src : ℕ → U8) (n : U32) :
      Gives ok c₀ c gs → ok c gs n →
        Gives ok c₀ (c.dmaGive src n).2
          (gs ++ [(List.range (c.dmaGive src n).1.toNat).map src])
  | take {c : Awacs} {gs : List (List U8)} (n : U32) :
      Gives ok c₀ c gs → Gives ok c₀ (c.dmaTake n).2 gs
  | drain {c : Awacs} {gs : List (List U8)} (cap : ℕ) :
      Gives ok c₀ c gs → 4 ∣ cap → Gives ok c₀ (c.drain cap).2 gs

/-- The stream, from the ring at the first give on. -/
def stream (c₀ : Awacs) (gs : List (List U8)) : List U8 := c₀.ring ++ gs.flatten

/-- A give of whole frames, or of all there is room for, while the bytes accepted are ahead of the
cursor by less than a frame, a tick in hand, and the clock is not about to wrap. -/
structure GivesFrames (c₀ c : Awacs) (gs : List (List U8)) (n : U32) : Prop where
  whole : 4 ∣ n.toNat ∨ c.room ≤ n.toNat
  owed : 25000000 * gs.flatten.length + c.byteHz
    ≤ c.byteHz * (c.reach c.playTb - c₀.nowTb.toNat) + 25000000 * 4
  early : c.nowTb.toNat + c.fifoTicks < 2 ^ 64

/-- The codec consumes at the sample rate and in whole frames. -/
structure Paced (c₀ c : Awacs) (gs : List (List U8)) : Prop where
  rate : gs.flatten.length
    ≤ 0x2000 + c.rateHz.toNat * 4 * (c.nowTb.toNat - c₀.nowTb.toNat) / 25000000 + 4
  frames : ∀ g ∈ gs, 4 ∣ g.length
  boundary : ∃ past, 4 ∣ past.length ∧ stream c₀ gs = past ++ c.ring
  capped : c.ring.length ≤ kRingCap

/-- What stands after every step of a run whose gives are of whole frames: what is accepted is
paid for by the cursor but for a frame, and the cursor is no further ahead than the FIFO. -/
structure Accounts (c₀ c : Awacs) (gs : List (List U8)) : Prop where
  soundCtl : c.soundCtl = c₀.soundCtl
  since : c₀.nowTb.toNat ≤ c.nowTb.toNat
  owed : 25000000 * gs.flatten.length
    ≤ c.byteHz * (c.reach c.playTb - c₀.nowTb.toNat) + 25000000 * 4
  ahead : gs.flatten = [] ∨ c.reach c.playTb ≤ c.nowTb.toNat + c.fifoTicks
  frames : ∀ g ∈ gs, 4 ∣ g.length
  boundary : ∃ past, 4 ∣ past.length ∧ stream c₀ gs = past ++ c.ring
  whole : 4 ∣ c.ring.length
  capped : c.ring.length ≤ kRingCap

variable {c₀ c : Awacs} {gs : List (List U8)}

theorem accounts_first (hring : 4 ∣ c₀.ring.length) (hcap : c₀.ring.length ≤ kRingCap) :
    Accounts c₀ c₀ [] where
  soundCtl := rfl
  since := le_rfl
  owed := by
    rw [List.flatten_nil, List.length_nil, Nat.mul_zero]
    exact Nat.zero_le _
  ahead := .inl rfl
  frames := nofun
  boundary := ⟨[], Nat.dvd_zero 4, List.append_nil _⟩
  whole := hring
  capped := hcap

theorem byteHz_congr {c c' : Awacs} (h : c'.soundCtl = c.soundCtl) :
    c'.byteHz = c.byteHz ∧ c'.fifoTicks = c.fifoTicks := by
  rw [fifoTicks, fifoTicks, byteHz, byteHz, rateHz, rateHz, h]
  exact ⟨rfl, rfl⟩

theorem Accounts.time (h : Accounts c₀ c gs) {tb : U64} (htb : c.nowTb ≤ tb) :
    Accounts c₀ (c.noteTb tb) gs := by
  have hle : c.nowTb.toNat ≤ tb.toNat := htb
  have hreach : c.reach c.playTb ≤ (c.noteTb tb).reach (c.noteTb tb).playTb := max_le_max le_rfl hle
  refine ⟨h.soundCtl, h.since.trans hle, ?_, ?_, h.frames, h.boundary, h.whole, h.capped⟩
  · exact h.owed.trans (Nat.add_le_add_right
      (Nat.mul_le_mul_left _ (Nat.sub_le_sub_right hreach _)) _)
  · refine h.ahead.imp_right fun hahead => ?_
    have hcursor : c.playTb.toNat ≤ c.nowTb.toNat + c.fifoTicks := (le_max_left _ _).trans hahead
    exact max_le (hcursor.trans (Nat.add_le_add_right hle _)) (Nat.le_add_right _ _)

theorem dmaTake_eq (c : Awacs) (n : U32) :
    ∃ tb count, (c.dmaTake n).2 = { c with recTb := tb, recorded := count } := by
  unfold dmaTake
  dsimp only
  split_ifs <;> exact ⟨_, _, rfl⟩

theorem Accounts.take (h : Accounts c₀ c gs) (n : U32) : Accounts c₀ (c.dmaTake n).2 gs := by
  obtain ⟨tb, count, heq⟩ := c.dmaTake_eq n
  rw [heq]
  exact ⟨h.soundCtl, h.since, h.owed, h.ahead, h.frames, h.boundary, h.whole, h.capped⟩

theorem Accounts.drain (h : Accounts c₀ c gs) {cap : ℕ} (hcap : 4 ∣ cap) :
    Accounts c₀ (c.drain cap).2 gs := by
  obtain ⟨past, hpast, hstream⟩ := h.boundary
  have hlen : (c.drain cap).2.ring.length = c.ring.length - cap := List.length_drop
  refine ⟨h.soundCtl, h.since, h.owed, h.ahead, h.frames, ⟨past ++ c.ring.take cap, ?_, ?_⟩, ?_, ?_⟩
  · rw [List.length_append, List.length_take]
    refine Nat.dvd_add hpast ?_
    rcases le_total cap c.ring.length with hle | hle
    · rwa [min_eq_left hle]
    · rw [min_eq_right hle]
      exact h.whole
  · rw [hstream, List.append_assoc]
    exact congrArg _ (List.take_append_drop cap c.ring).symm
  · rw [hlen]
    exact Nat.dvd_sub h.whole hcap
  · rw [hlen]
    exact (Nat.sub_le _ _).trans h.capped

/-- What is dropped of the ring is the least that makes room. -/
theorem pushRing_eq (ring : List U8) (src : ℕ → U8) (can : ℕ) : pushRing ring src can
    = ring.drop (ring.length + can - kRingCap) ++ (List.range can).map src := by
  rw [pushRing]
  split
  case isTrue => rfl
  case isFalse h => rw [Nat.sub_eq_zero_of_le (not_lt.mp h), List.drop_zero]

/-- A block of whole frames is put behind a ring of whole frames, and whole frames are dropped. -/
theorem pushRing_whole {ring : List U8} (src : ℕ → U8) {can : ℕ} (hwhole : 4 ∣ ring.length)
    (hcan : 4 ∣ can) (hle : can ≤ kRingCap) :
    (∃ past, 4 ∣ past.length ∧ ring ++ (List.range can).map src = past ++ pushRing ring src can)
      ∧ 4 ∣ (pushRing ring src can).length ∧ (pushRing ring src can).length ≤ kRingCap := by
  have hframes : 4 ∣ kRingCap := by decide
  obtain ⟨d, hd⟩ : ∃ d, d = ring.length + can - kRingCap := ⟨_, rfl⟩
  have hdvd : 4 ∣ d := hd ▸ Nat.dvd_sub (Nat.dvd_add hwhole hcan) hframes
  have hlen : (ring.drop d ++ (List.range can).map src).length = ring.length - d + can := by
    rw [List.length_append, List.length_drop, List.length_map, List.length_range]
  rw [pushRing_eq, ← hd]
  refine ⟨⟨ring.take d, ?_, ?_⟩, ?_, by omega⟩
  · rw [List.length_take, min_eq_left (by omega)]
    exact hdvd
  · rw [← List.append_assoc, List.take_append_drop]
  · rw [hlen]
    exact Nat.dvd_add (Nat.dvd_sub hwhole hdvd) hcan

theorem Accounts.give (h : Accounts c₀ c gs) (src : ℕ → U8) {n : U32}
    (hok : GivesFrames c₀ c gs n) :
    Accounts c₀ (c.dmaGive src n).2
      (gs ++ [(List.range (c.dmaGive src n).1.toNat).map src]) := by
  obtain ⟨hcount, hgave⟩ := c.dmaGive_gave src n
  obtain ⟨can, hcan⟩ : ∃ can, can = min n.toNat c.room := ⟨_, rfl⟩
  rw [← hcan] at hcount hgave
  obtain ⟨hz, hfifo⟩ := byteHz_congr hgave.soundCtl
  have hroom := c.room_le
  have hdvd : 4 ∣ can := by
    rcases hok.whole with hn | hn
    · rcases le_total n.toNat c.room with hle | hle
      · rwa [hcan, min_eq_left hle]
      · rw [hcan, min_eq_right hle]
        exact c.dvd_room
    · rw [hcan, min_eq_right hn]
      exact c.dvd_room
  have hfits : can ≤ c.room := hcan ▸ min_le_right _ _
  have hle : can ≤ kRingCap := hfits.trans (hroom.trans (by decide))
  have hblock : ((List.range can).map src).length = can := by
    rw [List.length_map, List.length_range]
  have htotal : (gs ++ [(List.range can).map src]).flatten
      = gs.flatten ++ (List.range can).map src := by
    rw [List.flatten_append, List.flatten_singleton]
  obtain ⟨past, hpast, hstream⟩ := h.boundary
  rw [hcount]
  refine ⟨hgave.soundCtl.trans h.soundCtl, ?_, ?_, ?_, ?_, ?_, ?_, ?_⟩
  · rw [hgave.nowTb]
    exact h.since
  -- the cursor pays for the block but for what its division drops
  · have howed := hok.owed
    have hpos := c.byteHz_bounds.1
    have hstart : c₀.nowTb.toNat ≤ c.reach c.playTb := h.since.trans (le_max_right _ _)
    have hdiv := Nat.div_add_mod (can * 25000000) c.byteHz
    have hmod := Nat.mod_lt (can * 25000000) (show 0 < c.byteHz by omega)
    rw [htotal, List.length_append, hblock, hz, hgave.cursor hok.early, Nat.sub_add_comm hstart,
      Nat.mul_add c.byteHz]
    omega
  · rw [htotal, hgave.nowTb, hfifo, hgave.cursor hok.early]
    rcases Nat.eq_zero_or_pos can with h0 | hpos
    · rw [show (List.range can).map src = [] by rw [h0]; rfl, List.append_nil, h0, Nat.zero_mul,
        Nat.zero_div, Nat.add_zero]
      exact h.ahead
    · exact .inr (c.ticks_le hfits hpos)
  · intro g hg
    rcases List.mem_append.mp hg with hg | hg
    · exact h.frames g hg
    · rw [List.mem_singleton.mp hg, hblock]
      exact hdvd
  · rw [stream, htotal, ← List.append_assoc, ← stream, hstream, hgave.ring]
    split
    case isTrue h0 => exact ⟨past, hpast, by rw [h0]; simp⟩
    case isFalse =>
      obtain ⟨⟨more, hmore, hring⟩, -⟩ := pushRing_whole src h.whole hdvd hle
      exact ⟨past ++ more, by rw [List.length_append]; exact Nat.dvd_add hpast hmore,
        by rw [List.append_assoc, hring, List.append_assoc]⟩
  · rw [hgave.ring]
    split
    case isTrue => exact h.whole
    case isFalse => exact (pushRing_whole src h.whole hdvd hle).2.1
  · rw [hgave.ring]
    split
    case isTrue => exact h.capped
    case isFalse => exact (pushRing_whole src h.whole hdvd hle).2.2

theorem accounts_of_gives (hring : 4 ∣ c₀.ring.length) (hcap : c₀.ring.length ≤ kRingCap)
    (h : Gives (GivesFrames c₀) c₀ c gs) : Accounts c₀ c gs := by
  induction h with
  | first => exact accounts_first hring hcap
  | time tb _ htb ih => exact ih.time htb
  | give src n _ hok ih => exact ih.give src hok
  | take n _ ih => exact ih.take n
  | drain cap _ hframes ih => exact ih.drain hframes

/-- What the cursor stands for is played, but for what the FIFO holds. -/
theorem Accounts.paced (h : Accounts c₀ c gs) : Paced c₀ c gs := by
  refine ⟨?_, h.frames, h.boundary, h.capped⟩
  rw [← c.byteHz_eq]
  rcases h.ahead with hnil | hahead
  · rw [hnil]
    exact Nat.zero_le _
  · have hpos := c.byteHz_bounds.1
    have hfifo : c.byteHz * c.fifoTicks ≤ 0x2000 * 25000000 := Nat.mul_div_le _ _
    have hsince := h.since
    have hticks : c.byteHz * (c.reach c.playTb - c₀.nowTb.toNat)
        ≤ c.byteHz * (c.nowTb.toNat - c₀.nowTb.toNat) + c.byteHz * c.fifoTicks := by
      rw [← Nat.mul_add]
      exact Nat.mul_le_mul_left _ (by omega)
    have howed := h.owed
    have hplayed : gs.flatten.length - 0x2004
        ≤ c.byteHz * (c.nowTb.toNat - c₀.nowTb.toNat) / 25000000 := by
      rw [Nat.le_div_iff_mul_le (by norm_num)]
      omega
    omega

/-- **The codec keeps to the sample rate and to frames** in every run whose gives are of whole
frames and do not outrun the cursor by the ticks its divisions drop. -/
theorem codec_paced (c₀ c : Awacs) (gs : List (List U8)) (hring : 4 ∣ c₀.ring.length)
    (hcap : c₀.ring.length ≤ kRingCap) (h : Gives (GivesFrames c₀) c₀ c gs) : Paced c₀ c gs :=
  (accounts_of_gives hring hcap h).paced

/-- A codec that has taken 32 bytes, let 4000 ticks pass and given the capture channel a frame. -/
def begun : Awacs := (((({} : Awacs).dmaGive (fun _ => 1#8) 32#32).2.noteTb 4000#64).dmaTake 4#32).2

/-- The host drains four frames, the channel gives sixteen bytes more and then, 9000 ticks on, as
much as there is room for. -/
theorem codec_paced_drained : ∃ c gs, Paced {} c gs ∧ gs.map List.length = [32, 16, 8188]
    ∧ c.ring.length = 8220 := by
  have hbegun : Gives (GivesFrames {}) {} begun [List.replicate 32 1#8] :=
    .take 4#32 (.time 4000#64 (.give (fun _ => 1#8) 32#32 .first
      ⟨.inl (by decide), by decide, by decide⟩) (by decide))
  have hdrained := Gives.drain 16 hbegun (by decide)
  have hmore := hdrained.give (fun _ => 2#8) 16#32
    ⟨.inl (by decide), by decide +kernel, by decide +kernel⟩
  have hlater := hmore.time 13000#64 (by decide +kernel)
  have hfull := hlater.give (fun _ => 3#8) 0x4000#32
    ⟨.inr (by decide +kernel), by decide +kernel, by decide +kernel⟩
  exact ⟨_, _, codec_paced {} _ _ (by decide) (by decide) hfull, by decide +kernel, by decide +kernel⟩

/-! ## The ticks that are dropped -/

section Dropped

theorem noteTb_soundCtl (c : Awacs) (tb : U64) : (c.noteTb tb).soundCtl = c.soundCtl := rfl

theorem noteTb_playTb (c : Awacs) (tb : U64) : (c.noteTb tb).playTb = c.playTb := rfl

theorem noteTb_nowTb (c : Awacs) (tb : U64) : (c.noteTb tb).nowTb = tb := rfl

/-- The cell at the `k`-th of the gives that are made just when the FIFO has room for a frame. -/
structure JustInTime (k : ℕ) (c : Awacs) : Prop where
  soundCtl : c.soundCtl = 0#32
  playTb : c.playTb.toNat = 1160430 + 566 * k
  nowTb : c.nowTb.toNat = 566 * k

theorem JustInTime.rates {k : ℕ} {c : Awacs} (h : JustInTime k c) :
    c.byteHz = 176400 ∧ c.fifoTicks = 1160997 := by
  rw [fifoTicks, byteHz, rateHz, h.soundCtl]
  decide

/-- A frame plays for 566.9 ticks, of which the cursor is moved by 566. -/
theorem JustInTime.next {k : ℕ} {c : Awacs} (h : JustInTime k c) (hk : k < 2000) :
    (c.dmaGive (fun _ => 0#8) 4#32).1.toNat = 4
      ∧ (c.dmaGive (fun _ => 0#8) 4#32).2.nowTb ≤ BitVec.ofNat 64 (566 * (k + 1))
      ∧ JustInTime (k + 1)
        ((c.dmaGive (fun _ => 0#8) 4#32).2.noteTb (BitVec.ofNat 64 (566 * (k + 1)))) := by
  obtain ⟨hcount, hgave⟩ := c.dmaGive_gave (fun _ => 0#8) 4#32
  obtain ⟨hz, hfifo⟩ := h.rates
  have hplay := h.playTb
  have hnow := h.nowTb
  have hreach : c.reach c.playTb = 1160430 + 566 * k := by
    rw [reach_of_le (by omega), hplay]
  have hroom : c.room = 4 := by
    rw [room, hreach, hnow, hfifo, show 566 * k + 1160997 - (1160430 + 566 * k) = 567 by omega,
      roomFor, hz]
    rfl
  have hfour : min (4#32).toNat c.room = 4 := by rw [hroom]; rfl
  rw [hfour] at hcount hgave
  have hcursor := hgave.cursor (by omega)
  rw [hz, hreach] at hcursor
  obtain ⟨d, hd⟩ : ∃ d, d = (c.dmaGive (fun _ => 0#8) 4#32).2 := ⟨_, rfl⟩
  rw [← hd] at hgave hcursor ⊢
  have hctl : d.soundCtl = 0#32 := hgave.soundCtl.trans h.soundCtl
  have htb : d.nowTb.toNat = 566 * k := by rw [hgave.nowTb, hnow]
  have hlater : (BitVec.ofNat 64 (566 * (k + 1))).toNat = 566 * (k + 1) := by
    rw [BitVec.toNat_ofNat, Nat.mod_eq_of_lt (by omega)]
  refine ⟨hcount, BitVec.le_def.mpr (by omega), ?_, ?_, ?_⟩
  · rw [noteTb_soundCtl, hctl]
  · rw [noteTb_playTb]
    rw [reach, htb] at hcursor
    omega
  · rw [noteTb_nowTb, hlater]

/-- The FIFO is filled, and then a frame is offered every 566 ticks. -/
theorem justInTime_run (k : ℕ) (hk : k ≤ 2000) :
    ∃ c gs, Gives (fun _ _ n => 4 ∣ n.toNat) {} c gs ∧ JustInTime k c
      ∧ gs.flatten.length = 8188 + 4 * k := by
  induction k with
  | zero =>
      obtain ⟨hcount, hgave⟩ := dmaGive_gave {} (fun _ => 0#8) 0x2000#32
      have hroom : min (0x2000#32).toNat ({} : Awacs).room = 8188 := by decide
      rw [hroom] at hcount hgave
      have hcursor := hgave.cursor (by decide)
      have hnow : (({} : Awacs).dmaGive (fun _ => 0#8) 0x2000#32).2.nowTb.toNat = 0 := by
        rw [hgave.nowTb]
        rfl
      rw [reach, hnow, Nat.max_zero] at hcursor
      refine ⟨_, _, .give (fun _ => 0#8) 0x2000#32 .first (by decide),
        ⟨hgave.soundCtl, hcursor.trans (by decide), hnow⟩, ?_⟩
      rw [List.nil_append, List.flatten_singleton, List.length_map, List.length_range, hcount]
  | succ k ih =>
      obtain ⟨c, gs, hrun, hjust, hlen⟩ := ih (by omega)
      obtain ⟨hcount, hlater, hnext⟩ := hjust.next (by omega)
      refine ⟨_, _, .time (BitVec.ofNat 64 (566 * (k + 1)))
        (.give (fun _ => 0#8) 4#32 hrun (by decide)) hlater, hnext, ?_⟩
      rw [List.flatten_append, List.flatten_singleton, List.length_append, hlen, List.length_map,
        List.length_range, hcount]
      omega

/-- A give of three bytes is accepted as it is; and gives of whole frames alone outrun the sample
rate, by five bytes more than the frame once two thousand have been made just in time. -/
theorem outrun : (¬ ∀ (c₀ c : Awacs) (gs : List (List U8)), 4 ∣ c₀.ring.length →
      c₀.ring.length ≤ kRingCap → Gives (fun _ _ _ => True) c₀ c gs → Paced c₀ c gs)
    ∧ ¬ ∀ (c₀ c : Awacs) (gs : List (List U8)), 4 ∣ c₀.ring.length →
      c₀.ring.length ≤ kRingCap → Gives (fun _ _ n => 4 ∣ n.toNat) c₀ c gs →
        gs.flatten.length
          ≤ 0x2000 + c.rateHz.toNat * 4 * (c.nowTb.toNat - c₀.nowTb.toNat) / 25000000 + 4 := by
  constructor
  · intro h
    have hframes := (h {} _ _ (by decide) (by decide)
      (.give (fun _ => 0#8) 3#32 .first trivial)).frames
    have hcount : (({} : Awacs).dmaGive (fun _ => 0#8) 3#32).1.toNat = 3 := by
      rw [(dmaGive_gave {} (fun _ => 0#8) 3#32).1]
      decide
    have hthree := hframes _ (List.mem_append_right [] (List.mem_singleton_self _))
    rw [List.length_map, List.length_range, hcount] at hthree
    exact absurd hthree (by decide)
  · intro h
    obtain ⟨c, gs, hrun, hjust, hlen⟩ := justInTime_run 2000 le_rfl
    have hbound := h {} c gs (by decide) (by decide) hrun
    rw [hlen, hjust.nowTb, ← byteHz_eq, hjust.rates.1] at hbound
    exact absurd hbound (by decide)

end Dropped

end Awacs

end OpenPowerMac
