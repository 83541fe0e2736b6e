/-
The clock however its cycles are split, and the step on which the decrementer asks.

Cycles may come one at a time, in any pieces of up to a chunk, or all at once; the clock ends up
the same as long as no 32-bit sum `cycleAccum + cycles` wraps (`splitsExactly_iff_wraps`), which a
divisor above `0xC1000000` lets some pieces do. That is the only way to lose a timebase tick
(`splits_exactly_iff`), and the only way for `stepsUntilDec` to be wrong: with the decrementer at
zero, the step that is said to raise the request fills the accumulator instead
(`stepsUntilDec_exact_iff`).
-/
import OpenPowerMac.Pace

set_option autoImplicit false

namespace OpenPowerMac

namespace Cpu

variable {β : Type}

/-! ## Pieces -/

/-- Processor cycles one at a time. -/
def singleTicks (c : Cpu β) (n : ℕ) : Cpu β := (fun c => c.tick 1#32)^[n] c

/-- The count has passed from zero to all ones, within `n` single cycles. -/
def DecPasses (c : Cpu β) (n : ℕ) : Prop :=
  ∃ k < n, (c.singleTicks k).st.dec = 0#32 ∧ (c.singleTicks (k + 1)).st.dec = 0xFFFFFFFF#32

/-- The pieces of a list, all of them at once, and one cycle at a time leave the same clock, and
the decrementer asks for its interrupt just where its count passes below zero. -/
structure SplitsExactly (c : Cpu β) (xs : List U32) : Prop where
  pieces : xs.foldl tick c = c.clockAdvanceCycles (BitVec.ofNat 64 (cyclesOf xs))
  single : c.singleTicks (cyclesOf xs) = c.clockAdvanceCycles (BitVec.ofNat 64 (cyclesOf xs))
  asks : (xs.foldl tick c).decPending = true ↔ c.decPending = true ∨ c.DecPasses (cyclesOf xs)

/-- A single cycle has room whatever the divisor. -/
theorem singleTicks_eq (c : Cpu β) (hacc : c.cycleAccum.toNat < c.cyclesPerTbTick.toNat) (n : ℕ) :
    c.singleTicks n = c.advanced n := by
  induction n with
  | zero => exact (advanced_zero c hacc).symm
  | succ n ih =>
      have hlt := advanced_accum_lt c hacc n
      have hdiv := (c.advanced n).cyclesPerTbTick.isLt
      have hone : (1#32 : U32).toNat = 1 := rfl
      rw [singleTicks, Function.iterate_succ_apply', ← singleTicks, ih,
        tick_eq_advanced _ hlt 1#32 (by omega) (by decide), advanced_add c hacc]
      rfl

section Passing

variable (c : Cpu β) (hacc : c.cycleAccum.toNat < c.cyclesPerTbTick.toNat)
include hacc

theorem ticksIn_succ (n : ℕ) :
    c.ticksIn n ≤ c.ticksIn (n + 1) ∧ c.ticksIn (n + 1) ≤ c.ticksIn n + 1 := by
  have hadd := ticksIn_add c hacc n 1
  have hle := ticksIn_le (c.advanced n) (advanced_accum_lt c hacc n) 1
  omega

/-- One cycle at a time takes the count through every value, so it has passed below zero when
more ticks have gone by than it held. -/
theorem decPasses_iff (n : ℕ) : c.DecPasses n ↔ c.st.dec.toNat < c.ticksIn n := by
  have hdec := c.st.dec.isLt
  have hmono : Monotone c.ticksIn := monotone_nat_of_le_succ fun m => (ticksIn_succ c hacc m).1
  have hval : ∀ k, (c.singleTicks k).st.dec = c.st.dec - BitVec.ofNat 32 (c.ticksIn k) := by
    intro k
    rw [singleTicks_eq c hacc]
    rfl
  constructor
  · rintro ⟨k, hk, hzero, hones⟩
    rw [hval] at hzero hones
    -- the count has come down by all it held, and then by one more
    have heq : c.st.dec = BitVec.ofNat 32 (c.ticksIn k) := sub_eq_zero.mp hzero
    have hheld : c.st.dec.toNat ≤ c.ticksIn k := by
      rw [heq, BitVec.toNat_ofNat]
      exact Nat.mod_le _ _
    have hmoved : c.ticksIn (k + 1) ≠ c.ticksIn k := by
      intro hsame
      rw [hsame, hzero] at hones
      exact absurd hones (by decide)
    have hstep := (ticksIn_succ c hacc k).1
    have hlast := hmono (show k + 1 ≤ n from hk)
    omega
  · intro hlt
    -- the first cycle by which the count has passed
    have hex : ∃ m, c.st.dec.toNat < c.ticksIn m := ⟨n, hlt⟩
    obtain ⟨m, hm⟩ : ∃ m, Nat.find hex = m := ⟨_, rfl⟩
    have hpass := Nat.find_spec hex
    have hle : m ≤ n := hm ▸ Nat.find_min' hex hlt
    rw [hm] at hpass
    cases m with
    | zero =>
        rw [ticksIn_zero c hacc] at hpass
        omega
    | succ k =>
        have hbefore := Nat.find_min hex (m := k) (by omega)
        have hstep := (ticksIn_succ c hacc k).2
        have hk : c.ticksIn k = c.st.dec.toNat := by omega
        have hk' : c.ticksIn (k + 1) = c.st.dec.toNat + 1 := by omega
        refine ⟨k, hle, ?_, ?_⟩
        · rw [hval, hk, BitVec.ofNat_toNat, BitVec.setWidth_eq, sub_self]
          rfl
        · rw [hval, hk', BitVec.ofNat_add, BitVec.ofNat_toNat, BitVec.setWidth_eq,
            sub_add_cancel_left]
          rfl

end Passing

/-- **A list of pieces splits exactly** just where no 32-bit sum wraps, piece by piece or in the
chunks of them all at once. -/
theorem splitsExactly_iff_wraps (c : Cpu β) (hacc : c.cycleAccum.toNat < c.cyclesPerTbTick.toNat)
    {xs : List U32} (hxs : ∀ x ∈ xs, x.toNat ≤ 0x3F000000) (hsum : cyclesOf xs < 2 ^ 64) :
    SplitsExactly c xs ↔ wraps c.cyclesPerTbTick.toNat c.cycleAccum.toNat xs = 0
      ∧ wraps c.cyclesPerTbTick.toNat c.cycleAccum.toNat (chunks (cyclesOf xs)) = 0 := by
  have hpos : 0 < c.cyclesPerTbTick.toNat := Nat.lt_of_le_of_lt (Nat.zero_le _) hacc
  have hwide : (BitVec.ofNat 64 (cyclesOf xs)).toNat = cyclesOf xs := by
    rw [BitVec.toNat_ofNat, Nat.mod_eq_of_lt hsum]
  have hticks := ticksIn_le c hacc (cyclesOf xs)
  -- what is counted in a list of as many cycles tells whether a sum has wrapped
  have hnone : ∀ ys, cyclesOf ys = cyclesOf xs →
      c.settled (counted c.cyclesPerTbTick.toNat c.cycleAccum.toNat ys) = c.advanced (cyclesOf xs) →
      wraps c.cyclesPerTbTick.toNat c.cycleAccum.toNat ys = 0 := by
    intro ys hys hsame
    have hle := wraps_le c.cyclesPerTbTick.toNat ys c.cycleAccum.toNat
    rw [ticksIn] at hticks
    rw [counted, hys, advanced_eq_settled] at hsame
    rw [hys] at hle
    have hsums := settled_inj c hpos
      (Nat.lt_of_le_of_lt ((Nat.div_le_div_right (Nat.sub_le _ _)).trans hticks) hsum)
      (Nat.lt_of_le_of_lt hticks hsum) hsame
    omega
  constructor
  · rintro ⟨hpieces, hsingle, -⟩
    rw [clockAdvanceCycles_eq_foldl, hwide] at hpieces hsingle
    rw [singleTicks_eq c hacc] at hsingle
    rw [← hsingle, foldl_tick xs c hacc hxs] at hpieces
    rw [foldl_tick _ c hacc (chunks_le _)] at hsingle
    exact ⟨hnone xs rfl hpieces, hnone _ (cyclesOf_chunks _) hsingle.symm⟩
  · rintro ⟨hstay, hchunks⟩
    have hpieces := foldl_tick_of_wraps c hacc hxs hstay
    have hat := foldl_tick_of_wraps c hacc (chunks_le _) hchunks
    rw [cyclesOf_chunks] at hat
    refine ⟨?_, ?_, ?_⟩
    · rw [hpieces, clockAdvanceCycles_eq_foldl, hwide, hat]
    · rw [singleTicks_eq c hacc, clockAdvanceCycles_eq_foldl, hwide, hat]
    · rw [hpieces, advanced_decPending, Bool.or_eq_true, decide_eq_true_iff, decPasses_iff c hacc]

/-! ## Where the accumulator wraps -/

/-- Cycles that bring the accumulator to `2^32` leave it empty, and the timebase where it was. -/
theorem tick_wrapped (c : Cpu β) {x : U32} (hx : c.cycleAccum.toNat + x.toNat = 2 ^ 32)
    (hdiv : 0 < c.cyclesPerTbTick.toNat) :
    c.tick x = { c with cycleAccum := c.cycleAccum + x } := by
  have hsum : (c.cycleAccum + x).toNat = 0 := by rw [BitVec.toNat_add, hx, Nat.mod_self]
  exact if_pos (by rw [BitVec.lt_def, hsum]; exact hdiv)

/-- **Pieces that lose a tick**, where the divisor leaves no room for a chunk. -/
theorem exists_lossy (c : Cpu β) (hacc : c.cycleAccum.toNat < c.cyclesPerTbTick.toNat)
    (hbig : 0xC1000000 < c.cyclesPerTbTick.toNat) :
    ∃ xs : List U32, (∀ x ∈ xs, x.toNat ≤ 0x3F000000) ∧ cyclesOf xs < 2 ^ 64
      ∧ ¬ SplitsExactly c xs := by
  have hdiv := c.cyclesPerTbTick.isLt
  have hpos : 0 < c.cyclesPerTbTick.toNat := Nat.lt_of_le_of_lt (Nat.zero_le _) hacc
  -- single cycles up to one below the divisor, and then a piece up to `2^32`
  obtain ⟨n, hn⟩ : ∃ n, n = c.cyclesPerTbTick.toNat - 1 - c.cycleAccum.toNat := ⟨_, rfl⟩
  obtain ⟨x, hx⟩ : ∃ x, x = 2 ^ 32 - (c.cyclesPerTbTick.toNat - 1) := ⟨_, rfl⟩
  have hxn : (BitVec.ofNat 32 x).toNat = x := by
    rw [BitVec.toNat_ofNat, Nat.mod_eq_of_lt (by omega)]
  have hones : ∀ y ∈ List.replicate n 1#32, y.toNat ≤ 0x3F000000 := by
    intro y hy
    rw [(List.mem_replicate.mp hy).2]
    decide
  have hsingle : cyclesOf (List.replicate n 1#32) = n := by
    rw [cyclesOf, List.map_replicate, List.sum_replicate_nat, show (1#32 : U32).toNat = 1 from rfl,
      Nat.mul_one]
  have hsum : cyclesOf (List.replicate n 1#32 ++ [BitVec.ofNat 32 x]) = n + x := by
    rw [cyclesOf_append, hsingle, cyclesOf_cons, hxn]
    rfl
  have hxs : ∀ y ∈ List.replicate n 1#32 ++ [BitVec.ofNat 32 x], y.toNat ≤ 0x3F000000 := by
    intro y hy
    rcases List.mem_append.mp hy with hy | hy
    · exact hones y hy
    · rw [List.mem_singleton.mp hy, hxn]
      omega
  refine ⟨List.replicate n 1#32 ++ [BitVec.ofNat 32 x], hxs, by omega, fun hexact => ?_⟩
  have hnone := ((splitsExactly_iff_wraps c hacc hxs (by omega)).mp hexact).1
  -- nothing is lost if no sum wraps, and yet the last piece has reached `2^32`
  have hall := foldl_tick_of_wraps c hacc hxs hnone
  have hfirst := foldl_tick_of_wraps c hacc hones (Nat.le_zero.mp (hnone ▸ wraps_append_le _ _ _ _))
  have hat : (c.advanced n).cycleAccum.toNat = c.cyclesPerTbTick.toNat - 1 := by
    rw [advanced_cycleAccum_toNat c hacc, Nat.mod_eq_of_lt (by omega)]
    omega
  have hlost := tick_wrapped (c.advanced n) (x := BitVec.ofNat 32 x) (by rw [hat, hxn]; omega)
    (by rw [advanced_cyclesPerTbTick]; exact hpos)
  have hzero : c.ticksIn n = 0 := Nat.div_eq_of_lt (by omega)
  have hone : c.ticksIn (n + x) = 1 := by
    rw [ticksIn, Nat.div_eq_iff hpos]
    omega
  rw [List.foldl_append, hfirst, hsingle, List.foldl_cons, List.foldl_nil, hsum, hlost] at hall
  have htb := congrArg (fun d => d.st.tb) hall
  dsimp only at htb
  rw [advanced_tb, advanced_tb, hzero, hone] at htb
  exact absurd (add_left_cancel htb) (by decide)

/-! ## The charged cycles -/

/-- `tbNow` forms its sum in 64 bits. -/
theorem tbNow_eq_iff (c : Cpu β) (h : ClockOk c) :
    c.tbNow = c.syncClock.st.tb ↔ c.cycleAccum.toNat + c.pendCycles.toNat < 2 ^ 64 := by
  have hacc := h.accum
  have hfits := h.fits
  have hpend := c.pendCycles.isLt
  have hw : ∀ y : U32, (y.setWidth 64).toNat = y.toNat := fun y => by
    rw [BitVec.toNat_setWidth, Nat.mod_eq_of_lt (by have := y.isLt; omega)]
  have hdiv : c.cyclesPerTbTick ≠ 0#32 := by
    intro h0
    rw [h0] at hacc
    exact absurd hacc (Nat.not_lt_zero _)
  by_cases hnone : c.pendCycles = 0#64
  · rw [tbNow, if_pos (Or.inl hnone), syncClock, if_pos hnone, hnone]
    exact iff_of_true rfl (by rw [show (0#64 : U64).toNat = 0 from rfl]; omega)
  have hok : ClockOk ({ c with pendCycles := 0#64 } : Cpu β) := ⟨hacc, hfits⟩
  rw [tbNow, if_neg (by rintro (h0 | h0); exacts [hnone h0, hdiv h0]), syncClock, if_neg hnone,
    clockAdvanceCycles_eq _ hok, advanced_tb, add_right_inj, ← BitVec.toNat_inj, BitVec.toNat_udiv,
    BitVec.toNat_add, hw, hw, BitVec.toNat_ofNat]
  obtain ⟨sum, hsum⟩ : ∃ sum, c.cycleAccum.toNat + c.pendCycles.toNat = sum := ⟨_, rfl⟩
  have hticks : Cpu.ticksIn { c with pendCycles := 0#64 } c.pendCycles.toNat
      = sum / c.cyclesPerTbTick.toNat := by rw [← hsum]; rfl
  rw [hticks, hsum]
  by_cases hlt : sum < 2 ^ 64
  · have hle : sum / c.cyclesPerTbTick.toNat ≤ sum := Nat.div_le_self _ _
    rw [Nat.mod_eq_of_lt hlt, Nat.mod_eq_of_lt (by omega)]
    exact iff_of_true rfl hlt
  · -- the sum wraps, and at least one tick is left out
    refine iff_of_false (fun hsame => ?_) hlt
    have hmod : sum % 2 ^ 64 = sum - 2 ^ 64 := by
      rw [Nat.mod_eq_sub_mod (by omega), Nat.mod_eq_of_lt (by omega)]
    have htwo : 2 ≤ c.cyclesPerTbTick.toNat := by omega
    have hhalf : sum / c.cyclesPerTbTick.toNat ≤ sum / 2 := Nat.div_le_div_left htwo (by decide)
    rw [hmod, Nat.mod_eq_of_lt (by omega)] at hsame
    have hstep : (sum - 2 ^ 64) / c.cyclesPerTbTick.toNat + 1 ≤ sum / c.cyclesPerTbTick.toNat := by
      rw [← Nat.add_div_right _ (by omega)]
      exact Nat.div_le_div_right (by omega)
    omega

/-- What is asked of the clock in a state: every split of every number of cycles is exact, and the
timebase that is read without applying the charged cycles is the one they lead to. -/
structure ClockExact (c : Cpu β) : Prop where
  splits : ∀ xs : List U32, (∀ x ∈ xs, x.toNat ≤ 0x3F000000) → cyclesOf xs < 2 ^ 64 →
    SplitsExactly c xs
  now : c.tbNow = c.syncClock.st.tb

/-- **The clock is exact** just where the accumulator has room for a chunk above every remainder,
and the remainder and the charged cycles add up within 64 bits. -/
theorem splits_exactly_iff (c : Cpu β) (hacc : c.cycleAccum < c.cyclesPerTbTick) :
    ClockExact c ↔ c.cyclesPerTbTick.toNat ≤ 0xC1000000
      ∧ c.cycleAccum.toNat + c.pendCycles.toNat < 2 ^ 64 := by
  have hlt := BitVec.lt_def.mp hacc
  constructor
  · rintro ⟨hsplits, hnow⟩
    have hroom : c.cyclesPerTbTick.toNat ≤ 0xC1000000 := by
      by_contra hbig
      obtain ⟨xs, hxs, hsum, hlossy⟩ := exists_lossy c hlt (not_le.mp hbig)
      exact hlossy (hsplits xs hxs hsum)
    exact ⟨hroom, (tbNow_eq_iff c ⟨hlt, hroom⟩).mp hnow⟩
  · rintro ⟨hroom, hsum⟩
    have hpos : 0 < c.cyclesPerTbTick.toNat := Nat.lt_of_le_of_lt (Nat.zero_le _) hlt
    refine ⟨fun xs hxs hfew => ?_, (tbNow_eq_iff c ⟨hlt, hroom⟩).mpr hsum⟩
    exact (splitsExactly_iff_wraps c hlt hxs hfew).mpr ⟨wraps_eq_zero hpos hroom _ _ hlt hxs,
      wraps_eq_zero hpos hroom _ _ hlt (chunks_le _)⟩

/-- Three cycles of five in the accumulator and ten more charged. -/
theorem charged_clockExact :
    ClockExact ({ bus := (), cyclesPerTbTick := 5#32, cycleAccum := 3#32, pendCycles := 10#64 } :
        Cpu Unit) :=
  (splits_exactly_iff
    ({ bus := (), cyclesPerTbTick := 5#32, cycleAccum := 3#32, pendCycles := 10#64 } : Cpu Unit)
    (by decide)).mpr ⟨by decide, by decide⟩

/-- A divisor of all ones: two cycles at once lose the tick that the first of them completes. -/
theorem wrapped_accumulator_loses :
    ¬ ClockExact ({ bus := (), cyclesPerTbTick := 0xFFFFFFFF#32, cycleAccum := 0xFFFFFFFE#32 } :
        Cpu Unit) := by
  intro h
  have hexact := h.splits [2#32] (by simp) (by decide)
  have hsame := congrArg (fun d => d.st.tb) (hexact.pieces.trans hexact.single.symm)
  exact absurd hsame (by decide)

/-! ## The step on which the decrementer asks -/

/-- Steps of so many cycles each. -/
def stepTicks (c : Cpu β) (cyclesPerStep : U32) (n : ℕ) : Cpu β :=
  (fun c => c.tick cyclesPerStep)^[n] c

/-- No request is up. -/
def lowered (c : Cpu β) : Cpu β := { c with decPending := false }

/-- What is asked of `stepsUntilDec`: the request goes up on that step and not before it, the
products that it forms have their 64 bits, and a count that is already negative does not ask
again within `2^31` ticks. -/
structure DecExact (c : Cpu β) (cyclesPerStep : U32) : Prop where
  least : c.st.dec.toNat < 2 ^ 31 →
    (c.stepsUntilDec cyclesPerStep).toNat * cyclesPerStep.toNat ≤ 0x3F000000 →
    ∀ j ≤ (c.stepsUntilDec cyclesPerStep).toNat,
      (c.lowered.stepTicks cyclesPerStep j).decPending = true
        ↔ j = (c.stepsUntilDec cyclesPerStep).toNat
  fits : c.st.dec.toNat < 2 ^ 31 →
    (c.st.dec.toNat + 1) * c.cyclesPerTbTick.toNat < 2 ^ 64
      ∧ (c.st.dec.toNat + 1) * c.cyclesPerTbTick.toNat - c.cycleAccum.toNat + cyclesPerStep.toNat
        < 2 ^ 64
  never : 2 ^ 31 ≤ c.st.dec.toNat → ∀ j, c.ticksIn (j * cyclesPerStep.toNat) < 2 ^ 31 →
    (c.lowered.stepTicks cyclesPerStep j).decPending = false

section Deadline

variable (c : Cpu β) (hacc : c.cycleAccum.toNat < c.cyclesPerTbTick.toNat) {cps : U32}
include hacc

/-- Within a chunk the steps have room, where the accumulator has it for them all. -/
theorem stepTicks_eq (n : ℕ) (hn : n * cps.toNat ≤ 0x3F000000)
    (hroom : c.cycleAccum.toNat + n * cps.toNat < 2 ^ 32) :
    c.stepTicks cps n = c.advanced (n * cps.toNat) := by
  induction n with
  | zero => rw [Nat.zero_mul, advanced_zero c hacc]; rfl
  | succ n ih =>
      rw [Nat.succ_mul] at hn hroom ⊢
      have hrem := Nat.mod_le (c.cycleAccum.toNat + n * cps.toNat) c.cyclesPerTbTick.toNat
      have hat := advanced_cycleAccum_toNat c hacc (n * cps.toNat)
      rw [stepTicks, Function.iterate_succ_apply', ← stepTicks, ih (by omega) (by omega),
        tick_eq_advanced _ (advanced_accum_lt c hacc _) cps (by omega) (by omega),
        advanced_add c hacc]

/-- `stepsUntilDec` is the first step with more ticks than the count holds. -/
theorem lt_stepsUntilDec_iff (hcps : cps ≠ 0#32) (hdec : c.st.dec.toNat < 2 ^ 31) (j : ℕ) :
    j < (c.stepsUntilDec cps).toNat ↔ c.ticksIn (j * cps.toNat) < c.st.dec.toNat + 1 := by
  obtain ⟨d, hd⟩ : ∃ d : Cpu β, d = { c with insnCycles := cps, extraCycles := 0#32 } := ⟨_, rfl⟩
  have hstep : d.cyclesPerStep = cps := by
    rw [hd]
    exact BitVec.add_zero cps
  have hsteps : c.stepsUntilDec cps = d.stepsUntilDec d.cyclesPerStep := by
    rw [hstep, hd]
    rfl
  have haccd : d.cycleAccum.toNat < d.cyclesPerTbTick.toNat := by
    rw [hd]
    exact hacc
  have hdecd : d.st.dec.toNat = c.st.dec.toNat := by rw [hd]
  rw [hsteps, stepsUntilDec_eq d haccd (by rw [hstep]; exact hcps) (by rw [hdecd]; exact hdec),
    lt_stepsToTick_iff d haccd (by rw [hstep]; exact hcps) (Nat.succ_pos _), hstep, hdecd, hd]
  exact Iff.rfl

/-- A tick of any length counts no more than the cycles it is given. -/
theorem tick_counts (x : U32) :
    ∃ n : U32, (c.tick x).st.dec = c.st.dec - n
      ∧ (c.tick x).cycleAccum.toNat < (c.tick x).cyclesPerTbTick.toNat
      ∧ (c.tick x).cyclesPerTbTick = c.cyclesPerTbTick
      ∧ n.toNat * c.cyclesPerTbTick.toNat + (c.tick x).cycleAccum.toNat
        ≤ c.cycleAccum.toNat + x.toNat
      ∧ ((c.tick x).decPending = true → c.decPending = true
        ∨ c.st.dec.toNat < 2 ^ 31 ∧ c.st.dec.toNat < n.toNat) := by
  have hsum : (c.cycleAccum + x).toNat ≤ c.cycleAccum.toNat + x.toNat := by
    rw [BitVec.toNat_add]
    exact Nat.mod_le _ _
  have hpos : 0 < c.cyclesPerTbTick.toNat := Nat.lt_of_le_of_lt (Nat.zero_le _) hacc
  have hdiv : c.cyclesPerTbTick ≠ 0#32 := by
    intro h0
    rw [h0] at hpos
    exact absurd hpos (by decide)
  by_cases hlt : c.cycleAccum + x < c.cyclesPerTbTick
  · refine ⟨0#32, ?_, ?_, ?_, ?_, ?_⟩ <;> rw [tick] <;> dsimp only <;> rw [if_pos hlt]
    · exact (BitVec.sub_zero _).symm
    · exact BitVec.lt_def.mp hlt
    · rw [BitVec.toNat_ofNat, Nat.zero_mod, Nat.zero_mul, Nat.zero_add]
      exact hsum
    · exact Or.inl
  · have hq := Nat.lt_of_le_of_lt (Nat.div_le_self _ c.cyclesPerTbTick.toNat)
      (c.cycleAccum + x).isLt
    have hr := Nat.mod_lt (c.cycleAccum + x).toNat hpos
    have hr32 := hr.trans c.cyclesPerTbTick.isLt
    refine ⟨BitVec.ofNat 32 ((c.cycleAccum + x).toNat / c.cyclesPerTbTick.toNat),
      ?_, ?_, ?_, ?_, ?_⟩ <;> rw [tick] <;> dsimp only <;> rw [if_neg hlt, tickQuot_eq _ _ hdiv]
    · dsimp only
      rw [BitVec.toNat_ofNat, Nat.mod_eq_of_lt hr32]
      exact hr
    · dsimp only
      rw [BitVec.toNat_ofNat, BitVec.toNat_ofNat, Nat.mod_eq_of_lt hq, Nat.mod_eq_of_lt hr32,
        Nat.mul_comm, Nat.div_add_mod]
      exact hsum
    · dsimp only
      rw [Bool.or_eq_true, Bool.and_eq_true, beq_iff_eq, msb_clear_iff, decide_eq_true_iff,
        BitVec.lt_def]
      exact id

/-- A negative count does not come round within `2^31` ticks, however long the steps. -/
theorem never_asks (hdec : 2 ^ 31 ≤ c.st.dec.toNat) (hdown : c.decPending = false) (j : ℕ) :
    c.ticksIn (j * cps.toNat) < 2 ^ 31 →
      ∃ n, n < 2 ^ 31 ∧ (c.stepTicks cps j).st.dec.toNat = c.st.dec.toNat - n
        ∧ (c.stepTicks cps j).cycleAccum.toNat < (c.stepTicks cps j).cyclesPerTbTick.toNat
        ∧ (c.stepTicks cps j).cyclesPerTbTick = c.cyclesPerTbTick
        ∧ n * c.cyclesPerTbTick.toNat + (c.stepTicks cps j).cycleAccum.toNat
          ≤ c.cycleAccum.toNat + j * cps.toNat
        ∧ (c.stepTicks cps j).decPending = false := by
  have hpos : 0 < c.cyclesPerTbTick.toNat := Nat.lt_of_le_of_lt (Nat.zero_le _) hacc
  induction j with
  | zero => exact fun _ => ⟨0, by decide, rfl, hacc, rfl, by simp [stepTicks], hdown⟩
  | succ j ih =>
      intro hticks
      have hmono : c.ticksIn (j * cps.toNat) ≤ c.ticksIn ((j + 1) * cps.toNat) := by
        rw [Nat.succ_mul]
        exact Nat.div_le_div_right (by omega)
      obtain ⟨n, hn, hdecj, haccj, hdivj, hsumj, hdownj⟩ := ih (by omega)
      rw [stepTicks, Function.iterate_succ_apply', ← stepTicks]
      obtain ⟨m, hdecm, haccm, hdivm, hsumm, hask⟩ := tick_counts (c.stepTicks cps j) haccj cps
      rw [hdivj] at hdivm hsumm
      rw [Nat.succ_mul] at hticks ⊢
      have htotal : (n + m.toNat) * c.cyclesPerTbTick.toNat
          ≤ c.cycleAccum.toNat + (j * cps.toNat + cps.toNat) := by
        rw [Nat.add_mul]
        omega
      have hsmall : n + m.toNat < 2 ^ 31 :=
        Nat.lt_of_le_of_lt ((Nat.le_div_iff_mul_le hpos).mpr htotal) hticks
      have hle : m ≤ (c.stepTicks cps j).st.dec := by
        rw [BitVec.le_def, hdecj]
        omega
      refine ⟨n + m.toNat, hsmall, ?_, haccm, hdivm, ?_, ?_⟩
      · rw [hdecm, BitVec.toNat_sub_of_le hle, hdecj]
        omega
      · rw [Nat.add_mul]
        omega
      · rw [Bool.eq_false_iff]
        intro hup
        rcases hask hup with hup | ⟨-, hup⟩
        · rw [hdownj] at hup
          cases hup
        · rw [hdecj] at hup
          omega

end Deadline

/-- The steps that take the accumulator to its first tick. -/
def firstTick (c : Cpu β) (cyclesPerStep : U32) : ℕ :=
  (c.cyclesPerTbTick.toNat - c.cycleAccum.toNat + cyclesPerStep.toNat - 1) / cyclesPerStep.toNat

/-- With the decrementer at zero, the first tick is what is waited for. -/
theorem stepsUntilDec_zero (c : Cpu β) (hacc : c.cycleAccum.toNat < c.cyclesPerTbTick.toNat)
    {cps : U32} (hcps : cps ≠ 0#32) (hdec : c.st.dec = 0#32) :
    (c.stepsUntilDec cps).toNat = c.firstTick cps := by
  have hpos : 0 < c.cyclesPerTbTick.toNat := Nat.lt_of_le_of_lt (Nat.zero_le _) hacc
  have hdec' : c.st.dec.toNat = 0 := by rw [hdec]; rfl
  have hc := BitVec.toNat_pos_of_ne_zero hcps
  refine eq_of_forall_lt_iff fun j => ?_
  rw [lt_stepsUntilDec_iff c hacc hcps (by omega), hdec', firstTick, Nat.lt_div_iff_mul_lt hc,
    ticksIn, Nat.div_lt_iff_lt_mul hpos]
  omega

/-- The steps to the first tick wrap the accumulator: those before the last complete no tick, and
neither does the last. -/
theorem firstTick_lost (c : Cpu β) (hacc : c.cycleAccum.toNat < c.cyclesPerTbTick.toNat) {cps : U32}
    (hcps : cps ≠ 0#32) (hdec : c.st.dec = 0#32)
    (hchunk : c.firstTick cps * cps.toNat ≤ 0x3F000000)
    (hbig : 2 ^ 32 ≤ c.cycleAccum.toNat + c.firstTick cps * cps.toNat) :
    (c.lowered.stepTicks cps (c.firstTick cps)).decPending = false := by
  have hpos : 0 < c.cyclesPerTbTick.toNat := Nat.lt_of_le_of_lt (Nat.zero_le _) hacc
  have hdiv := c.cyclesPerTbTick.isLt
  have hzero : c.st.dec.toNat = 0 := by rw [hdec]; rfl
  have hiff := lt_stepsUntilDec_iff c hacc hcps (by omega)
  rw [stepsUntilDec_zero c hacc hcps hdec, hzero] at hiff
  obtain ⟨k, hk⟩ : ∃ k, c.firstTick cps = k := ⟨_, rfl⟩
  rw [hk] at hchunk hbig hiff ⊢
  obtain ⟨j, rfl⟩ : ∃ j, k = j + 1 := by
    refine ⟨k - 1, ?_⟩
    have hfirst := (hiff 0).mpr (by rw [Nat.zero_mul, ticksIn_zero c hacc]; decide)
    omega
  have hbefore := (hiff j).mp (Nat.lt_succ_self j)
  rw [ticksIn, Nat.div_lt_iff_lt_mul hpos] at hbefore
  rw [Nat.succ_mul] at hchunk hbig
  have hbelow : c.lowered.cycleAccum.toNat + j * cps.toNat < 2 ^ 32 := by
    rw [show c.lowered.cycleAccum = c.cycleAccum from rfl]
    omega
  have hquiet := stepTicks_eq c.lowered hacc j (by omega) hbelow
  have hnone : c.ticksIn (j * cps.toNat) = 0 := Nat.div_eq_of_lt (by omega)
  have hat : (c.lowered.advanced (j * cps.toNat)).cycleAccum.toNat
      = c.cycleAccum.toNat + j * cps.toNat := by
    rw [advanced_cycleAccum_toNat c.lowered hacc]
    exact Nat.mod_eq_of_lt (by
      change c.cycleAccum.toNat + j * cps.toNat < c.cyclesPerTbTick.toNat
      omega)
  -- the sum of the last step is above `2^32` by less than a step, and so below the divisor again
  have hlast : (c.cycleAccum.toNat + j * cps.toNat + cps.toNat) % 2 ^ 32
      / c.cyclesPerTbTick.toNat = 0 := Nat.div_eq_of_lt (by omega)
  rw [stepTicks, Function.iterate_succ_apply', ← stepTicks, hquiet,
    tick_eq_settled _ (advanced_accum_lt c.lowered hacc _) _ (by omega), hat,
    settled_decPending, advanced_decPending, advanced_cyclesPerTbTick,
    show c.lowered.cyclesPerTbTick = c.cyclesPerTbTick from rfl, hlast,
    show c.lowered.ticksIn _ = c.ticksIn _ from rfl, hnone]
  rfl

/-- Where the answered steps have room in the accumulator, the request goes up on the last. -/
theorem asks_on_last (c : Cpu β) (hacc : c.cycleAccum.toNat < c.cyclesPerTbTick.toNat) {cps : U32}
    (hcps : cps ≠ 0#32) (hdec : c.st.dec.toNat < 2 ^ 31)
    (hchunk : (c.stepsUntilDec cps).toNat * cps.toNat ≤ 0x3F000000)
    (hroom : c.cycleAccum.toNat + (c.stepsUntilDec cps).toNat * cps.toNat < 2 ^ 32) {j : ℕ}
    (hj : j ≤ (c.stepsUntilDec cps).toNat) :
    (c.lowered.stepTicks cps j).decPending = true ↔ j = (c.stepsUntilDec cps).toNat := by
  have hlate := (lt_stepsUntilDec_iff c hacc hcps hdec j).not
  have hjk : j * cps.toNat ≤ (c.stepsUntilDec cps).toNat * cps.toNat := Nat.mul_le_mul_right _ hj
  have hroomj : c.lowered.cycleAccum.toNat + j * cps.toNat < 2 ^ 32 :=
    Nat.lt_of_le_of_lt (Nat.add_le_add_left hjk _) hroom
  rw [stepTicks_eq c.lowered hacc j (hjk.trans hchunk) hroomj, advanced_decPending,
    show c.lowered.decPending = false from rfl, Bool.false_or, decide_eq_true_iff]
  change c.st.dec.toNat < c.ticksIn (j * cps.toNat) ↔ j = (c.stepsUntilDec cps).toNat
  omega

/-- A count above zero waits for two ticks at least: where their cycles are within a chunk, the
divisor is far from the bound. -/
theorem room_of_dec_ne_zero (c : Cpu β) (hacc : c.cycleAccum.toNat < c.cyclesPerTbTick.toNat)
    {cps : U32} (hcps : cps ≠ 0#32) (hdec : c.st.dec.toNat < 2 ^ 31) (hne : c.st.dec ≠ 0#32)
    (hchunk : (c.stepsUntilDec cps).toNat * cps.toNat ≤ 0x3F000000) :
    c.cycleAccum.toNat + (c.stepsUntilDec cps).toNat * cps.toNat < 2 ^ 32 := by
  have hpos : 0 < c.cyclesPerTbTick.toNat := Nat.lt_of_le_of_lt (Nat.zero_le _) hacc
  have hreach : (c.st.dec.toNat + 1) * c.cyclesPerTbTick.toNat
      ≤ c.cycleAccum.toNat + (c.stepsUntilDec cps).toNat * cps.toNat := by
    have hlast := (lt_stepsUntilDec_iff c hacc hcps hdec _).not.mp (lt_irrefl _)
    rw [not_lt] at hlast
    exact (Nat.le_div_iff_mul_le hpos).mp hlast
  have hdec0 : c.st.dec.toNat ≠ 0 := fun h0 => hne (BitVec.eq_of_toNat_eq h0)
  have htwo : 2 * c.cyclesPerTbTick.toNat ≤ (c.st.dec.toNat + 1) * c.cyclesPerTbTick.toNat :=
    Nat.mul_le_mul_right _ (by omega)
  omega

/-- **The deadline is exact** just where, the decrementer being at zero and the steps to the first
tick within a chunk, these leave the accumulator below `2^32`. -/
theorem stepsUntilDec_exact_iff (c : Cpu β) (hacc : c.cycleAccum < c.cyclesPerTbTick)
    (cyclesPerStep : U32) (hcps : cyclesPerStep ≠ 0#32) :
    DecExact c cyclesPerStep
      ↔ (c.st.dec = 0#32 → c.firstTick cyclesPerStep * cyclesPerStep.toNat ≤ 0x3F000000 →
          c.cycleAccum.toNat + c.firstTick cyclesPerStep * cyclesPerStep.toNat < 2 ^ 32) := by
  have hlt := BitVec.lt_def.mp hacc
  constructor
  · intro hexact hzero hchunk
    have hdec : c.st.dec.toNat < 2 ^ 31 := by rw [hzero]; decide
    have hsteps := stepsUntilDec_zero c hlt hcps hzero
    by_contra hbig
    have hdown := firstTick_lost c hlt hcps hzero hchunk (not_lt.mp hbig)
    have hup := (hexact.least hdec (by rw [hsteps]; exact hchunk) _ hsteps.ge).mpr hsteps.symm
    rw [hdown] at hup
    cases hup
  · intro hroom
    refine ⟨fun hdec hchunk j hj => ?_, fun hdec => ?_, fun hdec j hj => ?_⟩
    · refine asks_on_last c hlt hcps hdec hchunk ?_ hj
      by_cases hzero : c.st.dec = 0#32
      · rw [stepsUntilDec_zero c hlt hcps hzero] at hchunk ⊢
        exact hroom hzero hchunk
      · exact room_of_dec_ne_zero c hlt hcps hdec hzero hchunk
    · have hprod : (c.st.dec.toNat + 1) * c.cyclesPerTbTick.toNat ≤ 2 ^ 31 * 2 ^ 32 :=
        Nat.mul_le_mul (by omega) c.cyclesPerTbTick.isLt.le
      have hcps32 := cyclesPerStep.isLt
      omega
    · obtain ⟨n, -, -, -, -, -, hdown⟩ := @never_asks β c.lowered hlt cyclesPerStep hdec rfl j hj
      exact hdown

/-- A decrementer at zero, three cycles of ten in the accumulator and two cycles a step: the
request goes up on the fourth. -/
theorem remainder_decExact :
    DecExact ({ bus := (), st := { dec := 0#32 }, cyclesPerTbTick := 10#32, cycleAccum := 3#32 } :
      Cpu Unit) 2#32 :=
  (stepsUntilDec_exact_iff
    ({ bus := (), st := { dec := 0#32 }, cyclesPerTbTick := 10#32, cycleAccum := 3#32 } : Cpu Unit)
    (by decide) 2#32 (by decide)).mpr (by decide)

/-- A divisor of all ones and a decrementer at zero: a step of two cycles is said to raise the
request, and wraps the accumulator. -/
theorem wrapped_accumulator_no_request :
    ¬ DecExact ({ bus := (), st := { dec := 0#32 }, cyclesPerTbTick := 0xFFFFFFFF#32,
                  cycleAccum := 0xFFFFFFFE#32 } : Cpu Unit) 2#32 := by
  intro h
  have hasks := h.least (by decide) (by decide) 1 (by decide)
  exact absurd (hasks.mpr (by decide)) (by decide)

end Cpu

end OpenPowerMac
