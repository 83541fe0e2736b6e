/-
The clock: `Cpu::tick`, `stepsUntilDec`, `clockAdvanceCycles`, `charge`,
`syncClock` and `tbNow` (`core/include/opm/cpu.hpp`).

The timebase and the decrementer advance once every `cyclesPerTbTick` processor
cycles, the remainder being carried in `cycleAccum`. `advanced` is the closed
form of that: what `cycles` more processor cycles do to the clock, as one
division. The three loops of the source (`tick`'s two arms, the chunked
`clockAdvanceCycles`, a run of single steps) are all `advanced`, and `advanced`
composes by adding cycles, which is the whole reason a run of steps may be
charged at once.

They are so where `cycleAccum + cycles` never wraps: the accumulator is a `u32`,
and each wrap leaves `2^32` cycles uncounted. `wraps` is how often that happens
over a list of pieces, and `foldl_tick` is what the pieces do in every case. A
divisor with room above it for a chunk (`ClockOk`) never wraps. It is four on the
machine, so the bound is far away; it is stated because the fields are public and
a snapshot restores them.
-/
import OpenPowerMac.Cpu

set_option autoImplicit false

namespace OpenPowerMac

namespace Cpu

variable {β : Type}

/-! ## The source -/

/-- `tbShift`: the power of two the divisor is, if it is one below `2^32`. The
source caches it beside the divisor it was computed for. -/
def tbShift (div : U32) : Option ℕ := (List.range 32).find? fun k => div == 1#32 <<< k

/-- `tick`'s division: the whole ticks in `accum` and what is left, by the
cached shift where there is one. -/
def tickQuot (accum div : U32) : U32 × U32 :=
  match tbShift div with
  | some k => (accum >>> k, accum &&& (div - 1#32))
  | none =>
      let n := if div = 0#32 then 0#32 else accum / div
      (n, accum - n * div)

/-- `Cpu::tick`: advance the timebase by `cycles` processor cycles. -/
def tick (c : Cpu β) (cycles : U32) : Cpu β :=
  let accum := c.cycleAccum + cycles
  if accum < c.cyclesPerTbTick then { c with cycleAccum := accum }
  else
    let q := tickQuot accum c.cyclesPerTbTick
    let old := c.st.dec
    { c with
      cycleAccum := q.2
      st := { c.st with tb := c.st.tb + q.1.setWidth 64, dec := old - q.1 }
      -- the MSB goes 0 -> 1 on the step where the count passes below zero
      decPending := c.decPending || (old &&& 0x80000000#32 == 0#32 && decide (old < q.1)) }

/-- `Cpu::tbUntilDec`: timebase ticks to the decrementer's interrupt. -/
def tbUntilDec (c : Cpu β) : U64 :=
  if c.st.dec &&& 0x80000000#32 ≠ 0#32 then 0xFFFFFFFFFFFFFFFF#64
  else c.st.dec.setWidth 64 + 1#64

/-- `Cpu::stepsUntilDec`: steps of `cyclesPerStep` cycles that can pass before
the decrementer asks for its interrupt. -/
def stepsUntilDec (c : Cpu β) (cyclesPerStep : U32) : U64 :=
  if c.st.dec &&& 0x80000000#32 ≠ 0#32 ∨ cyclesPerStep = 0#32 ∨ c.cyclesPerTbTick = 0#32 then
    0xFFFFFFFFFFFFFFFF#64
  else
    let need : U64 := c.st.dec.setWidth 64 + 1#64
    let total : U64 := need * c.cyclesPerTbTick.setWidth 64
    let cycles : U64 :=
      if c.cycleAccum.setWidth 64 < total then total - c.cycleAccum.setWidth 64 else 0#64
    (cycles + cyclesPerStep.setWidth 64 - 1#64) / cyclesPerStep.setWidth 64

/-- The largest chunk `clockAdvanceCycles` hands to `tick`. -/
def kClockChunk : U64 := 0x3F000000#64

/-- The `while (cycles)` loop of `clockAdvanceCycles`. Every trip removes at
least one cycle, so the cycle count itself is enough fuel. -/
def clockAdvanceLoop : ℕ → U64 → Cpu β → Cpu β
  | 0, _, c => c
  | fuel + 1, cycles, c =>
      if cycles = 0#64 then c
      else
        let k := if kClockChunk < cycles then kClockChunk else cycles
        clockAdvanceLoop fuel (cycles - k) (c.tick (k.setWidth 32))

/-- `Cpu::clockAdvanceCycles`. -/
def clockAdvanceCycles (c : Cpu β) (cycles : U64) : Cpu β :=
  clockAdvanceLoop cycles.toNat cycles c

/-- `Cpu::clockAdvance`. -/
def clockAdvance (c : Cpu β) (steps : U64) (cyclesPerStep : U32) : Cpu β :=
  c.clockAdvanceCycles (steps * cyclesPerStep.setWidth 64)

/-- `Cpu::syncClock`: apply what has been charged. -/
def syncClock (c : Cpu β) : Cpu β :=
  if c.pendCycles = 0#64 then c
  else ({ c with pendCycles := 0#64 }).clockAdvanceCycles c.pendCycles

/-- `Cpu::charge`. -/
def charge (c : Cpu β) (cycles : U32) : Cpu β :=
  let c := { c with pendCycles := c.pendCycles + cycles.setWidth 64 }
  if c.batching then c else c.syncClock

/-- `Cpu::tbNow`: the timebase with the charged cycles included. -/
def tbNow (c : Cpu β) : U64 :=
  if c.pendCycles = 0#64 ∨ c.cyclesPerTbTick = 0#32 then c.st.tb
  else c.st.tb + (c.cycleAccum.setWidth 64 + c.pendCycles) / c.cyclesPerTbTick.setWidth 64

/-! ## The closed form -/

/-- The clock's shape between instructions: the remainder is below the divisor,
and a chunk of cycles can be added to it without wrapping. -/
structure ClockOk (c : Cpu β) : Prop where
  accum : c.cycleAccum.toNat < c.cyclesPerTbTick.toNat
  fits : c.cyclesPerTbTick.toNat ≤ 0xC1000000

/-- Whole timebase ticks in the remainder plus `cycles` further cycles. -/
def ticksIn (c : Cpu β) (cycles : ℕ) : ℕ :=
  (c.cycleAccum.toNat + cycles) / c.cyclesPerTbTick.toNat

/-- What `cycles` processor cycles do to the clock. The decrementer's request
is raised exactly when the count has passed below zero. -/
def advanced (c : Cpu β) (cycles : ℕ) : Cpu β :=
  { c with
    cycleAccum := BitVec.ofNat 32 ((c.cycleAccum.toNat + cycles) % c.cyclesPerTbTick.toNat)
    st := { c.st with
      tb := c.st.tb + BitVec.ofNat 64 (c.ticksIn cycles)
      dec := c.st.dec - BitVec.ofNat 32 (c.ticksIn cycles) }
    decPending := c.decPending || decide (c.st.dec.toNat < c.ticksIn cycles) }

/-- The clock with `sum` cycles in hand, taken into whole ticks and a remainder. -/
def settled (c : Cpu β) (sum : ℕ) : Cpu β :=
  { c with
    cycleAccum := BitVec.ofNat 32 (sum % c.cyclesPerTbTick.toNat)
    st := { c.st with
      tb := c.st.tb + BitVec.ofNat 64 (sum / c.cyclesPerTbTick.toNat)
      dec := c.st.dec - BitVec.ofNat 32 (sum / c.cyclesPerTbTick.toNat) }
    decPending := c.decPending || decide (c.st.dec.toNat < sum / c.cyclesPerTbTick.toNat) }

theorem advanced_eq_settled (c : Cpu β) (n : ℕ) :
    c.advanced n = c.settled (c.cycleAccum.toNat + n) := rfl

@[simp] theorem settled_cyclesPerTbTick (c : Cpu β) (n : ℕ) :
    (c.settled n).cyclesPerTbTick = c.cyclesPerTbTick := rfl

@[simp] theorem settled_tb (c : Cpu β) (n : ℕ) :
    (c.settled n).st.tb = c.st.tb + BitVec.ofNat 64 (n / c.cyclesPerTbTick.toNat) := rfl

@[simp] theorem settled_dec (c : Cpu β) (n : ℕ) :
    (c.settled n).st.dec = c.st.dec - BitVec.ofNat 32 (n / c.cyclesPerTbTick.toNat) := rfl

@[simp] theorem settled_decPending (c : Cpu β) (n : ℕ) :
    (c.settled n).decPending
      = (c.decPending || decide (c.st.dec.toNat < n / c.cyclesPerTbTick.toNat)) := rfl

@[simp] theorem advanced_cyclesPerTbTick (c : Cpu β) (n : ℕ) :
    (c.advanced n).cyclesPerTbTick = c.cyclesPerTbTick := rfl

@[simp] theorem advanced_tb (c : Cpu β) (n : ℕ) :
    (c.advanced n).st.tb = c.st.tb + BitVec.ofNat 64 (c.ticksIn n) := rfl

@[simp] theorem advanced_decPending (c : Cpu β) (n : ℕ) :
    (c.advanced n).decPending
      = (c.decPending || decide (c.st.dec.toNat < c.ticksIn n)) := rfl

/-- A count that has passed below zero stays reported, and one that has not is
short by exactly what was taken. -/
theorem dec_passes_add (d : U32) (m n : ℕ) :
    (decide (d.toNat < m) || decide ((d - BitVec.ofNat 32 m).toNat < n))
      = decide (d.toNat < m + n) ∨ d.toNat < m := by
  by_cases hm : d.toNat < m
  · exact Or.inr hm
  · left
    have hd : (d - BitVec.ofNat 32 m).toNat = d.toNat - m := by
      have := d.isLt
      rw [BitVec.toNat_sub_of_le]
      · rw [BitVec.toNat_ofNat, Nat.mod_eq_of_lt (by omega)]
      · rw [BitVec.le_def, BitVec.toNat_ofNat, Nat.mod_eq_of_lt (by omega)]
        omega
    rw [hd]
    simp only [hm, decide_false, Bool.false_or, decide_eq_decide]
    omega

section Settled

variable (c : Cpu β) (hpos : 0 < c.cyclesPerTbTick.toNat)
include hpos

theorem settled_cycleAccum_toNat (sum : ℕ) :
    (c.settled sum).cycleAccum.toNat = sum % c.cyclesPerTbTick.toNat := by
  have hlt := Nat.mod_lt sum hpos
  have hdiv := c.cyclesPerTbTick.isLt
  simp only [settled, BitVec.toNat_ofNat]
  exact Nat.mod_eq_of_lt (by omega)

/-- **Settling twice** is settling once: the first remainder is replaced by what
the second sum holds. -/
theorem settled_settled (a r : ℕ) :
    (c.settled a).settled r
      = c.settled (a / c.cyclesPerTbTick.toNat * c.cyclesPerTbTick.toNat + r) := by
  have hticks : (a / c.cyclesPerTbTick.toNat * c.cyclesPerTbTick.toNat + r)
        / c.cyclesPerTbTick.toNat
      = a / c.cyclesPerTbTick.toNat + r / c.cyclesPerTbTick.toNat := by
    rw [Nat.add_comm, Nat.add_mul_div_right _ _ hpos, Nat.add_comm]
  have hrem : (a / c.cyclesPerTbTick.toNat * c.cyclesPerTbTick.toNat + r)
        % c.cyclesPerTbTick.toNat = r % c.cyclesPerTbTick.toNat := by
    rw [Nat.add_comm, Nat.add_mul_mod_self_right]
  have hdec : ((c.settled a).decPending
        || decide ((c.settled a).st.dec.toNat < r / c.cyclesPerTbTick.toNat))
      = (c.decPending || decide (c.st.dec.toNat
          < a / c.cyclesPerTbTick.toNat + r / c.cyclesPerTbTick.toNat)) := by
    rw [settled_decPending, settled_dec, Bool.or_assoc]
    rcases dec_passes_add c.st.dec (a / c.cyclesPerTbTick.toNat)
      (r / c.cyclesPerTbTick.toNat) with hp | hp
    · rw [hp]
    · have hp' : c.st.dec.toNat < a / c.cyclesPerTbTick.toNat + r / c.cyclesPerTbTick.toNat :=
        Nat.lt_of_lt_of_le hp (Nat.le_add_right _ _)
      simp only [hp, hp', decide_true, Bool.true_or]
  have htb : (c.settled a).st.tb + BitVec.ofNat 64 (r / c.cyclesPerTbTick.toNat)
      = c.st.tb + BitVec.ofNat 64
          (a / c.cyclesPerTbTick.toNat + r / c.cyclesPerTbTick.toNat) := by
    rw [BitVec.ofNat_add, settled_tb, BitVec.add_assoc]
  have hd : (c.settled a).st.dec - BitVec.ofNat 32 (r / c.cyclesPerTbTick.toNat)
      = c.st.dec - BitVec.ofNat 32
          (a / c.cyclesPerTbTick.toNat + r / c.cyclesPerTbTick.toNat) := by
    rw [BitVec.ofNat_add, settled_dec, sub_sub]
  calc (c.settled a).settled r
      = { c with
          cycleAccum := BitVec.ofNat 32 (r % c.cyclesPerTbTick.toNat)
          st := { c.st with
            tb := (c.settled a).st.tb + BitVec.ofNat 64 (r / c.cyclesPerTbTick.toNat)
            dec := (c.settled a).st.dec - BitVec.ofNat 32 (r / c.cyclesPerTbTick.toNat) }
          decPending := (c.settled a).decPending
            || decide ((c.settled a).st.dec.toNat < r / c.cyclesPerTbTick.toNat) } := rfl
    _ = c.settled (a / c.cyclesPerTbTick.toNat * c.cyclesPerTbTick.toNat + r) := by
        rw [htb, hd, hdec, ← hticks, ← hrem]
        rfl

/-- Below `2^64` ticks the clock tells two sums apart. -/
theorem settled_inj {a b : ℕ} (ha : a / c.cyclesPerTbTick.toNat < 2 ^ 64)
    (hb : b / c.cyclesPerTbTick.toNat < 2 ^ 64) (h : c.settled a = c.settled b) : a = b := by
  have hrem := congrArg (fun d : Cpu β => d.cycleAccum.toNat) h
  have htb := congrArg (fun d : Cpu β => d.st.tb) h
  rw [settled_cycleAccum_toNat c hpos, settled_cycleAccum_toNat c hpos] at hrem
  rw [settled_tb, settled_tb, add_right_inj, ← BitVec.toNat_inj, BitVec.toNat_ofNat,
    BitVec.toNat_ofNat, Nat.mod_eq_of_lt ha, Nat.mod_eq_of_lt hb] at htb
  rw [← Nat.div_add_mod' a c.cyclesPerTbTick.toNat, htb, hrem, Nat.div_add_mod']

end Settled

section Remainder

variable (c : Cpu β) (hacc : c.cycleAccum.toNat < c.cyclesPerTbTick.toNat)
include hacc

theorem advanced_cycleAccum_toNat (n : ℕ) :
    (c.advanced n).cycleAccum.toNat
      = (c.cycleAccum.toNat + n) % c.cyclesPerTbTick.toNat := by
  have hpos : 0 < c.cyclesPerTbTick.toNat := Nat.lt_of_le_of_lt (Nat.zero_le _) hacc
  have hlt := Nat.mod_lt (c.cycleAccum.toNat + n) hpos
  have hdiv := c.cyclesPerTbTick.isLt
  simp only [advanced, BitVec.toNat_ofNat]
  exact Nat.mod_eq_of_lt (by omega)

/-- The closed form leaves a remainder below the divisor. -/
theorem advanced_accum_lt (n : ℕ) :
    (c.advanced n).cycleAccum.toNat < (c.advanced n).cyclesPerTbTick.toNat := by
  rw [advanced_cycleAccum_toNat c hacc]
  exact Nat.mod_lt _ (Nat.lt_of_le_of_lt (Nat.zero_le _) hacc)

theorem ticksIn_zero : c.ticksIn 0 = 0 := Nat.div_eq_of_lt hacc

theorem advanced_zero : c.advanced 0 = c := by
  have hsame : (c.cycleAccum.toNat + 0) % c.cyclesPerTbTick.toNat = c.cycleAccum.toNat :=
    Nat.mod_eq_of_lt hacc
  simp only [advanced, ticksIn_zero c hacc, hsame, BitVec.ofNat_toNat, BitVec.setWidth_eq]
  simp

/-- Ticks add up: the remainder carries exactly what the first division left. -/
theorem ticksIn_add (a b : ℕ) :
    c.ticksIn (a + b) = c.ticksIn a + (c.advanced a).ticksIn b := by
  have hpos : 0 < c.cyclesPerTbTick.toNat := Nat.lt_of_le_of_lt (Nat.zero_le _) hacc
  simp only [ticksIn, advanced_cycleAccum_toNat c hacc, advanced_cyclesPerTbTick]
  have hsplit : c.cycleAccum.toNat + (a + b)
      = (c.cycleAccum.toNat + a) % c.cyclesPerTbTick.toNat + b
        + c.cyclesPerTbTick.toNat * ((c.cycleAccum.toNat + a) / c.cyclesPerTbTick.toNat) := by
    have := Nat.mod_add_div (c.cycleAccum.toNat + a) c.cyclesPerTbTick.toNat
    omega
  rw [hsplit, Nat.add_mul_div_left _ _ hpos]
  omega

/-- **The closed form composes.** Advancing twice is advancing by the sum. -/
theorem advanced_add (a b : ℕ) : (c.advanced a).advanced b = c.advanced (a + b) := by
  have hpos : 0 < c.cyclesPerTbTick.toNat := Nat.lt_of_le_of_lt (Nat.zero_le _) hacc
  have hsum := Nat.div_add_mod' (c.cycleAccum.toNat + a) c.cyclesPerTbTick.toNat
  rw [advanced_eq_settled, advanced_cycleAccum_toNat c hacc, advanced_eq_settled c a,
    settled_settled c hpos, advanced_eq_settled]
  congr 1
  omega

/-- A divisor of at least one: there are never more ticks than cycles. -/
theorem ticksIn_le (n : ℕ) : c.ticksIn n ≤ n := by
  have hpos : 0 < c.cyclesPerTbTick.toNat := Nat.lt_of_le_of_lt (Nat.zero_le _) hacc
  have hlt : c.cycleAccum.toNat + n < c.cyclesPerTbTick.toNat * (n + 1) := by
    have hle : n ≤ c.cyclesPerTbTick.toNat * n := Nat.le_mul_of_pos_left _ hpos
    rw [Nat.mul_add, Nat.mul_one]
    omega
  exact Nat.le_of_lt_succ (Nat.div_lt_of_lt_mul hlt)

end Remainder

/-! ## The source is the closed form -/

/-- `tick`'s shift arm is its divide arm: the cached shift is the divisor's
logarithm. -/
theorem tbShift_spec {div : U32} {k : ℕ} (h : tbShift div = some k) :
    k < 32 ∧ div.toNat = 2 ^ k := by
  have hk : k < 32 := List.mem_range.mp (List.mem_of_find?_eq_some h)
  have hdiv : div = 1#32 <<< k := by simpa using List.find?_some h
  refine ⟨hk, ?_⟩
  have hpow : 2 ^ k < 2 ^ 32 := Nat.pow_lt_pow_right (by norm_num) hk
  rw [hdiv, BitVec.toNat_shiftLeft, Nat.shiftLeft_eq, show (1#32).toNat = 1 from rfl,
    Nat.one_mul, Nat.mod_eq_of_lt hpow]

/-- The quotient and the remainder `tick` computes, whichever arm runs. -/
theorem tickQuot_eq (accum div : U32) (hdiv : div ≠ 0#32) :
    tickQuot accum div
      = (BitVec.ofNat 32 (accum.toNat / div.toNat), BitVec.ofNat 32 (accum.toNat % div.toNat)) := by
  have hq : accum.toNat / div.toNat < 2 ^ 32 :=
    Nat.lt_of_le_of_lt (Nat.div_le_self _ _) accum.isLt
  have hr : accum.toNat % div.toNat < 2 ^ 32 :=
    Nat.lt_of_le_of_lt (Nat.mod_le _ _) accum.isLt
  unfold tickQuot
  cases hs : tbShift div with
  | some k =>
      obtain ⟨hk, hpow⟩ := tbShift_spec hs
      have hmask : (div - 1#32).toNat = 2 ^ k - 1 := by
        have hpos : 1 ≤ div.toNat := by rw [hpow]; exact Nat.one_le_two_pow
        rw [BitVec.toNat_sub_of_le (by rw [BitVec.le_def]; exact hpos), hpow]; rfl
      refine Prod.ext (BitVec.eq_of_toNat_eq ?_) (BitVec.eq_of_toNat_eq ?_)
      · rw [BitVec.toNat_ofNat, Nat.mod_eq_of_lt hq, BitVec.toNat_ushiftRight,
          Nat.shiftRight_eq_div_pow, hpow]
      · rw [BitVec.toNat_ofNat, Nat.mod_eq_of_lt hr, BitVec.toNat_and, hmask,
          Nat.and_two_pow_sub_one_eq_mod, hpow]
  | none =>
      have hmul : accum.toNat / div.toNat * div.toNat ≤ accum.toNat := Nat.div_mul_le_self _ _
      have hprod : (accum / div * div).toNat = accum.toNat / div.toNat * div.toNat := by
        rw [BitVec.toNat_mul, BitVec.toNat_udiv,
          Nat.mod_eq_of_lt (Nat.lt_of_le_of_lt hmul accum.isLt)]
      simp only [if_neg hdiv]
      refine Prod.ext (BitVec.eq_of_toNat_eq ?_) (BitVec.eq_of_toNat_eq ?_)
      · rw [BitVec.toNat_ofNat, Nat.mod_eq_of_lt hq, BitVec.toNat_udiv]
      · rw [BitVec.toNat_sub_of_le (by rw [BitVec.le_def, hprod]; exact hmul), hprod,
          BitVec.toNat_ofNat, Nat.mod_eq_of_lt hr]
        have := Nat.mod_add_div accum.toNat div.toNat
        rw [Nat.mul_comm] at this
        omega

/-- The sign test `(d & 0x80000000) == 0` is a bound. -/
theorem msb_clear_iff (d : U32) : d &&& 0x80000000#32 = 0#32 ↔ d.toNat < 2 ^ 31 := by
  have hand : (d &&& 0x80000000#32).toNat = (d.toNat.testBit 31).toNat * 2 ^ 31 := by
    rw [BitVec.toNat_and, show (0x80000000#32).toNat = 2 ^ 31 from rfl, Nat.and_two_pow]
  constructor
  · intro h
    have hbit : d.toNat.testBit 31 = false := by
      rw [h] at hand
      by_contra hb
      rw [Bool.not_eq_false] at hb
      rw [hb] at hand
      exact absurd hand (by decide)
    rw [Nat.testBit_eq_decide_div_mod_eq, decide_eq_false_iff_not] at hbit
    have := d.isLt
    omega
  · intro h
    apply BitVec.eq_of_toNat_eq
    rw [hand, Nat.testBit_lt_two_pow h]
    rfl

/-- A tick that stays clear of `2^31` raises the request exactly when the count
passes below zero: from a negative start it cannot get that far. -/
theorem dec_msb_test (d n : U32) (hn : n.toNat < 2 ^ 31) :
    (d &&& 0x80000000#32 == 0#32 && decide (d < n)) = decide (d.toNat < n.toNat) := by
  by_cases hlt : d.toNat < n.toNat
  · have hmsb : d &&& 0x80000000#32 = 0#32 := (msb_clear_iff d).mpr (by omega)
    simp [hmsb, BitVec.lt_def, hlt]
  · simp [BitVec.lt_def, hlt]

/-- **`tick` settles the 32-bit sum.** -/
theorem tick_eq_settled (c : Cpu β) (hacc : c.cycleAccum.toNat < c.cyclesPerTbTick.toNat)
    (cycles : U32) (hcyc : cycles.toNat ≤ 0x3F000000) :
    c.tick cycles = c.settled ((c.cycleAccum.toNat + cycles.toNat) % 2 ^ 32) := by
  have hdiv : c.cyclesPerTbTick ≠ 0#32 := by
    intro h0
    rw [h0] at hacc
    exact absurd hacc (Nat.not_lt_zero _)
  obtain ⟨sum, hdef⟩ : ∃ sum, (c.cycleAccum.toNat + cycles.toNat) % 2 ^ 32 = sum := ⟨_, rfl⟩
  have hsum : (c.cycleAccum + cycles).toNat = sum := by rw [BitVec.toNat_add, hdef]
  rw [hdef]
  by_cases hlt : c.cycleAccum + cycles < c.cyclesPerTbTick
  · -- the remainder grows and nothing ticks
    have hlt' : sum < c.cyclesPerTbTick.toNat := by rw [← hsum]; exact hlt
    have hmod : BitVec.ofNat 32 (sum % c.cyclesPerTbTick.toNat) = c.cycleAccum + cycles := by
      rw [Nat.mod_eq_of_lt hlt', ← hsum, BitVec.ofNat_toNat, BitVec.setWidth_eq]
    simp only [tick, if_pos hlt, settled, Nat.div_eq_of_lt hlt', hmod]
    simp
  · -- a sum that has wrapped is below the divisor, so this one has not
    have hle : sum / c.cyclesPerTbTick.toNat ≤ 0x3F000000 := by
      have hge : c.cyclesPerTbTick.toNat ≤ sum := by rw [← hsum]; exact BitVec.not_lt.mp hlt
      have hcyc32 := cycles.isLt
      have hone : sum = c.cycleAccum.toNat + cycles.toNat := by omega
      have hticks := ticksIn_le c hacc cycles.toNat
      rw [ticksIn, ← hone] at hticks
      omega
    have hn : (BitVec.ofNat 32 (sum / c.cyclesPerTbTick.toNat)).toNat
        = sum / c.cyclesPerTbTick.toNat := by
      rw [BitVec.toNat_ofNat, Nat.mod_eq_of_lt (by omega)]
    have hdec := dec_msb_test c.st.dec (BitVec.ofNat 32 (sum / c.cyclesPerTbTick.toNat)) (by omega)
    have htb : (BitVec.ofNat 32 (sum / c.cyclesPerTbTick.toNat)).setWidth 64
        = BitVec.ofNat 64 (sum / c.cyclesPerTbTick.toNat) := by
      apply BitVec.eq_of_toNat_eq
      rw [BitVec.toNat_setWidth, hn, BitVec.toNat_ofNat]
    rw [hn] at hdec
    simp only [tick, if_neg hlt, tickQuot_eq _ _ hdiv, hsum, hdec, htb, settled]

/-- `tick` is the closed form where the accumulator has room for the cycles. -/
theorem tick_eq_advanced (c : Cpu β) (hacc : c.cycleAccum.toNat < c.cyclesPerTbTick.toNat)
    (cycles : U32) (hroom : c.cycleAccum.toNat + cycles.toNat < 2 ^ 32)
    (hcyc : cycles.toNat ≤ 0x3F000000) : c.tick cycles = c.advanced cycles.toNat := by
  rw [tick_eq_settled c hacc cycles hcyc, Nat.mod_eq_of_lt hroom, advanced_eq_settled]

/-! ## A list of pieces -/

/-- The cycles of a list of pieces. -/
def cyclesOf (xs : List U32) : ℕ := (xs.map BitVec.toNat).sum

/-- How often the 32-bit sum `cycleAccum + cycles` wraps over a list of pieces. -/
def wraps (div : ℕ) : ℕ → List U32 → ℕ
  | _, [] => 0
  | accum, x :: xs =>
      (accum + x.toNat) / 2 ^ 32 + wraps div ((accum + x.toNat) % 2 ^ 32 % div) xs

/-- The cycles that are counted: all of them but `2^32` for each wrap. -/
def counted (div accum : ℕ) (xs : List U32) : ℕ :=
  accum + cyclesOf xs - 2 ^ 32 * wraps div accum xs

theorem cyclesOf_cons (x : U32) (xs : List U32) : cyclesOf (x :: xs) = x.toNat + cyclesOf xs := by
  rw [cyclesOf, List.map_cons, List.sum_cons, ← cyclesOf]

theorem cyclesOf_append (xs ys : List U32) : cyclesOf (xs ++ ys) = cyclesOf xs + cyclesOf ys := by
  rw [cyclesOf, List.map_append, List.sum_append, ← cyclesOf, ← cyclesOf]

/-- No more is lost than was there. -/
theorem wraps_le (div : ℕ) (xs : List U32) :
    ∀ accum, 2 ^ 32 * wraps div accum xs ≤ accum + cyclesOf xs := by
  induction xs with
  | nil => exact fun accum => Nat.zero_le _
  | cons x xs ih =>
      intro accum
      have hrest := ih ((accum + x.toNat) % 2 ^ 32 % div)
      have hmod := Nat.mod_le ((accum + x.toNat) % 2 ^ 32) div
      rw [wraps, cyclesOf_cons]
      omega

theorem counted_cons (div accum : ℕ) (x : U32) (xs : List U32) :
    counted div accum (x :: xs)
      = (accum + x.toNat) % 2 ^ 32 / div * div
        + counted div ((accum + x.toNat) % 2 ^ 32 % div) xs := by
  have hrest := wraps_le div xs ((accum + x.toNat) % 2 ^ 32 % div)
  have hsplit := Nat.div_add_mod' ((accum + x.toNat) % 2 ^ 32) div
  rw [counted, counted, wraps, cyclesOf_cons]
  omega

/-- **The pieces, one after another**, in every case. -/
theorem foldl_tick (xs : List U32) : ∀ c : Cpu β,
    c.cycleAccum.toNat < c.cyclesPerTbTick.toNat → (∀ x ∈ xs, x.toNat ≤ 0x3F000000) →
    xs.foldl tick c = c.settled (counted c.cyclesPerTbTick.toNat c.cycleAccum.toNat xs) := by
  induction xs with
  | nil =>
      intro c hacc _
      exact (advanced_zero c hacc).symm
  | cons x xs ih =>
      intro c hacc hxs
      have hpos : 0 < c.cyclesPerTbTick.toNat := Nat.lt_of_le_of_lt (Nat.zero_le _) hacc
      obtain ⟨hx, hrest⟩ := List.forall_mem_cons.mp hxs
      rw [List.foldl_cons, tick_eq_settled c hacc x hx,
        ih _ (by rw [settled_cycleAccum_toNat c hpos]; exact Nat.mod_lt _ hpos) hrest,
        settled_cycleAccum_toNat c hpos, settled_cyclesPerTbTick, settled_settled c hpos,
        counted_cons]

/-- A list in two parts: the second starts from the remainder the first leaves. -/
theorem counted_append {div : ℕ} (hpos : 0 < div) (ys xs : List U32) :
    ∀ accum, accum < div →
      counted div accum (xs ++ ys)
        = counted div accum xs / div * div + counted div (counted div accum xs % div) ys := by
  induction xs with
  | nil =>
      intro accum hacc
      have hnil : counted div accum [] = accum := rfl
      rw [hnil, Nat.div_eq_of_lt hacc, Nat.mod_eq_of_lt hacc, Nat.zero_mul, Nat.zero_add,
        List.nil_append]
  | cons x xs ih =>
      intro accum _
      rw [List.cons_append, counted_cons, ih _ (Nat.mod_lt _ hpos), counted_cons,
        Nat.add_comm (_ * div) (counted div _ xs), Nat.add_mul_mod_self_right,
        Nat.add_mul_div_right _ _ hpos]
      ring

/-- A part of the list wraps no more often than the whole. -/
theorem wraps_append_le (div : ℕ) (ys xs : List U32) :
    ∀ accum, wraps div accum xs ≤ wraps div accum (xs ++ ys) := by
  induction xs with
  | nil => exact fun accum => Nat.zero_le _
  | cons x xs ih =>
      intro accum
      rw [List.cons_append, wraps, wraps]
      exact Nat.add_le_add_left (ih _) _

/-- The ticks counted so far are not taken back. -/
theorem counted_div_mono {div : ℕ} (hpos : 0 < div) {accum : ℕ} (hacc : accum < div)
    (xs ys : List U32) :
    counted div accum xs / div ≤ counted div accum (xs ++ ys) / div := by
  rw [counted_append hpos ys xs accum hacc, Nat.add_comm, Nat.add_mul_div_right _ _ hpos]
  exact Nat.le_add_left _ _

/-- Pieces of up to a chunk do not wrap the sum where the divisor leaves them room. -/
theorem wraps_eq_zero {div : ℕ} (hpos : 0 < div) (hfits : div ≤ 0xC1000000) (xs : List U32) :
    ∀ accum, accum < div → (∀ x ∈ xs, x.toNat ≤ 0x3F000000) → wraps div accum xs = 0 := by
  induction xs with
  | nil => exact fun accum _ _ => rfl
  | cons x xs ih =>
      intro accum hacc hxs
      obtain ⟨hx, hrest⟩ := List.forall_mem_cons.mp hxs
      rw [wraps, ih _ (Nat.mod_lt _ hpos) hrest, Nat.div_eq_of_lt (by omega)]

/-- Where no sum wraps, the pieces are the closed form. -/
theorem foldl_tick_of_wraps (c : Cpu β) (hacc : c.cycleAccum.toNat < c.cyclesPerTbTick.toNat)
    {xs : List U32} (hxs : ∀ x ∈ xs, x.toNat ≤ 0x3F000000)
    (hnone : wraps c.cyclesPerTbTick.toNat c.cycleAccum.toNat xs = 0) :
    xs.foldl tick c = c.advanced (cyclesOf xs) := by
  rw [foldl_tick xs c hacc hxs, counted, hnone, Nat.mul_zero, Nat.sub_zero, advanced_eq_settled]

/-! ## The chunks -/

/-- The pieces `clockAdvanceCycles` hands to `tick`. -/
def chunks (cycles : ℕ) : List U32 :=
  List.replicate (cycles / 0x3F000000) 0x3F000000#32
    ++ if cycles % 0x3F000000 = 0 then [] else [BitVec.ofNat 32 (cycles % 0x3F000000)]

theorem chunks_of_le {n : ℕ} (hpos : 0 < n) (hle : n ≤ 0x3F000000) :
    chunks n = [BitVec.ofNat 32 n] := by
  rcases Nat.lt_or_eq_of_le hle with hlt | rfl
  · rw [chunks, Nat.div_eq_of_lt hlt, Nat.mod_eq_of_lt hlt, if_neg (by omega), List.replicate_zero,
      List.nil_append]
  · rw [chunks, Nat.div_self hpos, Nat.mod_self, if_pos rfl, List.append_nil, List.replicate_one]

theorem chunks_of_lt {n : ℕ} (hlt : 0x3F000000 < n) :
    chunks n = 0x3F000000#32 :: chunks (n - 0x3F000000) := by
  have hdiv : n / 0x3F000000 = (n - 0x3F000000) / 0x3F000000 + 1 := by omega
  have hmod : n % 0x3F000000 = (n - 0x3F000000) % 0x3F000000 := by omega
  rw [chunks, hdiv, hmod, List.replicate_succ, List.cons_append, ← chunks]

theorem chunks_le (n : ℕ) : ∀ x ∈ chunks n, x.toNat ≤ 0x3F000000 := by
  intro x hx
  have hmod := Nat.mod_lt n (show 0 < 0x3F000000 by decide)
  rcases List.mem_append.mp hx with hx | hx
  · rw [(List.mem_replicate.mp hx).2]
    decide
  · split at hx
    · cases hx
    · rw [List.mem_singleton.mp hx, BitVec.toNat_ofNat, Nat.mod_eq_of_lt (by omega)]
      omega

theorem cyclesOf_chunks (n : ℕ) : cyclesOf (chunks n) = n := by
  have hsplit := Nat.div_add_mod' n 0x3F000000
  have hmod := Nat.mod_lt n (show 0 < 0x3F000000 by decide)
  have hwhole : cyclesOf (List.replicate (n / 0x3F000000) 0x3F000000#32)
      = n / 0x3F000000 * 0x3F000000 := by
    rw [cyclesOf, List.map_replicate, List.sum_replicate_nat,
      show (0x3F000000#32 : U32).toNat = 0x3F000000 from rfl]
  have hnil : cyclesOf [] = 0 := rfl
  rw [chunks, cyclesOf_append, hwhole]
  by_cases h0 : n % 0x3F000000 = 0
  · rw [if_pos h0]
    omega
  · rw [if_neg h0, cyclesOf_cons, BitVec.toNat_ofNat, Nat.mod_eq_of_lt (b := 2 ^ 32) (by omega)]
    omega

/-- The loop hands the chunks to `tick` one after another. -/
theorem clockAdvanceLoop_eq (fuel : ℕ) : ∀ (cycles : U64) (c : Cpu β),
    cycles.toNat ≤ fuel → clockAdvanceLoop fuel cycles c = (chunks cycles.toNat).foldl tick c := by
  induction fuel with
  | zero =>
      intro cycles c hf
      have h0 : cycles.toNat = 0 := by omega
      rw [h0]
      rfl
  | succ fuel ih =>
      intro cycles c hf
      have hchunk : kClockChunk.toNat = 0x3F000000 := rfl
      unfold clockAdvanceLoop
      by_cases h0 : cycles = 0#64
      · rw [if_pos h0, h0]
        rfl
      rw [if_neg h0]
      have hne := BitVec.toNat_pos_of_ne_zero h0
      by_cases hbig : kClockChunk < cycles
      · have hlt := BitVec.lt_def.mp hbig
        have hsub : (cycles - kClockChunk).toNat = cycles.toNat - 0x3F000000 :=
          BitVec.toNat_sub_of_le (BitVec.le_of_lt hbig)
        have hk : kClockChunk.setWidth 32 = 0x3F000000#32 := rfl
        simp only [if_pos hbig]
        rw [ih _ _ (by omega), hsub, hk, chunks_of_lt (n := cycles.toNat) (by omega),
          List.foldl_cons]
      · -- the last chunk empties the count
        have hle := BitVec.lt_def.not.mp hbig
        have hlast : BitVec.ofNat 32 cycles.toNat = cycles.setWidth 32 := rfl
        simp only [if_neg hbig]
        rw [ih _ _ (by rw [BitVec.sub_self]; exact Nat.zero_le _), BitVec.sub_self,
          chunks_of_le hne (by omega), List.foldl_cons, hlast]
        rfl

theorem clockAdvanceCycles_eq_foldl (c : Cpu β) (cycles : U64) :
    c.clockAdvanceCycles cycles = (chunks cycles.toNat).foldl tick c :=
  clockAdvanceLoop_eq cycles.toNat cycles c (le_refl _)

/-- **`clockAdvanceCycles` is the closed form**, where there is room for a chunk. -/
theorem clockAdvanceCycles_eq (c : Cpu β) (h : ClockOk c) (cycles : U64) :
    c.clockAdvanceCycles cycles = c.advanced cycles.toNat := by
  have hpos : 0 < c.cyclesPerTbTick.toNat := Nat.lt_of_le_of_lt (Nat.zero_le _) h.accum
  rw [clockAdvanceCycles_eq_foldl, foldl_tick_of_wraps c h.accum (chunks_le _)
    (wraps_eq_zero hpos h.fits _ _ h.accum (chunks_le _)), cyclesOf_chunks]

end Cpu

end OpenPowerMac
