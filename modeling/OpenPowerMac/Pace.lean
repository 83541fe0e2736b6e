/-
The idle skip and the batch size: `napSkipSlow` and `batchSteps`
(`machine/include/opm/pace.hpp`), against the loop they stand in for.

Both answer "how many steps may pass before anything outside the processor
could matter" as the least of three counts: the caller's budget, the
decrementer's own deadline, and the nearest device deadline converted from
timebase to steps. The answer is exact when the one-at-a-time loop, which
services the devices after every step, would have found nothing to do before
the last of those steps.

It is not exact in every state. The decrementer's count subtracts the cycles
already in `cycleAccum`; the device's does not, so its floor can be one
timebase tick late. `stepsToTick` is the count that subtracts them: the answer
is exact precisely when it does not pass it (nor, for a decrementer that is
already negative, the step on which it comes round again). That is so where
`tick`'s 32-bit sum does not wrap on the way. `SkipFits` is the condition in every
state: the cycles a wrap leaves uncounted are left out of it too, and the one
advance of the skip must lose as many of them as the single steps.
-/
import OpenPowerMac.Clock

set_option autoImplicit false

namespace OpenPowerMac

namespace Cpu

variable {β : Type}

/-! ## The source -/

/-- An enabled interrupt is already waiting. -/
def asyncWaiting (c : Cpu β) : Bool :=
  c.st.msr &&& msr.EE != 0#32 && (c.smiPending || c.extIrqLine || c.decPending || c.pmPending)

/-- `insnCycles + extraCycles`. -/
def cyclesPerStep (c : Cpu β) : U32 := c.insnCycles + c.extraCycles

/-- The budget clamped by the decrementer and by the device deadline `dueTb`:
the common middle of `napSkipSlow` and `batchSteps`. -/
def stepClamp (c : Cpu β) (dueTb budget : U64) : U64 :=
  let dec := c.stepsUntilDec c.cyclesPerStep
  let n := if dec < budget then dec else budget
  let cycles : U64 := (dueTb - c.st.tb) * c.cyclesPerTbTick.setWidth 64
  let s := cycles / c.cyclesPerStep.setWidth 64
  if s < n then s else n

/-- `napSkipSlow`: the steps charged without running any, and the processor
afterwards. `dueTb` is `SawtoothBus::deviceDueTb()`. -/
def napSkipSlow (c : Cpu β) (dueTb budget : U64) : U64 × Cpu β :=
  if budget < 2#64 then (0#64, c)
  else if c.asyncWaiting then (0#64, c)
  else if c.cyclesPerStep = 0#32 then (0#64, c)
  else if c.st.tb < dueTb then
    let n := c.stepClamp dueTb budget
    if n < 2#64 then (0#64, c)
    else
      let c' := c.clockAdvance n c.cyclesPerStep
      (n, { c' with napSkipped := c'.napSkipped + n })
  else (0#64, c)

/-- `batchSteps`: the instructions a batch may run. -/
def batchSteps (c : Cpu β) (dueTb budget : U64) : U64 :=
  if budget < 2#64 then budget
  else if c.cyclesPerStep = 0#32 then budget
  else if dueTb ≤ c.st.tb then 1#64
  else
    let n := c.stepClamp dueTb budget
    if n = 0#64 then 1#64 else n

/-! ## The loop it stands in for -/

/-- What one step charges to the clock, outside a batch. -/
def chargeStep (c : Cpu β) : Cpu β := c.clockAdvanceCycles (c.cyclesPerStep.setWidth 64)

/-- `k` steps' worth of charging, one at a time. -/
def chargeSteps (k : ℕ) (c : Cpu β) : Cpu β := chargeStep^[k] c

/-- One trip of the one-at-a-time loop: the step is charged and the devices are
serviced at the timebase it leaves. -/
def stepAndService {δ : Type} (service : U64 → δ → δ) (p : Cpu β × δ) : Cpu β × δ :=
  (p.1.chargeStep, service p.1.chargeStep.st.tb p.2)

/-- `n` steps are exact against the device deadline `due`: before the last of
them neither the deadline nor the decrementer has been reached, so servicing
the devices only afterwards leaves the processor and the devices as the
one-at-a-time loop does. A device that is not due does nothing when serviced. -/
structure ExactAgainst (c : Cpu β) (due : U64) (n : ℕ) : Prop where
  early : ∀ k < n,
    (c.chargeSteps k).st.tb < due ∧ (c.chargeSteps k).decPending = c.decPending
  serviced : ∀ (δ : Type) (service : U64 → δ → δ) (d : δ),
    (∀ t d, t < due → service t d = d) →
    (stepAndService service)^[n] (c, d)
      = (c.chargeSteps n, service (c.chargeSteps n).st.tb d)

/-- The whole demand on the two sizing functions: an answer of two or more is
exact, and the skip leaves the clock where that many single steps would. -/
def SkipExact (c : Cpu β) (due budget : U64) : Prop :=
  (2#64 ≤ (c.napSkipSlow due budget).1 →
      ExactAgainst c due (c.napSkipSlow due budget).1.toNat
      ∧ (c.napSkipSlow due budget).2
          = { c.chargeSteps (c.napSkipSlow due budget).1.toNat with
              napSkipped := c.napSkipped + (c.napSkipSlow due budget).1 })
  ∧ (2#64 ≤ c.batchSteps due budget → ExactAgainst c due (c.batchSteps due budget).toNat)

/-- The first step on which `ticks` timebase ticks have passed, the cycles
already in `cycleAccum` counted. -/
def stepsToTick (c : Cpu β) (ticks : ℕ) : ℕ :=
  (ticks * c.cyclesPerTbTick.toNat - c.cycleAccum.toNat + c.cyclesPerStep.toNat - 1)
    / c.cyclesPerStep.toNat

/-- The least of the three counts does not pass the step on which the timebase
reaches the deadline, nor the one on which the decrementer passes below zero
(when its request is not already up). -/
def ClampFits (c : Cpu β) (due budget : U64) : Prop :=
  (c.stepClamp due budget).toNat ≤ c.stepsToTick (due.toNat - c.st.tb.toNat)
  ∧ (c.decPending = true
      ∨ (c.stepClamp due budget).toNat ≤ c.stepsToTick (c.st.dec.toNat + 1))

instance (c : Cpu β) (due budget : U64) : Decidable (ClampFits c due budget) :=
  inferInstanceAs (Decidable (_ ∧ _))

/-- The pieces that `k` steps hand to `tick`. -/
def stepPieces (c : Cpu β) (k : ℕ) : List U32 :=
  (List.replicate k (chunks c.cyclesPerStep.toNat)).flatten

/-- The cycles in hand after `k` steps, the accumulator's own among them. -/
def stepCycles (c : Cpu β) (k : ℕ) : ℕ :=
  counted c.cyclesPerTbTick.toNat c.cycleAccum.toNat (c.stepPieces k)

/-- `tick`'s sum wraps this often over `k` steps. -/
def stepWraps (c : Cpu β) (k : ℕ) : ℕ :=
  wraps c.cyclesPerTbTick.toNat c.cycleAccum.toNat (c.stepPieces k)

/-- `tick`'s sum wraps this often over one advance by `k` steps' cycles. -/
def advanceWraps (c : Cpu β) (k : ℕ) : ℕ :=
  wraps c.cyclesPerTbTick.toNat c.cycleAccum.toNat (chunks (k * c.cyclesPerStep.toNat))

/-- An answer of two or more: before its last step the ticks in hand are short of
the deadline and have not passed the decrementer's count (when its request is not
already up), and where the skip answers too, its one advance counts what the
steps count. -/
def SkipFits (c : Cpu β) (due budget : U64) : Prop :=
  2 ≤ (c.stepClamp due budget).toNat →
    c.stepCycles ((c.stepClamp due budget).toNat - 1) / c.cyclesPerTbTick.toNat
        < due.toNat - c.st.tb.toNat
    ∧ (c.decPending = true
        ∨ c.stepCycles ((c.stepClamp due budget).toNat - 1) / c.cyclesPerTbTick.toNat
            ≤ c.st.dec.toNat)
    ∧ (c.asyncWaiting = false →
        c.advanceWraps (c.stepClamp due budget).toNat
          = c.stepWraps (c.stepClamp due budget).toNat)

/-- No 32-bit sum wraps within the answered steps, nor in the one advance. -/
structure SumsStay (c : Cpu β) (due budget : U64) : Prop where
  steps : c.stepWraps (c.stepClamp due budget).toNat = 0
  advance : c.advanceWraps (c.stepClamp due budget).toNat = 0

/-! ## Steps and ticks -/

/-- Outside a batch, with nothing owed, `charge` is `chargeStep`. -/
theorem charge_eq_chargeStep (c : Cpu β) (hbatch : c.batching = false)
    (hpend : c.pendCycles = 0#64) : c.charge c.cyclesPerStep = c.chargeStep := by
  have hrest : ({ c with pendCycles := 0#64 } : Cpu β) = c := by rw [← hpend]
  have hsync : c.charge c.cyclesPerStep
      = ({ c with pendCycles := c.cyclesPerStep.setWidth 64 } : Cpu β).syncClock := by
    unfold charge
    simp only [hpend, hbatch, BitVec.zero_add, Bool.false_eq_true, if_false]
  rw [hsync, chargeStep]
  by_cases hz : c.cyclesPerStep.setWidth 64 = 0#64
  · rw [hz, hrest]
    exact if_pos hpend
  · calc ({ c with pendCycles := c.cyclesPerStep.setWidth 64 } : Cpu β).syncClock
        = ({ c with pendCycles := 0#64 } : Cpu β).clockAdvanceCycles
            (c.cyclesPerStep.setWidth 64) := if_neg hz
      _ = c.clockAdvanceCycles (c.cyclesPerStep.setWidth 64) := by rw [hrest]

theorem stepPieces_succ (c : Cpu β) (k : ℕ) :
    c.stepPieces (k + 1) = c.stepPieces k ++ chunks c.cyclesPerStep.toNat := by
  rw [stepPieces, List.replicate_succ', List.flatten_append, List.flatten_singleton, ← stepPieces]

theorem stepPieces_add (c : Cpu β) (j k : ℕ) :
    c.stepPieces (j + k) = c.stepPieces j ++ c.stepPieces k := by
  rw [stepPieces, List.replicate_add, List.flatten_append, ← stepPieces, ← stepPieces]

theorem stepPieces_le (c : Cpu β) (k : ℕ) : ∀ x ∈ c.stepPieces k, x.toNat ≤ 0x3F000000 := by
  intro x hx
  obtain ⟨xs, hxs, hx⟩ := List.mem_flatten.mp hx
  rw [(List.mem_replicate.mp hxs).2] at hx
  exact chunks_le _ x hx

theorem cyclesOf_stepPieces (c : Cpu β) (k : ℕ) :
    cyclesOf (c.stepPieces k) = k * c.cyclesPerStep.toNat := by
  induction k with
  | zero => rw [Nat.zero_mul]; rfl
  | succ k ih => rw [stepPieces_succ, cyclesOf_append, ih, cyclesOf_chunks, Nat.succ_mul]

theorem stepCycles_eq (c : Cpu β) (k : ℕ) :
    c.stepCycles k
      = c.cycleAccum.toNat + k * c.cyclesPerStep.toNat - 2 ^ 32 * c.stepWraps k := by
  rw [stepCycles, counted, cyclesOf_stepPieces, stepWraps]

theorem stepCycles_le (c : Cpu β) (k : ℕ) :
    c.stepCycles k ≤ c.cycleAccum.toNat + k * c.cyclesPerStep.toNat := by
  rw [stepCycles_eq]
  exact Nat.sub_le _ _

/-- The ticks in hand do not go down from step to step. -/
theorem stepCycles_div_mono (c : Cpu β) (hacc : c.cycleAccum.toNat < c.cyclesPerTbTick.toNat)
    {j k : ℕ} (hjk : j ≤ k) :
    c.stepCycles j / c.cyclesPerTbTick.toNat ≤ c.stepCycles k / c.cyclesPerTbTick.toNat := by
  obtain ⟨m, rfl⟩ := Nat.exists_eq_add_of_le hjk
  rw [stepCycles, stepCycles, stepPieces_add]
  exact counted_div_mono (Nat.lt_of_le_of_lt (Nat.zero_le _) hacc) hacc _ _

theorem setWidth64_toNat (x : U32) : (x.setWidth 64).toNat = x.toNat := by
  rw [BitVec.toNat_setWidth, Nat.mod_eq_of_lt (by have := x.isLt; omega)]

/-- **Single steps** settle the cycles in hand. -/
theorem chargeSteps_eq (c : Cpu β) (hacc : c.cycleAccum.toNat < c.cyclesPerTbTick.toNat) (k : ℕ) :
    c.chargeSteps k = c.settled (c.stepCycles k) := by
  have hfold : c.chargeSteps k = (c.stepPieces k).foldl tick c := by
    induction k with
    | zero => rfl
    | succ k ih =>
        have hcps : (c.settled (c.stepCycles k)).cyclesPerStep = c.cyclesPerStep := rfl
        have hat := foldl_tick _ c hacc (c.stepPieces_le k)
        rw [chargeSteps, Function.iterate_succ_apply', ← chargeSteps, ih, stepPieces_succ,
          List.foldl_append, hat, ← stepCycles, chargeStep, hcps, clockAdvanceCycles_eq_foldl,
          setWidth64_toNat]
  rw [hfold, foldl_tick _ c hacc (c.stepPieces_le k), stepCycles]

/-- One advance by as many cycles settles those it counts. -/
theorem clockAdvance_eq (c : Cpu β) (hacc : c.cycleAccum.toNat < c.cyclesPerTbTick.toNat) {n : U64}
    (hfit : n.toNat * c.cyclesPerStep.toNat < 2 ^ 64) :
    c.clockAdvance n c.cyclesPerStep
      = c.settled (c.cycleAccum.toNat + n.toNat * c.cyclesPerStep.toNat
          - 2 ^ 32 * c.advanceWraps n.toNat) := by
  rw [clockAdvance, clockAdvanceCycles_eq_foldl, foldl_tick _ c hacc (chunks_le _), counted,
    BitVec.toNat_mul, setWidth64_toNat, Nat.mod_eq_of_lt hfit, cyclesOf_chunks, advanceWraps]

/-- `stepsToTick` is the first step with that many ticks. -/
theorem lt_stepsToTick_iff (c : Cpu β) (hacc : c.cycleAccum.toNat < c.cyclesPerTbTick.toNat)
    (hcps : c.cyclesPerStep ≠ 0#32)
    {ticks : ℕ} (ht : 0 < ticks) (k : ℕ) :
    k < c.stepsToTick ticks ↔ c.ticksIn (k * c.cyclesPerStep.toNat) < ticks := by
  have hpos : 0 < c.cyclesPerTbTick.toNat := Nat.lt_of_le_of_lt (Nat.zero_le _) hacc
  have hc := BitVec.toNat_pos_of_ne_zero hcps
  have hbig : c.cyclesPerTbTick.toNat ≤ ticks * c.cyclesPerTbTick.toNat :=
    Nat.le_mul_of_pos_left _ ht
  rw [stepsToTick, Nat.lt_div_iff_mul_lt hc, ticksIn, Nat.div_lt_iff_lt_mul hpos]
  omega

/-- **`stepsUntilDec` subtracts the remainder**: while the decrementer is not
negative it is exactly the step on which the count passes below zero. -/
theorem stepsUntilDec_eq (c : Cpu β) (hacc : c.cycleAccum.toNat < c.cyclesPerTbTick.toNat)
    (hcps : c.cyclesPerStep ≠ 0#32) (hdec : c.st.dec.toNat < 2 ^ 31) :
    (c.stepsUntilDec c.cyclesPerStep).toNat = c.stepsToTick (c.st.dec.toNat + 1) := by
  have hdiv : c.cyclesPerTbTick ≠ 0#32 := by
    intro h0
    rw [h0] at hacc
    exact absurd hacc (Nat.not_lt_zero _)
  -- the product of the source is taken in 64 bits, where two 32-bit factors do not wrap
  have hbound : (c.st.dec.toNat + 1) * c.cyclesPerTbTick.toNat ≤ 2 ^ 31 * 2 ^ 32 :=
    Nat.mul_le_mul (by omega) c.cyclesPerTbTick.isLt.le
  have hbig : c.cyclesPerTbTick.toNat ≤ (c.st.dec.toNat + 1) * c.cyclesPerTbTick.toNat :=
    Nat.le_mul_of_pos_left _ (by omega)
  have hw : ∀ x : U32, (x.setWidth 64).toNat = x.toNat := by
    intro x
    rw [BitVec.toNat_setWidth, Nat.mod_eq_of_lt (by have := x.isLt; omega)]
  have hneed : (c.st.dec.setWidth 64 + 1#64).toNat = c.st.dec.toNat + 1 := by
    rw [BitVec.toNat_add, hw, show (1#64).toNat = 1 from rfl, Nat.mod_eq_of_lt (by omega)]
  have htotal : ((c.st.dec.setWidth 64 + 1#64) * c.cyclesPerTbTick.setWidth 64).toNat
      = (c.st.dec.toNat + 1) * c.cyclesPerTbTick.toNat := by
    rw [BitVec.toNat_mul, hneed, hw, Nat.mod_eq_of_lt (by omega)]
  have hlt : c.cycleAccum.setWidth 64
      < (c.st.dec.setWidth 64 + 1#64) * c.cyclesPerTbTick.setWidth 64 := by
    rw [BitVec.lt_def, htotal, hw]
    omega
  have hc32 := c.cyclesPerStep.isLt
  have hcpos := BitVec.toNat_pos_of_ne_zero hcps
  have hmsb : c.st.dec &&& 0x80000000#32 = 0#32 := (msb_clear_iff _).mpr hdec
  have hsub : ((c.st.dec.setWidth 64 + 1#64) * c.cyclesPerTbTick.setWidth 64
      - c.cycleAccum.setWidth 64).toNat
      = (c.st.dec.toNat + 1) * c.cyclesPerTbTick.toNat - c.cycleAccum.toNat := by
    rw [BitVec.toNat_sub_of_le (BitVec.le_of_lt hlt), htotal, hw]
  have hnum : ((c.st.dec.setWidth 64 + 1#64) * c.cyclesPerTbTick.setWidth 64
      - c.cycleAccum.setWidth 64 + c.cyclesPerStep.setWidth 64 - 1#64).toNat
      = (c.st.dec.toNat + 1) * c.cyclesPerTbTick.toNat - c.cycleAccum.toNat
        + c.cyclesPerStep.toNat - 1 := by
    have hadd : ((c.st.dec.setWidth 64 + 1#64) * c.cyclesPerTbTick.setWidth 64
        - c.cycleAccum.setWidth 64 + c.cyclesPerStep.setWidth 64).toNat
        = (c.st.dec.toNat + 1) * c.cyclesPerTbTick.toNat - c.cycleAccum.toNat
          + c.cyclesPerStep.toNat := by
      rw [BitVec.toNat_add, hsub, hw, Nat.mod_eq_of_lt (by omega)]
    rw [BitVec.toNat_sub_of_le (by rw [BitVec.le_def, hadd, show (1#64).toNat = 1 from rfl]; omega),
      hadd, show (1#64).toNat = 1 from rfl]
  unfold stepsUntilDec
  rw [if_neg (by simp [hmsb, hcps, hdiv])]
  simp only [if_pos hlt]
  rw [BitVec.toNat_udiv, hnum, hw, stepsToTick]

/-- The clamping comparison is a minimum. -/
theorem toNat_ite_lt (a b : U64) : (if a < b then a else b).toNat = min a.toNat b.toNat := by
  by_cases h : a < b
  · rw [if_pos h, Nat.min_eq_left (Nat.le_of_lt (BitVec.lt_def.mp h))]
  · rw [if_neg h, Nat.min_eq_right (Nat.le_of_not_lt (BitVec.lt_def.not.mp h))]

/-- The clamp is the least of the device's count, the decrementer's and the budget. -/
theorem stepClamp_toNat (c : Cpu β) (due budget : U64) :
    (c.stepClamp due budget).toNat
      = min (((due - c.st.tb) * c.cyclesPerTbTick.setWidth 64).toNat / c.cyclesPerStep.toNat)
          (min (c.stepsUntilDec c.cyclesPerStep).toNat budget.toNat) := by
  unfold stepClamp
  simp only [toNat_ite_lt, BitVec.toNat_udiv, setWidth64_toNat]

/-- The clamp's cycles stay below the deadline's: the product may wrap, and a
wrapped product only makes the answer smaller. -/
theorem stepClamp_cycles_le (c : Cpu β) {due budget : U64} (hdue : c.st.tb < due) :
    (c.stepClamp due budget).toNat * c.cyclesPerStep.toNat
        ≤ (due.toNat - c.st.tb.toNat) * c.cyclesPerTbTick.toNat
      ∧ (c.stepClamp due budget).toNat * c.cyclesPerStep.toNat < 2 ^ 64 := by
  have hspan : (due - c.st.tb).toNat = due.toNat - c.st.tb.toNat :=
    BitVec.toNat_sub_of_le (BitVec.le_of_lt hdue)
  have hfloor : (c.stepClamp due budget).toNat
      ≤ ((due - c.st.tb) * c.cyclesPerTbTick.setWidth 64).toNat / c.cyclesPerStep.toNat := by
    rw [stepClamp_toNat]
    exact Nat.min_le_left _ _
  have hmul : (c.stepClamp due budget).toNat * c.cyclesPerStep.toNat
      ≤ ((due - c.st.tb) * c.cyclesPerTbTick.setWidth 64).toNat :=
    le_trans (Nat.mul_le_mul_right _ hfloor) (Nat.div_mul_le_self _ _)
  refine ⟨le_trans hmul ?_, Nat.lt_of_le_of_lt hmul (BitVec.isLt _)⟩
  rw [BitVec.toNat_mul, setWidth64_toNat, hspan]
  exact Nat.mod_le _ _

/-- Within the clamp the timebase does not jump over the deadline: the step that
reaches it lands on it. -/
theorem ticks_le_span (c : Cpu β) (hacc : c.cycleAccum.toNat < c.cyclesPerTbTick.toNat)
    {due budget : U64} (hdue : c.st.tb < due) {k : ℕ} (hk : k ≤ (c.stepClamp due budget).toNat) :
    c.stepCycles k / c.cyclesPerTbTick.toNat ≤ due.toNat - c.st.tb.toNat := by
  have hpos : 0 < c.cyclesPerTbTick.toNat := Nat.lt_of_le_of_lt (Nat.zero_le _) hacc
  have hcyc : k * c.cyclesPerStep.toNat
      ≤ (due.toNat - c.st.tb.toNat) * c.cyclesPerTbTick.toNat :=
    le_trans (Nat.mul_le_mul_right _ hk) (stepClamp_cycles_le c hdue).1
  have hle := c.stepCycles_le k
  apply Nat.le_of_lt_succ
  rw [Nat.div_lt_iff_lt_mul hpos, Nat.succ_mul]
  omega

/-- Before the deadline, the timebase after `k` steps is below it exactly when
too few ticks have passed. -/
theorem chargeSteps_tb_lt_iff (c : Cpu β) (hacc : c.cycleAccum.toNat < c.cyclesPerTbTick.toNat)
    {due budget : U64} (hdue : c.st.tb < due) {k : ℕ} (hk : k ≤ (c.stepClamp due budget).toNat) :
    (c.chargeSteps k).st.tb < due
      ↔ c.stepCycles k / c.cyclesPerTbTick.toNat < due.toNat - c.st.tb.toNat := by
  have hle := ticks_le_span c hacc hdue hk
  have hlt := BitVec.lt_def.mp hdue
  have hd := due.isLt
  rw [chargeSteps_eq c hacc, settled_tb, BitVec.lt_def, BitVec.toNat_add, BitVec.toNat_ofNat,
    Nat.mod_eq_of_lt (a := c.stepCycles k / _) (by omega), Nat.mod_eq_of_lt (by omega)]
  omega

/-- The request is as it was exactly when it was up, or the ticks in hand have not
passed the count. -/
theorem chargeSteps_decPending_iff (c : Cpu β)
    (hacc : c.cycleAccum.toNat < c.cyclesPerTbTick.toNat) (k : ℕ) :
    (c.chargeSteps k).decPending = c.decPending
      ↔ c.decPending = true ∨ c.stepCycles k / c.cyclesPerTbTick.toNat ≤ c.st.dec.toNat := by
  rw [chargeSteps_eq c hacc, settled_decPending]
  cases c.decPending
  · rw [Bool.false_or, decide_eq_false_iff_not, Nat.not_lt]
    exact ⟨Or.inr, fun h => h.resolve_left Bool.false_ne_true⟩
  · exact iff_of_true rfl (Or.inl rfl)

/-- While the decrementer is not negative its own count is one of the three, so
only the device's floor is left to ask about. -/
theorem clampFits_iff_of_dec_nonneg (c : Cpu β)
    (hacc : c.cycleAccum.toNat < c.cyclesPerTbTick.toNat) (hcps : c.cyclesPerStep ≠ 0#32)
    (due budget : U64) (hdec : c.st.dec.toNat < 2 ^ 31) :
    ClampFits c due budget
      ↔ (c.stepClamp due budget).toNat ≤ c.stepsToTick (due.toNat - c.st.tb.toNat) := by
  have hclamp : (c.stepClamp due budget).toNat ≤ c.stepsToTick (c.st.dec.toNat + 1) := by
    rw [← stepsUntilDec_eq c hacc hcps hdec, stepClamp_toNat]
    exact le_trans (Nat.min_le_right _ _) (Nat.min_le_left _ _)
  exact ⟨fun hfits => hfits.1, fun hfloor => ⟨hfloor, Or.inr hclamp⟩⟩

/-- The quiet steps of the clamp, as a condition on the last of them. -/
theorem early_iff (c : Cpu β) (hacc : c.cycleAccum.toNat < c.cyclesPerTbTick.toNat)
    {due budget : U64} (hdue : c.st.tb < due) (hn : 0 < (c.stepClamp due budget).toNat) :
    (∀ k < (c.stepClamp due budget).toNat,
        (c.chargeSteps k).st.tb < due ∧ (c.chargeSteps k).decPending = c.decPending)
      ↔ c.stepCycles ((c.stepClamp due budget).toNat - 1) / c.cyclesPerTbTick.toNat
            < due.toNat - c.st.tb.toNat
        ∧ (c.decPending = true
            ∨ c.stepCycles ((c.stepClamp due budget).toNat - 1) / c.cyclesPerTbTick.toNat
                ≤ c.st.dec.toNat) := by
  have htb : ∀ k < (c.stepClamp due budget).toNat, ((c.chargeSteps k).st.tb < due
      ↔ c.stepCycles k / c.cyclesPerTbTick.toNat < due.toNat - c.st.tb.toNat) :=
    fun k hk => chargeSteps_tb_lt_iff c hacc hdue (Nat.le_of_lt hk)
  have hdec := chargeSteps_decPending_iff c hacc
  have hlast : (c.stepClamp due budget).toNat - 1 < (c.stepClamp due budget).toNat := by omega
  constructor
  · intro hearly
    exact ⟨(htb _ hlast).mp (hearly _ hlast).1, (hdec _).mp (hearly _ hlast).2⟩
  · rintro ⟨hdev, hneg⟩ k hk
    have hmono := stepCycles_div_mono c hacc (Nat.le_pred_of_lt hk)
    refine ⟨(htb k hk).mpr (Nat.lt_of_le_of_lt hmono hdev), (hdec k).mpr ?_⟩
    exact hneg.imp_right fun hp => hmono.trans hp

/-- Quiet steps may be serviced once, after the last of them. -/
theorem stepAndService_iterate {δ : Type} (service : U64 → δ → δ) (c : Cpu β) (d : δ)
    (due : U64) (hidle : ∀ t d, t < due → service t d = d) (n : ℕ)
    (hearly : ∀ k < n, (c.chargeSteps k).st.tb < due) :
    ∀ k, k < n → (stepAndService service)^[k] (c, d) = (c.chargeSteps k, d) := by
  intro k
  induction k with
  | zero => intro _; rfl
  | succ k ih =>
      intro hk
      have hstep : (c.chargeSteps k).chargeStep = c.chargeSteps (k + 1) := by
        rw [chargeSteps, chargeSteps, Function.iterate_succ_apply']
      rw [Function.iterate_succ_apply', ih (by omega), stepAndService, hstep,
        hidle _ d (hearly _ hk)]

/-- Quiet steps are exact steps: the devices have nothing to do before the last. -/
theorem exactAgainst_of_early (c : Cpu β) (due : U64) {n : ℕ} (hn : 0 < n)
    (hearly : ∀ k < n,
      (c.chargeSteps k).st.tb < due ∧ (c.chargeSteps k).decPending = c.decPending) :
    ExactAgainst c due n where
  early := hearly
  serviced := by
    intro δ service d hidle
    obtain ⟨m, rfl⟩ : ∃ m, n = m + 1 := ⟨n - 1, by omega⟩
    have hlast : (c.chargeSteps m).chargeStep = c.chargeSteps (m + 1) := by
      rw [chargeSteps, chargeSteps, Function.iterate_succ_apply']
    rw [Function.iterate_succ_apply',
      stepAndService_iterate service c d due hidle (m + 1) (fun k hk => (hearly k hk).1) m
        (Nat.lt_succ_self m), stepAndService, hlast]

/-- **The skip's one advance** is the single steps' many exactly when as many
cycles go uncounted in both: below `2^64` ticks the clock tells two sums apart. -/
theorem clockAdvance_stepClamp_iff (c : Cpu β)
    (hacc : c.cycleAccum.toNat < c.cyclesPerTbTick.toNat) {due budget : U64}
    (hdue : c.st.tb < due) :
    c.clockAdvance (c.stepClamp due budget) c.cyclesPerStep
        = c.chargeSteps (c.stepClamp due budget).toNat
      ↔ c.advanceWraps (c.stepClamp due budget).toNat
        = c.stepWraps (c.stepClamp due budget).toNat := by
  have hpos : 0 < c.cyclesPerTbTick.toNat := Nat.lt_of_le_of_lt (Nat.zero_le _) hacc
  have hfit : (c.stepClamp due budget).toNat * c.cyclesPerStep.toNat < 2 ^ 64 :=
    (stepClamp_cycles_le c hdue).2
  have hticks := ticksIn_le c hacc ((c.stepClamp due budget).toNat * c.cyclesPerStep.toNat)
  have hadv := wraps_le c.cyclesPerTbTick.toNat
    (chunks ((c.stepClamp due budget).toNat * c.cyclesPerStep.toNat)) c.cycleAccum.toNat
  have hstep := wraps_le c.cyclesPerTbTick.toNat
    (c.stepPieces (c.stepClamp due budget).toNat) c.cycleAccum.toNat
  rw [cyclesOf_chunks, ← advanceWraps] at hadv
  rw [cyclesOf_stepPieces, ← stepWraps] at hstep
  rw [ticksIn] at hticks
  rw [clockAdvance_eq c hacc hfit, chargeSteps_eq c hacc, stepCycles_eq]
  constructor
  · intro hsame
    have hsums := settled_inj c hpos
      (Nat.lt_of_le_of_lt ((Nat.div_le_div_right (Nat.sub_le _ _)).trans hticks) hfit)
      (Nat.lt_of_le_of_lt ((Nat.div_le_div_right (Nat.sub_le _ _)).trans hticks) hfit) hsame
    omega
  · intro hsame
    rw [hsame]

theorem napSkipSlow_eq (c : Cpu β) {due budget : U64} (hdue : c.st.tb < due)
    (hn : 2#64 ≤ (c.napSkipSlow due budget).1) :
    c.asyncWaiting = false ∧ c.napSkipSlow due budget
      = (c.stepClamp due budget,
          { c.clockAdvance (c.stepClamp due budget) c.cyclesPerStep with
            napSkipped := (c.clockAdvance (c.stepClamp due budget) c.cyclesPerStep).napSkipped
              + c.stepClamp due budget }) := by
  have hzero : ¬ 2#64 ≤ 0#64 := by decide
  unfold napSkipSlow at hn ⊢
  by_cases hb : budget < 2#64
  · rw [if_pos hb] at hn
    exact absurd hn hzero
  · rw [if_neg hb] at hn ⊢
    by_cases hw : c.asyncWaiting
    · rw [if_pos hw] at hn
      exact absurd hn hzero
    · rw [if_neg hw] at hn ⊢
      by_cases hz : c.cyclesPerStep = 0#32
      · rw [if_pos hz] at hn
        exact absurd hn hzero
      · rw [if_neg hz, if_pos hdue] at hn ⊢
        by_cases hs : c.stepClamp due budget < 2#64
        · simp only [if_pos hs] at hn
          exact absurd hn hzero
        · simp only [if_neg hs]
          exact ⟨Bool.eq_false_iff.mpr hw, trivial⟩

/-- A clamp of two or more has a budget of two or more behind it. -/
theorem budget_of_two_le (c : Cpu β) {due budget : U64}
    (hn : 2 ≤ (c.stepClamp due budget).toNat) : ¬ budget < 2#64 := by
  have hle : (c.stepClamp due budget).toNat ≤ budget.toNat := by
    rw [stepClamp_toNat]
    exact le_trans (Nat.min_le_right _ _) (Nat.min_le_right _ _)
  rw [BitVec.lt_def, show (2#64).toNat = 2 from rfl]
  omega

/-- The clamp is what `napSkipSlow` answers from two on, with no interrupt waiting. -/
theorem napSkipSlow_of_two_le (c : Cpu β) {due budget : U64} (hcps : c.cyclesPerStep ≠ 0#32)
    (hdue : c.st.tb < due) (hquiet : c.asyncWaiting = false)
    (hn : 2 ≤ (c.stepClamp due budget).toNat) :
    (c.napSkipSlow due budget).1 = c.stepClamp due budget := by
  have hs : ¬ c.stepClamp due budget < 2#64 := by
    rw [BitVec.lt_def, show (2#64).toNat = 2 from rfl]
    omega
  have hw : ¬ c.asyncWaiting = true := Bool.eq_false_iff.mp hquiet
  unfold napSkipSlow
  rw [if_neg (budget_of_two_le c hn), if_neg hw, if_neg hcps, if_pos hdue]
  simp only [if_neg hs]

theorem batchSteps_eq (c : Cpu β) {due budget : U64} (hcps : c.cyclesPerStep ≠ 0#32)
    (hdue : c.st.tb < due) (hn : 2#64 ≤ c.batchSteps due budget) :
    c.batchSteps due budget = c.stepClamp due budget := by
  have hone : ¬ 2#64 ≤ 1#64 := by decide
  have hnle : ¬ due ≤ c.st.tb := by rw [BitVec.not_le]; exact hdue
  unfold batchSteps at hn ⊢
  by_cases hb : budget < 2#64
  · rw [if_pos hb] at hn
    exact absurd hb (by rw [BitVec.not_lt]; exact hn)
  · rw [if_neg hb, if_neg hcps, if_neg hnle] at hn ⊢
    by_cases hz : c.stepClamp due budget = 0#64
    · simp only [if_pos hz] at hn
      exact absurd hn hone
    · simp only [if_neg hz]

/-- The clamp is what `batchSteps` answers from two on. -/
theorem batchSteps_of_two_le (c : Cpu β) {due budget : U64} (hcps : c.cyclesPerStep ≠ 0#32)
    (hdue : c.st.tb < due) (hn : 2 ≤ (c.stepClamp due budget).toNat) :
    c.batchSteps due budget = c.stepClamp due budget := by
  have hnle : ¬ due ≤ c.st.tb := by rw [BitVec.not_le]; exact hdue
  have hz : c.stepClamp due budget ≠ 0#64 := by
    intro h0
    rw [h0] at hn
    exact absurd hn (by decide)
  unfold batchSteps
  rw [if_neg (budget_of_two_le c hn), if_neg hcps, if_neg hnle]
  simp only [if_neg hz]

theorem skipExact_of_skipFits (c : Cpu β) (hacc : c.cycleAccum.toNat < c.cyclesPerTbTick.toNat)
    (hcps : c.cyclesPerStep ≠ 0#32) {due budget : U64} (hdue : c.st.tb < due)
    (hfits : SkipFits c due budget) : SkipExact c due budget := by
  have htwo : (2#64).toNat = 2 := rfl
  have hexact : 2 ≤ (c.stepClamp due budget).toNat →
      ExactAgainst c due (c.stepClamp due budget).toNat := fun hn =>
    exactAgainst_of_early c due (by omega) ((early_iff c hacc hdue (by omega)).mpr
      ⟨(hfits hn).1, (hfits hn).2.1⟩)
  refine ⟨fun hn => ?_, fun hn => ?_⟩
  · obtain ⟨hquiet, heq⟩ := napSkipSlow_eq c hdue hn
    rw [heq] at hn ⊢
    have hn' : 2 ≤ (c.stepClamp due budget).toNat := BitVec.le_def.mp hn
    have hsame := (clockAdvance_stepClamp_iff c hacc hdue).mpr ((hfits hn').2.2 hquiet)
    have hskipped : (c.chargeSteps (c.stepClamp due budget).toNat).napSkipped = c.napSkipped := by
      rw [chargeSteps_eq c hacc]
      rfl
    rw [hsame, hskipped]
    exact ⟨hexact hn', rfl⟩
  · have heq := batchSteps_eq c hcps hdue hn
    rw [heq] at hn ⊢
    exact hexact (BitVec.le_def.mp hn)

theorem skipFits_of_skipExact (c : Cpu β) (hacc : c.cycleAccum.toNat < c.cyclesPerTbTick.toNat)
    (hcps : c.cyclesPerStep ≠ 0#32) {due budget : U64} (hdue : c.st.tb < due)
    (hexact : SkipExact c due budget) : SkipFits c due budget := by
  intro hn
  have hn' : 2#64 ≤ c.stepClamp due budget := BitVec.le_def.mpr hn
  have hbatch := hexact.2
  rw [batchSteps_of_two_le c hcps hdue hn] at hbatch
  obtain ⟨hdev, hneg⟩ := (early_iff c hacc hdue (by omega)).mp (hbatch hn').early
  refine ⟨hdev, hneg, fun hquiet => (clockAdvance_stepClamp_iff c hacc hdue).mp ?_⟩
  have hfirst := napSkipSlow_of_two_le c hcps hdue hquiet hn
  have hans : 2#64 ≤ (c.napSkipSlow due budget).1 := by rw [hfirst]; exact hn'
  have hstate := (hexact.1 hans).2
  rw [(napSkipSlow_eq c hdue hans).2] at hstate
  -- but for the count of steps skipped, which neither side's clock reads
  have hclear := congrArg (fun d : Cpu β => { d with napSkipped := c.napSkipped }) hstate
  have hcount : ∀ n, ({ c.settled n with napSkipped := c.napSkipped } : Cpu β) = c.settled n :=
    fun n => rfl
  rw [clockAdvance_eq c hacc (stepClamp_cycles_le c hdue).2, chargeSteps_eq c hacc] at hclear ⊢
  exact (hcount _).symm.trans (hclear.trans (hcount _))

/-- A divisor with room above it for a chunk is one where no sum wraps. -/
theorem ClockOk.sumsStay {c : Cpu β} (h : ClockOk c) (due budget : U64) :
    SumsStay c due budget := by
  have hpos : 0 < c.cyclesPerTbTick.toNat := Nat.lt_of_le_of_lt (Nat.zero_le _) h.accum
  exact ⟨wraps_eq_zero hpos h.fits _ _ h.accum (c.stepPieces_le _),
    wraps_eq_zero hpos h.fits _ _ h.accum (chunks_le _)⟩

/-- Where no sum wraps, the steps come within both deadlines exactly when the clamp
does not pass the step that reaches either. -/
theorem skipFits_iff_of_sumsStay (c : Cpu β)
    (hacc : c.cycleAccum.toNat < c.cyclesPerTbTick.toNat) (hcps : c.cyclesPerStep ≠ 0#32)
    {due budget : U64} (hdue : c.st.tb < due) (hstay : SumsStay c due budget) :
    SkipFits c due budget ↔ ClampFits c due budget := by
  have hspan : 0 < due.toNat - c.st.tb.toNat := by
    have := BitVec.lt_def.mp hdue
    omega
  obtain ⟨n, hn⟩ : ∃ n, (c.stepClamp due budget).toNat = n := ⟨_, rfl⟩
  have hcycles : 2 ≤ n → c.stepCycles (n - 1) / c.cyclesPerTbTick.toNat
      = c.ticksIn ((n - 1) * c.cyclesPerStep.toNat) := by
    intro h2
    have hsteps := hstay.steps
    have hle := wraps_append_le c.cyclesPerTbTick.toNat (chunks c.cyclesPerStep.toNat)
      (c.stepPieces (n - 1)) c.cycleAccum.toNat
    rw [hn, stepWraps] at hsteps
    rw [← stepPieces_succ, Nat.sub_add_cancel (by omega), hsteps, ← stepWraps] at hle
    rw [stepCycles_eq, Nat.le_zero.mp hle, Nat.mul_zero, Nat.sub_zero, ticksIn]
  have hreach : ∀ ticks, 0 < ticks →
      (n ≤ c.stepsToTick ticks
        ↔ (2 ≤ n → c.ticksIn ((n - 1) * c.cyclesPerStep.toNat) < ticks)) := by
    intro ticks ht
    have hlast := lt_stepsToTick_iff c hacc hcps ht (n - 1)
    have hfirst : 0 < c.stepsToTick ticks := by
      rw [lt_stepsToTick_iff c hacc hcps ht, Nat.zero_mul, ticksIn_zero c hacc]
      exact ht
    rw [← hlast]
    omega
  rw [SkipFits, ClampFits, hn, hreach _ hspan, hreach _ (Nat.succ_pos _)]
  constructor
  · intro hfits
    refine ⟨fun h2 => hcycles h2 ▸ (hfits h2).1, or_iff_not_imp_left.mpr fun hup h2 => ?_⟩
    exact Nat.lt_succ_of_le (hcycles h2 ▸ ((hfits h2).2.1.resolve_left hup))
  · rintro ⟨hdev, hneg⟩ h2
    rw [hcycles h2]
    refine ⟨hdev h2, hneg.imp_right fun hp => Nat.le_of_lt_succ (hp h2), fun _ => ?_⟩
    rw [← hn, hstay.steps, hstay.advance]

/-- **When the idle skip and the batch are exact**: in every state just where the
cycles in hand before the last step fall short of both deadlines, and so, where no
sum wraps, just where the answer passes neither. -/
theorem skip_exact_iff (c : Cpu β) (hacc : c.cycleAccum < c.cyclesPerTbTick)
    (hcps : c.cyclesPerStep ≠ 0#32) (due budget : U64) (hdue : c.st.tb < due) :
    (SkipExact c due budget ↔ SkipFits c due budget)
    ∧ (SumsStay c due budget → (SkipFits c due budget ↔ ClampFits c due budget)) := by
  have hlt := BitVec.lt_def.mp hacc
  exact ⟨⟨skipFits_of_skipExact c hlt hcps hdue, skipExact_of_skipFits c hlt hcps hdue⟩,
    skipFits_iff_of_sumsStay c hlt hcps hdue⟩

/-- One cycle in the accumulator, three cycles a step and a decrementer that asks
sooner than the device: a batch of twenty-eight steps. -/
theorem skip_exact_iff_remainder :
    SkipExact ({ bus := (), cycleAccum := 1#32, insnCycles := 3#32, st := { dec := 20#32 } } :
      Cpu Unit) 40#64 100#64 := by
  have h := skip_exact_iff
    ({ bus := (), cycleAccum := 1#32, insnCycles := 3#32, st := { dec := 20#32 } } : Cpu Unit)
    (by decide) (by decide) 40#64 100#64 (by decide)
  exact h.1.mpr ((h.2 ⟨by decide, by decide⟩).mpr (by decide))

/-- Three cycles already in the accumulator: the deadline is one step away and
the batch still runs four. -/
theorem skip_not_exact :
    ¬ SkipExact ({ bus := (), cycleAccum := 3#32 } : Cpu Unit) 1#64 4#64 := by
  intro hexact
  have hfits := skipFits_of_skipExact _ (by decide) (by decide) (by decide) hexact
  exact absurd (hfits (by decide)).1 (by decide)

end Cpu

end OpenPowerMac
