/-
The DDC slave of the Rage 128 and its master.

The master is anything that drives the two lines through the line registers as the bus has it:
data moves while the clock is low, and eight bits are followed by a clock for the
acknowledgement. After a byte has gone out the slave takes that clock for the first of the next
byte, so from the second byte on the bits come too early (`served_iff`).
-/
import OpenPowerMac.R128
import Mathlib.Logic.Relation

set_option autoImplicit false

namespace OpenPowerMac

namespace Ddc

/-- The lines as the slave has last seen them. -/
def bus (d : Ddc) (scl sda : Bool) : Ddc := { d with lastScl := scl, lastSda := sda }

@[simp] theorem bus_bus (d : Ddc) (a b a' b' : Bool) : (d.bus a b).bus a' b' = d.bus a' b' := rfl

@[simp] theorem bus_sdaOut (d : Ddc) (a b : Bool) : (d.bus a b).sdaOut = d.sdaOut := rfl

theorem rise_bus (d : Ddc) (a b sda : Bool) : (d.bus a b).rise sda = (d.rise sda).bus a b := by
  rcases d with ⟨state, shift, bits, addr, ptr, sdaOut, scl, lastSda⟩
  by_cases h8 : bits + 1 = 8 <;> by_cases hread : addr &&& 1#8 = 0#8 <;> cases state <;>
    simp only [rise, bus, shiftIn, h8, hread, ne_eq, not_true_eq_false, not_false_eq_true,
      if_true, if_false] <;> rfl

theorem fall_bus (d : Ddc) (a b : Bool) : (d.bus a b).fall = d.fall.bus a b := by
  rcases d with ⟨state, shift, bits, addr, ptr, sdaOut, scl, lastSda⟩
  cases state <;> rfl

/-! The four things that a line can do. -/

theorem step_low {d : Ddc} (h : d.lastScl = false) (sda : Bool) :
    d.step false sda = d.bus false sda := by
  simp [step, bus, h]

theorem step_rise {d : Ddc} (h : d.lastScl = false) (sda : Bool) :
    d.step true sda = (d.rise sda).bus true sda := by
  simp [step, bus, h]

theorem step_fall {d : Ddc} (h : d.lastScl = true) (sda : Bool) :
    d.step false sda = d.fall.bus false sda := by
  simp [step, bus, h]

theorem step_high {d : Ddc} (h : d.lastScl = true) :
    d.step true d.lastSda = d.bus true d.lastSda := by
  simp [step, bus, h]

theorem step_start {d : Ddc} (h : d.lastScl = true) (hsda : d.lastSda = true) :
    d.step true false =
      { d with state := .addr, shift := 0#8, bits := 0, sdaOut := true }.bus true false := by
  simp [step, bus, h, hsda]

end Ddc

namespace R128Cell

/-! ## The lines -/

/-- The clock and the data as the master has them. -/
def lines (c : R128Cell) : Bool × Bool := (c.masterHigh kDdcSclBit, c.masterHigh kDdcSdaBit)

/-- A write to one of the line registers, after which the lines are so. -/
def Drives (l : Bool × Bool) (c c' : R128Cell) : Prop :=
  ∃ off v len, (off &&& ~~~3#32 = kGpioA0 ∨ off &&& ~~~3#32 = kGpioA8)
    ∧ c' = c.write off v len ∧ c'.lines = l

/-- Any number of them. -/
def Held (p : Bool × Bool → Prop) : R128Cell → R128Cell → Prop :=
  Relation.ReflTransGen fun c c' => ∃ l, p l ∧ Drives l c c'

/-- The slave has seen the lines as they are. -/
def Synced (c : R128Cell) : Prop := c.ddc.lastScl = c.lines.1 ∧ c.ddc.lastSda = c.lines.2

/-- What the master reads of the data line. -/
def sample (c : R128Cell) : Bool := decide (c.regRead (kGpioA4 >>> 2) &&& kDdcSdaBit ≠ 0#32)

theorem write_gpio (c : R128Cell) {off : U32} (v : U32) (len : ℕ)
    (h : off &&& ~~~3#32 = kGpioA0 ∨ off &&& ~~~3#32 = kGpioA8) :
    c.write off v len = c.gpioWrite (off &&& ~~~3#32) (c.native off v len) := by
  have hne : off &&& ~~~3#32 ≠ kClockCntlIndex := by
    rcases h with h | h <;> rw [h] <;> decide
  simp only [write]
  rw [if_neg hne, if_pos h]

theorem gpioWrite_ddc (c : R128Cell) (aligned native : U32) :
    (c.gpioWrite aligned native).ddc =
      c.ddc.step (c.gpioWrite aligned native).lines.1 (c.gpioWrite aligned native).lines.2 := by
  simp only [gpioWrite]
  split <;> rfl

/-- The slave steps on the lines as they become. -/
theorem Drives.ddc {l : Bool × Bool} {c c' : R128Cell} (h : Drives l c c') :
    c'.ddc = c.ddc.step l.1 l.2 := by
  rcases h with ⟨off, v, len, hoff, rfl, rfl⟩
  rw [c.write_gpio v len hoff]
  exact gpioWrite_ddc c _ _

theorem step_last (d : Ddc) (scl sda : Bool) :
    (d.step scl sda).lastScl = scl ∧ (d.step scl sda).lastSda = sda := by
  unfold Ddc.step
  split
  case isTrue h => split <;> exact ⟨h.1.trans h.2.1.symm, rfl⟩
  case isFalse => exact ⟨rfl, rfl⟩

theorem Drives.synced {l : Bool × Bool} {c c' : R128Cell} (h : Drives l c c') : c'.Synced := by
  have hddc := h.ddc
  rcases h with ⟨off, v, len, hoff, hc, rfl⟩
  unfold Synced
  rw [hddc]
  exact step_last _ _ _

theorem pin_bit (v : U32) (p q : Bool) :
    decide (((v &&& 0xFF3FFFFF#32) ||| (if p then 0x00400000#32 else 0#32)
      ||| (if q then 0x00800000#32 else 0#32)) &&& 0x00400000#32 ≠ 0#32) = p := by
  have hbit (x : U32) : (x &&& 0x00400000#32 ≠ 0#32) ↔ x.getLsbD 22 = true := by
    rw [show (0x00400000#32 : U32) = BitVec.twoPow 32 22 from rfl, BitVec.and_twoPow]
    split
    case isTrue h => exact iff_of_true (by decide) h
    case isFalse h => exact iff_of_false (fun h0 => h0 rfl) h
  rw [Bool.eq_iff_iff, decide_eq_true_iff, hbit]
  cases p <;> cases q <;> simp

theorem sample_eq (c : R128Cell) : c.sample = (c.lines.2 && c.ddc.sdaOut) := by
  have hread : c.regRead (kGpioA4 >>> 2) = (c.rd kGpioA4 &&& 0xFF3FFFFF#32)
      ||| (if c.pin 0x00400000#32 then 0x00400000#32 else 0#32)
      ||| (if c.pin 0x00800000#32 then 0x00800000#32 else 0#32) := by
    simp [regRead, kGpioA4, kGuiStat, kPm4Stat, kConfigAper0Base, kConfigAper1Base,
      kConfigReg1Base, kConfigRegAperSize, kConfigMemsize, kConfigAperSize, kGenIntStatus,
      kClockCntlIndex, kClockCntlData, kGpioA0]
  rw [sample, hread, show kDdcSdaBit = 0x00400000#32 from rfl, pin_bit]
  rfl

/-! ## The master -/

/-- One clock with the data line at a level: it is low as long as the master likes, then high
with the data held, where the line is read, and low again. -/
def Clock (b : Bool) (c : R128Cell) (got : Bool) (c' : R128Cell) : Prop :=
  ∃ c₁ c₂ c₃ c₄ x, Held (fun l => l.1 = false) c c₁ ∧ Drives (true, b) c₁ c₂
    ∧ Held (fun l => l = (true, b)) c₂ c₃ ∧ got = c₃.sample
    ∧ Held (fun l => l = (true, b)) c₃ c₄ ∧ Drives (false, x) c₄ c'

/-- From both lines high: the data falls, and then the clock. -/
def StartsHigh (c c' : R128Cell) : Prop :=
  ∃ c₁ c₂ c₃ x, Held (fun l => l = (true, true)) c c₁ ∧ Drives (true, false) c₁ c₂
    ∧ Held (fun l => l = (true, false)) c₂ c₃ ∧ Drives (false, x) c₃ c'

/-- A start on a bus that is at rest. -/
def Start (c c' : R128Cell) : Prop := c.Synced ∧ c.lines = (true, true) ∧ StartsHigh c c'

/-- A start inside a transaction: both lines are let go first. -/
def Restart (c c' : R128Cell) : Prop :=
  ∃ c₁ c₂, Held (fun l => l.1 = false) c c₁ ∧ Drives (true, true) c₁ c₂ ∧ StartsHigh c₂ c'

/-- Clocks one after the other: the levels, and what is read. -/
inductive Clocks : List (Bool × Bool) → R128Cell → R128Cell → Prop
  | nil (c : R128Cell) : Clocks [] c c
  | cons {b got : Bool} {l : List (Bool × Bool)} {c c₁ c' : R128Cell} :
    Clock b c got c₁ → Clocks l c₁ c' → Clocks ((b, got) :: l) c c'

/-- The bits of a byte in the order of the bus. -/
def bitsOf (v : U8) : List Bool := (List.range 8).map fun i => v.getLsbD (7 - i)

/-- The byte that bits make in that order. -/
def byteOf (l : List Bool) : U8 := l.foldl (fun v b => (v <<< 1) ||| (if b then 1#8 else 0#8)) 0#8

/-- A byte out: its bits, and then the acknowledgement is read. -/
def SendByte (v : U8) (c : R128Cell) (ack : Bool) (c' : R128Cell) : Prop :=
  ∃ l c₁, l.map Prod.fst = bitsOf v ∧ Clocks l c c₁ ∧ Clock true c₁ ack c'

/-- A byte in: eight bits are read, and then acknowledged or not. -/
def FetchByte (nack : Bool) (c : R128Cell) (v : U8) (c' : R128Cell) : Prop :=
  ∃ l c₁ x, l.map Prod.fst = List.replicate 8 true ∧ v = byteOf (l.map Prod.snd)
    ∧ Clocks l c c₁ ∧ Clock nack c₁ x c'

/-- Bytes in, all acknowledged but the last. -/
inductive FetchBytes : List U8 → R128Cell → R128Cell → Prop
  | nil (c : R128Cell) : FetchBytes [] c c
  | cons {v : U8} {vs : List U8} {c c₁ c' : R128Cell} :
    FetchByte (decide (vs = [])) c v c₁ → FetchBytes vs c₁ c' → FetchBytes (v :: vs) c c'

/-- The transaction: the offset is written, and bytes are read. -/
structure Transaction (p : U8) (acks : List Bool) (got : List U8) (c c' : R128Cell) : Prop where
  steps : ∃ c₁ c₂ c₃ c₄ c₅ a₁ a₂ a₃, Start c c₁ ∧ SendByte 0xA0#8 c₁ a₁ c₂ ∧ SendByte p c₂ a₂ c₃
    ∧ Restart c₃ c₄ ∧ SendByte 0xA1#8 c₄ a₃ c₅ ∧ FetchBytes got c₅ c' ∧ acks = [a₁, a₂, a₃]

/-! ## A clock for the slave -/

theorem held_low {c c' : R128Cell} (h : Held (fun l => l.1 = false) c c')
    (hscl : c.ddc.lastScl = false) : ∃ x, c'.ddc = c.ddc.bus false x := by
  induction h with
  | refl => exact ⟨c.ddc.lastSda, by rw [← hscl]; rfl⟩
  | @tail c₁ c₂ _ hstep ih =>
    rcases ih with ⟨x, hx⟩
    rcases hstep with ⟨⟨scl, sda⟩, hl, hdrive⟩
    have hl : scl = false := hl
    subst hl
    refine ⟨sda, ?_⟩
    rw [hdrive.ddc, hx, Ddc.step_low rfl, Ddc.bus_bus]

/-- The lines are held: nothing happens. -/
theorem held_high {b : Bool} {c c' : R128Cell} (h : Held (fun l => l = (true, b)) c c')
    (hscl : c.ddc.lastScl = true) (hsda : c.ddc.lastSda = b) : c'.ddc = c.ddc := by
  have hself : c.ddc = c.ddc.bus true b := by rw [← hscl, ← hsda]; rfl
  induction h with
  | refl => rfl
  | @tail c₁ c₂ _ hstep ih =>
    rcases hstep with ⟨l, rfl, hdrive⟩
    have hstep := Ddc.step_high hscl
    rw [hsda] at hstep
    rw [hdrive.ddc, ih]
    exact hstep.trans hself.symm

/-- What the data line is read as while it is held. -/
theorem held_sample {b : Bool} {c c' : R128Cell} (h : Held (fun l => l = (true, b)) c c')
    (hlines : c.lines = (true, b)) : c'.lines = (true, b) := by
  induction h with
  | refl => exact hlines
  | tail _ hstep _ =>
    rcases hstep with ⟨l, rfl, off, v, len, -, -, hl⟩
    exact hl

theorem Clock.ddc {b got : Bool} {c c' : R128Cell} (h : Clock b c got c')
    (hscl : c.ddc.lastScl = false) :
    (∃ x, c'.ddc = (c.ddc.rise b).fall.bus false x) ∧ got = (b && (c.ddc.rise b).sdaOut) := by
  rcases h with ⟨c₁, c₂, c₃, c₄, x, hlow, hrise, hheld, rfl, hheld', hfall⟩
  rcases held_low hlow hscl with ⟨y, hy⟩
  have h₂ : c₂.ddc = (c.ddc.rise b).bus true b := by
    rw [hrise.ddc, hy, Ddc.step_rise rfl, Ddc.rise_bus, Ddc.bus_bus]
  have hl₂ : c₂.lines = (true, b) := by
    rcases hrise with ⟨off, v, len, -, -, hl⟩
    exact hl
  have h₃ : c₃.ddc = c₂.ddc := held_high hheld (by rw [h₂]; rfl) (by rw [h₂]; rfl)
  have h₄ : c₄.ddc = c₃.ddc := by
    apply held_high hheld' <;> rw [h₃, h₂] <;> rfl
  constructor
  · refine ⟨x, ?_⟩
    rw [hfall.ddc, h₄, h₃, h₂, Ddc.step_fall rfl, Ddc.fall_bus, Ddc.bus_bus]
  · rw [sample_eq, held_sample hheld hl₂, h₃, h₂]
    rfl

theorem StartsHigh.ddc {c c' : R128Cell} (h : StartsHigh c c') (hscl : c.ddc.lastScl = true)
    (hsda : c.ddc.lastSda = true) :
    ∃ x, c'.ddc =
      { c.ddc with state := .addr, shift := 0#8, bits := 0, sdaOut := true }.bus false x := by
  rcases h with ⟨c₁, c₂, c₃, x, hheld, hstart, hheld', hfall⟩
  have h₁ : c₁.ddc = c.ddc := held_high hheld hscl hsda
  have h₂ : c₂.ddc =
      { c.ddc with state := .addr, shift := 0#8, bits := 0, sdaOut := true }.bus true false := by
    rw [hstart.ddc, h₁]
    exact Ddc.step_start hscl hsda
  have h₃ : c₃.ddc = c₂.ddc := held_high hheld' (by rw [h₂]; rfl) (by rw [h₂]; rfl)
  refine ⟨x, ?_⟩
  rw [hfall.ddc, h₃, h₂, Ddc.step_fall rfl, Ddc.fall_bus, Ddc.bus_bus]
  rfl

theorem Start.ddc {c c' : R128Cell} (h : Start c c') :
    ∃ x, c'.ddc =
      { c.ddc with state := .addr, shift := 0#8, bits := 0, sdaOut := true }.bus false x := by
  rcases h with ⟨⟨hscl, hsda⟩, hlines, hstart⟩
  rw [hlines] at hscl hsda
  exact hstart.ddc hscl hsda

/-- The clock that lets the lines go counts as one for the slave, which the start undoes. -/
theorem Restart.ddc {c c' : R128Cell} (h : Restart c c') (hscl : c.ddc.lastScl = false) :
    ∃ x, c'.ddc =
      { c.ddc.rise true with state := .addr, shift := 0#8, bits := 0, sdaOut := true }.bus
        false x := by
  rcases h with ⟨c₁, c₂, hlow, hrise, hstart⟩
  rcases held_low hlow hscl with ⟨y, hy⟩
  have h₂ : c₂.ddc = (c.ddc.rise true).bus true true := by
    rw [hrise.ddc, hy, Ddc.step_rise rfl, Ddc.rise_bus, Ddc.bus_bus]
  rcases hstart.ddc (by rw [h₂]; rfl) (by rw [h₂]; rfl) with ⟨x, hx⟩
  refine ⟨x, ?_⟩
  rw [hx, h₂]
  rfl

end R128Cell

/-! ## Bytes for the slave -/

namespace Ddc

/-- A whole clock, from low to low. -/
def clk (d : Ddc) (b : Bool) : Ddc := (d.rise b).fall

theorem clk_bus (d : Ddc) (x y b : Bool) : (d.bus x y).clk b = (d.clk b).bus x y := by
  rw [clk, rise_bus, fall_bus, clk]

/-- A bit comes behind the others. -/
def shl (v : U8) (b : Bool) : U8 := (v <<< 1) ||| (if b then 1#8 else 0#8)

theorem shiftIn_released {d : Ddc} (h : d.sdaOut = true) (b : Bool) :
    d.shiftIn b = shl d.shift b := by
  simp [shiftIn, shl, h]

/-- A bit of a byte from the host that is not its last. -/
theorem clk_bit {d : Ddc} (hstate : d.state = .addr ∨ d.state = .data) (hout : d.sdaOut = true)
    (hbits : d.bits + 1 ≠ 8) (b : Bool) :
    d.clk b = { d with shift := shl d.shift b, bits := d.bits + 1 } := by
  have hshift := shiftIn_released hout b
  rcases hstate with h | h
  · simp only [clk, rise, fall, h, if_neg hbits, hshift, ← hout]
  · simp only [clk, rise, fall, h, if_neg hbits, hshift, ← hout]

/-- Bits of a byte from the host that end before it does. -/
theorem clks_bits {d : Ddc} (hstate : d.state = .addr ∨ d.state = .data) (hout : d.sdaOut = true)
    (l : List Bool) (hl : d.bits + l.length < 8) :
    l.foldl clk d = { d with shift := l.foldl shl d.shift, bits := d.bits + l.length } := by
  induction l generalizing d with
  | nil => rfl
  | cons b l ih =>
    rw [List.length_cons] at hl
    rw [List.foldl_cons, clk_bit hstate hout (by omega)]
    have hlen : d.bits + 1 + l.length = d.bits + (l.length + 1) := by omega
    refine (ih (d := { d with shift := shl d.shift b, bits := d.bits + 1 }) hstate hout
      (hlen.trans_lt hl)).trans ?_
    rw [List.foldl_cons, List.length_cons, ← hlen]

/-- The last bit of an address. -/
theorem clk_addr {d : Ddc} (hstate : d.state = .addr) (hout : d.sdaOut = true)
    (hbits : d.bits + 1 = 8) (b : Bool) :
    d.clk b = { d with
      shift := shl d.shift b, addr := shl d.shift b, bits := 0
      state := if shl d.shift b &&& 0xFE#8 = 0xA0#8 then .addrAcked else .idle
      sdaOut := decide (¬ shl d.shift b &&& 0xFE#8 = 0xA0#8) } := by
  have hshift := shiftIn_released hout b
  simp only [clk, rise, hstate, if_pos hbits, hshift]
  by_cases h : shl d.shift b &&& 0xFE#8 = 0xA0#8
  · simp [fall, h]
  · simp [fall, h]

/-- The last bit of a byte from the host. -/
theorem clk_data {d : Ddc} (hstate : d.state = .data) (hout : d.sdaOut = true)
    (hbits : d.bits + 1 = 8) (b : Bool) :
    d.clk b = { d with
      shift := shl d.shift b, ptr := shl d.shift b, bits := 0, state := .dataAcked
      sdaOut := false } := by
  have hshift := shiftIn_released hout b
  simp only [clk, rise, fall, hstate, if_pos hbits, hshift]

/-- The acknowledgement of an address: what it is the address of a write for. -/
theorem clk_acked_write {d : Ddc} (hstate : d.state = .addrAcked) (haddr : d.addr &&& 1#8 = 0#8)
    (b : Bool) :
    d.clk b = { d with state := .data, shift := 0#8, bits := 0, sdaOut := true } := by
  simp [clk, rise, fall, hstate, haddr]

theorem clk_acked_read {d : Ddc} (hstate : d.state = .addrAcked) (haddr : d.addr &&& 1#8 ≠ 0#8)
    (b : Bool) :
    d.clk b = { d with
      state := .serve, shift := edidByte d.ptr, bits := 0
      sdaOut := decide (edidByte d.ptr &&& (0x80#8 >>> 0) ≠ 0#8) } := by
  simp only [clk, rise, hstate, if_pos haddr, fall]

theorem shl_bitsOf (v : U8) : ((R128Cell.bitsOf v).take 7).foldl shl 0#8 = v >>> 1
    ∧ shl (v >>> 1) (v.getLsbD 0) = v := by
  revert v
  decide

theorem bitsOf_split (v : U8) :
    R128Cell.bitsOf v = (R128Cell.bitsOf v).take 7 ++ [v.getLsbD 0] := rfl

/-- An address from the host. -/
theorem clks_addr {d : Ddc} (hstate : d.state = .addr) (hout : d.sdaOut = true)
    (hshift : d.shift = 0#8) (hbits : d.bits = 0) (v : U8) :
    (R128Cell.bitsOf v).foldl clk d = { d with
      shift := v, addr := v, state := if v &&& 0xFE#8 = 0xA0#8 then .addrAcked else .idle
      sdaOut := decide (¬ v &&& 0xFE#8 = 0xA0#8) } := by
  have hlen : ((R128Cell.bitsOf v).take 7).length = 7 := rfl
  rcases shl_bitsOf v with ⟨hseven, height⟩
  rw [bitsOf_split, List.foldl_append,
    clks_bits (Or.inl hstate) hout _ (by rw [hlen, hbits]; decide), hshift, hseven, hlen, hbits,
    List.foldl_cons, List.foldl_nil]
  refine (clk_addr (d := { d with shift := v >>> 1, bits := 7 }) hstate hout rfl _).trans ?_
  simp only [height]

theorem clks_data {d : Ddc} (hstate : d.state = .data) (hout : d.sdaOut = true)
    (hshift : d.shift = 0#8) (hbits : d.bits = 0) (v : U8) :
    (R128Cell.bitsOf v).foldl clk d = { d with
      shift := v, ptr := v, state := .dataAcked, sdaOut := false } := by
  have hlen : ((R128Cell.bitsOf v).take 7).length = 7 := rfl
  rcases shl_bitsOf v with ⟨hseven, height⟩
  rw [bitsOf_split, List.foldl_append,
    clks_bits (Or.inr hstate) hout _ (by rw [hlen, hbits]; decide), hshift, hseven, hlen, hbits,
    List.foldl_cons, List.foldl_nil]
  refine (clk_data (d := { d with shift := v >>> 1, bits := 7 }) hstate hout rfl _).trans ?_
  simp only [height]

/-! ## Bytes to the host -/

/-- The line in the `t`th clock after the address: the bits of the first byte, and from then on
one clock released and seven bits for each byte. -/
def stream (p : U8) (t : ℕ) : Bool :=
  if t ≠ 0 ∧ t % 8 = 0 then true
  else (edidByte (p + BitVec.ofNat 8 (t / 8))).getLsbD (7 - t % 8)

/-- The slave is that far. -/
structure Serving (p : U8) (t : ℕ) (d : Ddc) : Prop where
  state : d.state = .serve
  bits : d.bits = t % 8
  shift : d.shift = edidByte (p + BitVec.ofNat 8 (t / 8))
  ptr : d.ptr = p + BitVec.ofNat 8 (t / 8)
  sdaOut : d.sdaOut = stream p t

theorem shift_bit (v : U8) (i : Fin 8) :
    decide (v &&& (0x80#8 >>> i.val) ≠ 0#8) = v.getLsbD (7 - i.val) := by
  revert v i
  decide

theorem Serving.clk {p : U8} {t : ℕ} {d : Ddc} (h : Serving p t d) (b : Bool) :
    Serving p (t + 1) (d.clk b) ∧ (d.rise b).sdaOut = stream p t := by
  rcases h with ⟨hstate, hbits, hshift, hptr, hout⟩
  have ht : t % 8 < 8 := Nat.mod_lt t (by decide)
  by_cases h8 : t % 8 + 1 = 8
  · -- the last bit of a byte: the next clock is its acknowledgement, but not for the slave
    have hmod : (t + 1) % 8 = 0 := by omega
    have hdiv : (t + 1) / 8 = t / 8 + 1 := by omega
    have hrise : d.rise b = { d with bits := 0, state := .served, ptr := d.ptr + 1#8 } := by
      simp only [rise, hstate, hbits, if_pos h8]
    have hptr' : d.ptr + 1#8 = p + BitVec.ofNat 8 ((t + 1) / 8) := by
      rw [hdiv, hptr, BitVec.add_assoc, BitVec.ofNat_add]
    rw [Ddc.clk, hrise]
    refine ⟨⟨rfl, hmod.symm, ?_, hptr', ?_⟩, hout⟩
    · rw [← hptr']
      rfl
    · simp [fall, stream, hmod]
  · have hmod : (t + 1) % 8 = t % 8 + 1 := by omega
    have hdiv : (t + 1) / 8 = t / 8 := by omega
    have hrise : d.rise b = { d with bits := t % 8 + 1 } := by
      simp only [rise, hstate, hbits, if_neg h8]
    rw [Ddc.clk, hrise]
    refine ⟨⟨?_, ?_, ?_, ?_, ?_⟩, hout⟩
    · simp only [fall, hstate]
    · simp only [fall, hstate, hmod]
    · simp only [fall, hstate, hdiv, hshift]
    · simp only [fall, hstate, hdiv, hptr]
    · simp only [fall, hstate, stream, hdiv, hmod, hshift]
      rw [if_neg (by omega)]
      exact shift_bit _ ⟨t % 8 + 1, by omega⟩

end Ddc

namespace R128Cell

open Ddc

/-! ## Bytes on the bus -/

theorem Clock.clk {b got : Bool} {c c' : R128Cell} (h : Clock b c got c')
    (hscl : c.ddc.lastScl = false) : ∃ x, c'.ddc = (c.ddc.clk b).bus false x :=
  (h.ddc hscl).1

theorem Clocks.clk {l : List (Bool × Bool)} {c c' : R128Cell} (h : Clocks l c c')
    (hscl : c.ddc.lastScl = false) :
    ∃ x, c'.ddc = ((l.map Prod.fst).foldl Ddc.clk c.ddc).bus false x := by
  have hfold (l : List Bool) (d : Ddc) (x y : Bool) :
      l.foldl Ddc.clk (d.bus x y) = (l.foldl Ddc.clk d).bus x y := by
    induction l generalizing d with
    | nil => rfl
    | cons b l ih => rw [List.foldl_cons, clk_bus, ih, List.foldl_cons]
  induction h with
  | nil c => exact ⟨c.ddc.lastSda, by rw [← hscl]; rfl⟩
  | cons hclock _ ih =>
    rcases hclock.clk hscl with ⟨x, hx⟩
    rcases ih (by rw [hx]; rfl) with ⟨y, hy⟩
    refine ⟨y, ?_⟩
    rw [hy, hx, hfold, bus_bus]
    rfl

/-- A byte out to a slave that listens for an address. -/
theorem SendByte.addr {v : U8} {ack : Bool} {c c' : R128Cell} (h : SendByte v c ack c')
    (hscl : c.ddc.lastScl = false) (hstate : c.ddc.state = .addr) (hout : c.ddc.sdaOut = true)
    (hshift : c.ddc.shift = 0#8) (hbits : c.ddc.bits = 0) :
    (∃ x, c'.ddc = ({ c.ddc with
      shift := v, addr := v, state := if v &&& 0xFE#8 = 0xA0#8 then .addrAcked else .idle
      sdaOut := decide (¬ v &&& 0xFE#8 = 0xA0#8) }.clk true).bus false x)
      ∧ ack = decide (¬ v &&& 0xFE#8 = 0xA0#8) := by
  rcases h with ⟨l, c₁, hl, hclocks, hack⟩
  rcases hclocks.clk hscl with ⟨x, hx⟩
  rw [hl, clks_addr hstate hout hshift hbits] at hx
  rcases hack.ddc (by rw [hx]; rfl) with ⟨⟨y, hy⟩, hgot⟩
  constructor
  · refine ⟨y, ?_⟩
    rw [hy, ← Ddc.clk, hx, clk_bus, bus_bus]
  · rw [hgot, hx, rise_bus, Bool.true_and]
    by_cases hv : v &&& 0xFE#8 = 0xA0#8
    · by_cases hread : v &&& 1#8 = 0#8 <;> simp [hv, rise, hread]
    · simp [hv, rise]

/-- The device address for a write: the slave waits for the offset. -/
theorem SendByte.addr_write {ack : Bool} {c c' : R128Cell} (h : SendByte 0xA0#8 c ack c')
    (hscl : c.ddc.lastScl = false) (hstate : c.ddc.state = .addr) (hout : c.ddc.sdaOut = true)
    (hshift : c.ddc.shift = 0#8) (hbits : c.ddc.bits = 0) :
    (c'.ddc.lastScl = false ∧ c'.ddc.state = .data ∧ c'.ddc.sdaOut = true
      ∧ c'.ddc.shift = 0#8 ∧ c'.ddc.bits = 0) ∧ ack = false := by
  rcases h.addr hscl hstate hout hshift hbits with ⟨⟨x, hx⟩, hack⟩
  refine ⟨?_, hack⟩
  rw [hx, clk_acked_write rfl (show (0xA0#8 : U8) &&& 1#8 = 0#8 by decide)]
  exact ⟨rfl, rfl, rfl, rfl, rfl⟩

/-- The offset. -/
theorem SendByte.data {v : U8} {ack : Bool} {c c' : R128Cell} (h : SendByte v c ack c')
    (hscl : c.ddc.lastScl = false) (hstate : c.ddc.state = .data) (hout : c.ddc.sdaOut = true)
    (hshift : c.ddc.shift = 0#8) (hbits : c.ddc.bits = 0) :
    (c'.ddc.lastScl = false ∧ c'.ddc.state = .data ∧ c'.ddc.bits = 0 ∧ c'.ddc.ptr = v)
      ∧ ack = false := by
  rcases h with ⟨l, c₁, hl, hclocks, hack⟩
  rcases hclocks.clk hscl with ⟨x, hx⟩
  rw [hl, clks_data hstate hout hshift hbits] at hx
  rcases hack.ddc (by rw [hx]; rfl) with ⟨⟨y, hy⟩, hgot⟩
  constructor
  · rw [hy, hx, rise_bus, fall_bus]
    exact ⟨rfl, rfl, rfl, rfl⟩
  · rw [hgot, hx, rise_bus]
    rfl

/-- The device address for a read: the slave serves from the offset on. -/
theorem SendByte.addr_read {ack : Bool} {c c' : R128Cell} (h : SendByte 0xA1#8 c ack c')
    (hscl : c.ddc.lastScl = false) (hstate : c.ddc.state = .addr) (hout : c.ddc.sdaOut = true)
    (hshift : c.ddc.shift = 0#8) (hbits : c.ddc.bits = 0) :
    (c'.ddc.lastScl = false ∧ Serving c.ddc.ptr 0 c'.ddc) ∧ ack = false := by
  rcases h.addr hscl hstate hout hshift hbits with ⟨⟨x, hx⟩, hack⟩
  refine ⟨?_, hack⟩
  have hptr : c.ddc.ptr + BitVec.ofNat 8 (0 / 8) = c.ddc.ptr := BitVec.add_zero _
  rw [hx, clk_acked_read rfl (show (0xA1#8 : U8) &&& 1#8 ≠ 0#8 by decide)]
  refine ⟨rfl, rfl, rfl, ?_, hptr.symm, ?_⟩
  · rw [hptr]
    rfl
  · show decide (edidByte c.ddc.ptr &&& (0x80#8 >>> 0) ≠ 0#8) = stream c.ddc.ptr 0
    unfold stream
    rw [if_neg (by decide), hptr]
    exact shift_bit (edidByte c.ddc.ptr) 0

theorem Serving.bus {p : U8} {t : ℕ} {d : Ddc} (h : Serving p t d) (a b : Bool) :
    Serving p t (d.bus a b) := ⟨h.state, h.bits, h.shift, h.ptr, h.sdaOut⟩

/-- Clocks in which the data line is let go. -/
theorem Clocks.serve {p : U8} {t : ℕ} {l : List (Bool × Bool)} {c c' : R128Cell}
    (h : Clocks l c c') (hl : l.map Prod.fst = List.replicate l.length true)
    (hscl : c.ddc.lastScl = false) (hs : Serving p t c.ddc) :
    (c'.ddc.lastScl = false ∧ Serving p (t + l.length) c'.ddc)
      ∧ l.map Prod.snd = (List.range l.length).map fun i => stream p (t + i) := by
  induction h generalizing t with
  | nil c => exact ⟨⟨hscl, hs⟩, rfl⟩
  | @cons b got l c c₁ c' hclock _ ih =>
    rw [List.map_cons, List.length_cons, List.replicate_succ, List.cons.injEq] at hl
    have hb : b = true := hl.1
    rcases hclock.ddc hscl with ⟨⟨x, hx⟩, hgot⟩
    rcases hs.clk b with ⟨hnext, hout⟩
    have hs₁ : Serving p (t + 1) c₁.ddc := by
      rw [hx]
      exact Serving.bus hnext _ _
    rcases ih hl.2 (by rw [hx]; rfl) hs₁ with ⟨hrest, hbits⟩
    rw [List.length_cons]
    constructor
    · rwa [Nat.add_right_comm, Nat.add_assoc] at hrest
    · rw [List.map_cons, hbits, List.range_succ_eq_map, List.map_cons, List.map_map]
      have hfirst : got = stream p (t + 0) := by
        rw [hgot, hout, hb, Bool.true_and]
        rfl
      rw [hfirst]
      congr 1
      apply List.map_congr_left
      intro i _
      show stream p (t + 1 + i) = stream p (t + (i + 1))
      rw [Nat.add_assoc, Nat.add_comm 1 i]

/-- The byte that the master makes of what the slave streams from clock `t` on. -/
def heard (p : U8) (t : ℕ) : U8 := byteOf ((List.range 8).map fun i => stream p (t + i))

theorem FetchByte.serve {nack : Bool} {p v : U8} {t : ℕ} {c c' : R128Cell}
    (h : FetchByte nack c v c') (hscl : c.ddc.lastScl = false) (hs : Serving p t c.ddc) :
    (c'.ddc.lastScl = false ∧ Serving p (t + 9) c'.ddc) ∧ v = heard p t := by
  rcases h with ⟨l, c₁, x, hl, hv, hclocks, hack⟩
  have hlen : l.length = 8 := by
    have hmap := congrArg List.length hl
    rwa [List.length_map, List.length_replicate] at hmap
  rw [← hlen] at hl
  rcases hclocks.serve hl hscl hs with ⟨⟨hscl₁, hs₁⟩, hbits⟩
  rw [hlen] at hs₁ hbits
  rcases hack.ddc hscl₁ with ⟨⟨y, hy⟩, -⟩
  refine ⟨?_, ?_⟩
  · rw [hy]
    exact ⟨rfl, Serving.bus (hs₁.clk nack).1 _ _⟩
  · rw [hv, hbits]
    rfl

/-- All bytes in: nine clocks each for the master. -/
theorem FetchBytes.serve {p : U8} {t : ℕ} {got : List U8} {c c' : R128Cell}
    (h : FetchBytes got c c') (hscl : c.ddc.lastScl = false) (hs : Serving p t c.ddc) :
    got = (List.range got.length).map fun j => heard p (t + 9 * j) := by
  induction h generalizing t with
  | nil c => rfl
  | @cons v vs c c₁ c' hbyte _ ih =>
    rcases hbyte.serve hscl hs with ⟨⟨hscl₁, hs₁⟩, hv⟩
    rw [List.length_cons, List.range_succ_eq_map, List.map_cons, List.map_map, hv]
    congr 1
    rw [ih hscl₁ hs₁, List.length_map, List.length_range]
    apply List.map_congr_left
    intro j _
    show heard p (t + 9 + 9 * j) = heard p (t + 9 * (j + 1))
    congr 1
    omega

/-- What a transaction brings. -/
theorem Transaction.got {p : U8} {acks : List Bool} {got : List U8} {c c' : R128Cell}
    (h : Transaction p acks got c c') :
    acks = [false, false, false] ∧ got = (List.range got.length).map fun j => heard p (9 * j) := by
  rcases h.steps with
    ⟨c₁, c₂, c₃, c₄, c₅, a₁, a₂, a₃, hstart, hwrite, hoff, hre, hread, hfetch, rfl⟩
  rcases hstart.ddc with ⟨x, hx⟩
  rcases hwrite.addr_write (by rw [hx]; rfl) (by rw [hx]; rfl) (by rw [hx]; rfl) (by rw [hx]; rfl)
    (by rw [hx]; rfl) with ⟨⟨hscl₂, hst₂, hout₂, hsh₂, hb₂⟩, ha₁⟩
  rcases hoff.data hscl₂ hst₂ hout₂ hsh₂ hb₂ with ⟨⟨hscl₃, hst₃, hb₃, hptr₃⟩, ha₂⟩
  rcases hre.ddc hscl₃ with ⟨y, hy⟩
  rcases hread.addr_read (by rw [hy]; rfl) (by rw [hy]; rfl) (by rw [hy]; rfl) (by rw [hy]; rfl)
    (by rw [hy]; rfl) with ⟨⟨hscl₅, hs₅⟩, ha₃⟩
  have hptr : c₄.ddc.ptr = p := by
    rw [hy, ← hptr₃]
    simp [Ddc.bus, rise, hst₃, hb₃]
  rw [hptr] at hs₅
  refine ⟨by rw [ha₁, ha₂, ha₃], ?_⟩
  have hgot := hfetch.serve hscl₅ hs₅
  simpa only [Nat.zero_add] using hgot

/-! ## Other addresses -/

/-- A write to the line registers that is not a start. -/
def Unstarted : R128Cell → R128Cell → Prop :=
  Relation.ReflTransGen fun c c' =>
    ∃ l, Drives l c c' ∧ ¬ (c.lines = (true, true) ∧ l = (true, false))

/-- A device address that is not the slave's is not acknowledged, and the slave stays idle, and
off the line, until the next start. -/
def Refuses : Prop :=
  ∀ (v : U8) (ack : Bool) (c c₁ c₂ : R128Cell), v &&& 0xFE#8 ≠ 0xA0#8 →
    (Start c c₁ ∨ c.Synced ∧ c.lines.1 = false ∧ Restart c c₁) → SendByte v c₁ ack c₂ →
      ack = true ∧ ∀ c', Unstarted c₂ c' → c'.ddc.state = .idle ∧ c'.ddc.sdaOut = true

theorem idle_step {d : Ddc} (hstate : d.state = .idle) (hout : d.sdaOut = true) {scl sda : Bool}
    (hstart : ¬ ((d.lastScl, d.lastSda) = (true, true) ∧ (scl, sda) = (true, false))) :
    (d.step scl sda).state = .idle ∧ (d.step scl sda).sdaOut = true := by
  rcases d with ⟨state, shift, bits, addr, ptr, sdaOut, lastScl, lastSda⟩
  simp only at hstate hout
  subst hstate hout
  cases lastScl <;> cases lastSda <;> cases scl <;> cases sda <;>
    first
    | exact ⟨rfl, rfl⟩
    | exact absurd ⟨rfl, rfl⟩ hstart

theorem Unstarted.idle {c c' : R128Cell} (h : Unstarted c c') (hsync : c.Synced)
    (hstate : c.ddc.state = .idle) (hout : c.ddc.sdaOut = true) :
    c'.Synced ∧ c'.ddc.state = .idle ∧ c'.ddc.sdaOut = true := by
  induction h with
  | refl => exact ⟨hsync, hstate, hout⟩
  | @tail c₁ c₂ _ hstep ih =>
    rcases ih with ⟨⟨hscl, hsda⟩, hst, ho⟩
    rcases hstep with ⟨l, hdrive, hstart⟩
    refine ⟨hdrive.synced, ?_⟩
    rw [hdrive.ddc]
    apply idle_step hst ho
    rw [hscl, hsda]
    exact hstart

theorem Clock.synced {b got : Bool} {c c' : R128Cell} (h : Clock b c got c') : c'.Synced := by
  rcases h with ⟨c₁, c₂, c₃, c₄, x, -, -, -, -, -, hfall⟩
  exact hfall.synced

theorem refuses : Refuses := by
  intro v ack c c₁ c₂ hv hstart hsend
  have hfresh : ∃ d : Ddc, ∃ x, c₁.ddc =
      { d with state := .addr, shift := 0#8, bits := 0, sdaOut := true }.bus false x := by
    rcases hstart with hstart | ⟨hsync, hlow, hre⟩
    · exact ⟨_, hstart.ddc⟩
    · exact ⟨_, hre.ddc (hsync.1.trans hlow)⟩
  rcases hfresh with ⟨d, x, hx⟩
  rcases hsend.addr (by rw [hx]; rfl) (by rw [hx]; rfl) (by rw [hx]; rfl) (by rw [hx]; rfl)
    (by rw [hx]; rfl) with ⟨⟨y, hy⟩, hack⟩
  rw [decide_eq_true (p := ¬ v &&& 0xFE#8 = 0xA0#8) hv] at hack
  refine ⟨hack, fun c' hrest => ?_⟩
  have hsync : c₂.Synced := by
    rcases hsend with ⟨l, c₃, -, -, hclock⟩
    exact hclock.synced
  refine (hrest.idle hsync ?_ ?_).2
  · rw [hy, if_neg hv]
    rfl
  · rw [hy, if_neg hv]
    rfl

/-! ## When the bytes are right -/

/-- At most one byte is read, or what is read past the first, with the byte behind it where a
third is read, is of the header's bytes of ones. -/
def HeardRight (p : U8) (n : ℕ) : Prop := n ≤ 1 ∨ (n = 2 ∧ p.toNat ≤ 5) ∨ p.toNat + n ≤ 6

instance (p : U8) (n : ℕ) : Decidable (HeardRight p n) := inferInstanceAs (Decidable (_ ∨ _))

theorem byteOf_bitsOf (v : U8) : byteOf (bitsOf v) = v := by
  revert v
  decide

/-- The bits but the first, and a one. -/
theorem byteOf_early (v : U8) :
    byteOf ((List.range 8).map fun i => if i = 7 then true else v.getLsbD (6 - i)) = v
      ↔ v = 0xFF#8 := by
  revert v
  decide

theorem edidByte_ones (p : U8) : edidByte (p + 1#8) = 0xFF#8 ↔ p.toNat ≤ 5 := by
  revert p
  decide +kernel

theorem heard_first (p : U8) : heard p 0 = edidByte p := by
  rw [← byteOf_bitsOf (edidByte p), heard, bitsOf]
  congr 1
  apply List.map_congr_left
  intro i hi
  have hlt : i < 8 := List.mem_range.mp hi
  have hdiv : (0 + i) / 8 = 0 := by omega
  have hmod : (0 + i) % 8 = i := by omega
  unfold stream
  rw [if_neg (by omega), hdiv, hmod]
  exact congrArg (fun q => (edidByte q).getLsbD (7 - i)) (BitVec.add_zero p)

/-- The second byte has lost its first bit to the acknowledgement. -/
theorem heard_second (p : U8) : heard p 9 = edidByte (p + 1#8) ↔ p.toNat ≤ 5 := by
  rw [← edidByte_ones, ← byteOf_early, heard]
  have hbits : ((List.range 8).map fun i => stream p (9 + i)) =
      (List.range 8).map fun i => if i = 7 then true else (edidByte (p + 1#8)).getLsbD (6 - i) := by
    apply List.map_congr_left
    intro i hi
    have hlt : i < 8 := List.mem_range.mp hi
    unfold stream
    by_cases h7 : i = 7
    · rw [if_pos h7, if_pos (by omega)]
    · have hdiv : (9 + i) / 8 = 1 := by omega
      have hmod : 7 - (9 + i) % 8 = 6 - i := by omega
      rw [if_neg h7, if_neg (by omega), hdiv, hmod]
  rw [hbits]

/-- Inside the header the ones that come too early are the ones that are due. -/
theorem heard_header : ∀ p < 6, ∀ j < 6 - p,
    heard (BitVec.ofNat 8 p) (9 * j) = edidByte (BitVec.ofNat 8 p + BitVec.ofNat 8 j) := by
  decide

theorem heard_beyond : ∀ p < 6, heard (BitVec.ofNat 8 p) (9 * max 2 (6 - p)) ≠
    edidByte (BitVec.ofNat 8 p + BitVec.ofNat 8 (max 2 (6 - p))) := by
  decide

theorem heard_iff (p : U8) (n : ℕ) :
    (∀ j < n, heard p (9 * j) = edidByte (p + BitVec.ofNat 8 j)) ↔ HeardRight p n := by
  have hself : BitVec.ofNat 8 p.toNat = p := BitVec.ofNat_toNat 8 p
  constructor
  · intro h
    by_cases hn : n ≤ 1
    · exact Or.inl hn
    · have hp : p.toNat ≤ 5 := (heard_second p).mp (h 1 (by omega))
      by_cases hn2 : n = 2
      · exact Or.inr (Or.inl ⟨hn2, hp⟩)
      · refine Or.inr (Or.inr ?_)
        by_contra hlong
        have hbeyond := heard_beyond p.toNat (by omega)
        rw [hself] at hbeyond
        exact hbeyond (h _ (by omega))
  · rintro (hn | ⟨rfl, hp⟩ | hn) j hj
    · have hj0 : j = 0 := by omega
      subst hj0
      exact (heard_first p).trans (congrArg edidByte (BitVec.add_zero p).symm)
    · have hj01 : j = 0 ∨ j = 1 := by omega
      rcases hj01 with rfl | rfl
      · exact (heard_first p).trans (congrArg edidByte (BitVec.add_zero p).symm)
      · exact (heard_second p).mpr hp
    · have hheader := heard_header p.toNat (by omega) j (by omega)
      rwa [hself] at hheader

/-! ## A master -/

/-- The lines that the enables leave. -/
def enables (l : Bool × Bool) : U32 :=
  (if l.1 then 0#32 else kDdcSclBit) ||| (if l.2 then 0#32 else kDdcSdaBit)

/-- The master that works open drain, through the enables. -/
def drive (l : Bool × Bool) (c : R128Cell) : R128Cell := c.write kGpioA8 (swap32 (enables l)) 4

theorem drive_drives {c : R128Cell} (hc : c.gpioSda = 0#32) (l : Bool × Bool) :
    Drives l c (drive l c) ∧ (drive l c).gpioSda = 0#32 := by
  have hwrite : drive l c = c.gpioWrite kGpioA8 (swap32 (swap32 (enables l))) :=
    c.write_gpio _ 4 (Or.inr (by decide))
  have hswap : swap32 (swap32 (enables l)) = enables l := by
    rcases l with ⟨scl, sda⟩
    cases scl <;> cases sda <;> decide
  have hlevels : (c.gpioWrite kGpioA8 (enables l)).gpioSda = 0#32 := hc
  rw [hswap] at hwrite
  refine ⟨⟨kGpioA8, _, 4, Or.inr (by decide), rfl, ?_⟩, by rw [hwrite, hlevels]⟩
  show (drive l c).lines = l
  have hmask : (c.gpioWrite kGpioA8 (enables l)).gpioScl = enables l := rfl
  rw [hwrite, lines, masterHigh, masterHigh, hlevels, hmask]
  rcases l with ⟨scl, sda⟩
  cases scl <;> cases sda <;> decide

theorem exists_clock {c : R128Cell} (hc : c.gpioSda = 0#32) (b : Bool) :
    ∃ got c', Clock b c got c' ∧ c'.gpioSda = 0#32 := by
  rcases drive_drives hc (true, b) with ⟨h₁, hc₁⟩
  rcases drive_drives hc₁ (false, b) with ⟨h₂, hc₂⟩
  exact ⟨_, _, ⟨_, _, _, _, b, .refl, h₁, .refl, rfl, .refl, h₂⟩, hc₂⟩

theorem exists_clocks {c : R128Cell} (hc : c.gpioSda = 0#32) (bs : List Bool) :
    ∃ l c', l.map Prod.fst = bs ∧ Clocks l c c' ∧ c'.gpioSda = 0#32 := by
  induction bs generalizing c with
  | nil => exact ⟨[], c, rfl, .nil c, hc⟩
  | cons b bs ih =>
    rcases exists_clock hc b with ⟨got, c₁, hclock, hc₁⟩
    rcases ih hc₁ with ⟨l, c', hl, hclocks, hc'⟩
    exact ⟨(b, got) :: l, c', by rw [List.map_cons, hl], .cons hclock hclocks, hc'⟩

theorem exists_sendByte {c : R128Cell} (hc : c.gpioSda = 0#32) (v : U8) :
    ∃ ack c', SendByte v c ack c' ∧ c'.gpioSda = 0#32 := by
  rcases exists_clocks hc (bitsOf v) with ⟨l, c₁, hl, hclocks, hc₁⟩
  rcases exists_clock hc₁ true with ⟨ack, c', hack, hc'⟩
  exact ⟨ack, c', ⟨l, c₁, hl, hclocks, hack⟩, hc'⟩

theorem exists_fetchBytes {c : R128Cell} (hc : c.gpioSda = 0#32) (n : ℕ) :
    ∃ got c', got.length = n ∧ FetchBytes got c c' := by
  -- the last byte's refusal is known from the bytes behind it
  suffices h : ∀ n, ∀ c : R128Cell, c.gpioSda = 0#32 →
      ∃ got c', got.length = n ∧ FetchBytes got c c' from h n c hc
  intro n
  induction n with
  | zero => exact fun c _ => ⟨[], c, rfl, .nil c⟩
  | succ n ih =>
    intro c hc
    rcases exists_clocks hc (List.replicate 8 true) with ⟨l, c₁, hl, hclocks, hc₁⟩
    rcases exists_clock hc₁ (decide (n = 0)) with ⟨x, c₂, hack, hc₂⟩
    rcases ih c₂ hc₂ with ⟨got, c', hgot, hfetch⟩
    refine ⟨byteOf (l.map Prod.snd) :: got, c', by rw [List.length_cons, hgot], .cons ?_ hfetch⟩
    refine ⟨l, c₁, x, hl, rfl, hclocks, ?_⟩
    rwa [decide_eq_decide.mpr (show got = [] ↔ n = 0 by rw [← hgot, List.length_eq_zero_iff])]

theorem exists_startsHigh {c : R128Cell} (hc : c.gpioSda = 0#32) :
    ∃ c', StartsHigh c c' ∧ c'.gpioSda = 0#32 := by
  rcases drive_drives hc (true, false) with ⟨h₁, hc₁⟩
  rcases drive_drives hc₁ (false, false) with ⟨h₂, hc₂⟩
  exact ⟨_, ⟨c, _, _, false, .refl, h₁, .refl, h₂⟩, hc₂⟩

theorem exists_transaction (p : U8) (n : ℕ) :
    ∃ acks got c', got.length = n ∧ Transaction p acks got powerOn c' := by
  rcases exists_startsHigh (c := powerOn) rfl with ⟨c₁, hstart, hc₁⟩
  rcases exists_sendByte hc₁ 0xA0#8 with ⟨a₁, c₂, hwrite, hc₂⟩
  rcases exists_sendByte hc₂ p with ⟨a₂, c₃, hoff, hc₃⟩
  rcases drive_drives hc₃ (true, true) with ⟨hlet, hc₄⟩
  rcases exists_startsHigh hc₄ with ⟨c₄, hre, hc₅⟩
  rcases exists_sendByte hc₅ 0xA1#8 with ⟨a₃, c₅, hread, hc₆⟩
  rcases exists_fetchBytes hc₆ n with ⟨got, c', hlen, hfetch⟩
  exact ⟨[a₁, a₂, a₃], got, c', hlen, ⟨c₁, c₂, c₃, c₄, c₅, a₁, a₂, a₃,
    ⟨⟨by decide, by decide⟩, by decide, hstart⟩, hwrite, hoff, ⟨c₃, _, .refl, hlet, hre⟩, hread,
    hfetch, rfl⟩⟩

/-- The slave serves the EDID to every master that asks for `n` bytes from `p` on, and refuses
what is not its address. -/
structure Serves (p : U8) (n : ℕ) : Prop where
  reads : ∀ (acks : List Bool) (got : List U8) (c c' : R128Cell), got.length = n →
    Transaction p acks got c c' →
      acks = [false, false, false]
        ∧ got = (List.range n).map fun j => edidByte (p + BitVec.ofNat 8 j)
  refuses : Refuses

/-- **The EDID.** The bytes are the EDID's exactly for these offsets and counts. -/
theorem serves_iff (p : U8) (n : ℕ) : Serves p n ↔ HeardRight p n := by
  rw [← heard_iff]
  constructor
  · intro h j hj
    rcases exists_transaction p n with ⟨acks, got, c', hlen, htrans⟩
    have hgot := htrans.got.2
    rw [(h.reads acks got _ c' hlen htrans).2, List.length_map, List.length_range] at hgot
    exact (List.map_inj_left.mp hgot j (List.mem_range.mpr hj)).symm
  · intro h
    refine ⟨fun acks got c c' hlen htrans => ?_, refuses⟩
    rcases htrans.got with ⟨hacks, hgot⟩
    rw [hlen] at hgot
    refine ⟨hacks, hgot.trans (List.map_congr_left fun j hj => ?_)⟩
    exact h j (List.mem_range.mp hj)

/-- Two bytes from the manufacturer's on are not both right. -/
theorem serves_short : ¬ ∀ (p : U8) (n : ℕ), Serves p n := by
  intro h
  exact absurd ((serves_iff 8#8 2).mp (h 8#8 2)) (by decide)

end R128Cell

end OpenPowerMac
