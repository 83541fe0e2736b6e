/-
The sound codec's clocking: `machine/src/awacs.cpp` with `machine/include/opm/awacs.hpp`.

The codec takes bytes off a channel as its FIFO has room for them. What is queued is not counted:
a cursor says at which timebase the last of it will have been played, and room is read off the
cursor. Bytes become ticks and ticks become bytes by two divisions, each of which rounds down.
-/
import OpenPowerMac.Word
import OpenPowerMac.LowBits
import Mathlib.Tactic.FinCases
import Mathlib.Tactic.IntervalCases
import Mathlib.Tactic.Ring

set_option autoImplicit false

namespace OpenPowerMac

/-- The cell, but for the registers that neither channel reads. -/
structure Awacs where
  soundCtl : U32 := 0#32
  playTb : U64 := 0#64
  recTb : U64 := 0#64
  nowTb : U64 := 0#64
  played : U64 := 0#64
  recorded : U64 := 0#64
  underruns : U64 := 0#64
  ring : List U8 := []

namespace Awacs

def kTbHz : U64 := 25000000#64
def kFrameBytes : U32 := 4#32
def kFifoBytes : U32 := 0x2000#32
def kRingCap : ℕ := 0x8000

/-- `kRates`, in the order of Sound Control's rate field. -/
def kRates : List U32 :=
  [44100#32, 29400#32, 22050#32, 17640#32, 14700#32, 11025#32, 8820#32, 7350#32]

def rateHz (c : Awacs) : U32 := kRates.getD ((c.soundCtl >>> 8) &&& 7#32).toNat 0#32

def noteTb (c : Awacs) (tb : U64) : Awacs := { c with nowTb := tb }

def tbForBytes (c : Awacs) (b : U64) : U64 := b * kTbHz / (c.rateHz * kFrameBytes).setWidth 64

def bytesForTb (c : Awacs) (t : U64) : U64 := t * (c.rateHz * kFrameBytes).setWidth 64 / kTbHz

/-- `credit`: the bytes there is room for, and the cursor, which has been brought up to now. -/
def credit (c : Awacs) (cursorTb : U64) : U32 × U64 :=
  let cursorTb := if cursorTb < c.nowTb then c.nowTb else cursorTb
  let fifoTb := c.tbForBytes (kFifoBytes.setWidth 64)
  let ahead := cursorTb - c.nowTb
  if fifoTb ≤ ahead then (0#32, cursorTb)
  else
    let can := c.bytesForTb (fifoTb - ahead)
    let can := if kFifoBytes.setWidth 64 < can then kFifoBytes.setWidth 64 else can
    (can.setWidth 32 &&& ~~~(kFrameBytes - 1#32), cursorTb)

def dueTb (c : Awacs) (cursorTb : U64) : U64 :=
  let margin := c.tbForBytes ((kFifoBytes - kFifoBytes / 4#32).setWidth 64)
  if margin < cursorTb then cursorTb - margin else 0#64

def outDueTb (c : Awacs) : U64 := c.dueTb c.playTb
def inDueTb (c : Awacs) : U64 := c.dueTb c.recTb

/-- The ring with `can` bytes more, the oldest dropped where they do not fit. -/
def pushRing (ring : List U8) (src : ℕ → U8) (can : ℕ) : List U8 :=
  (if kRingCap < ring.length + can then ring.drop (ring.length + can - kRingCap) else ring)
    ++ (List.range can).map src

/-- `dmaGive`: what is accepted of the `n` bytes at `src`. -/
def dmaGive (c : Awacs) (src : ℕ → U8) (n : U32) : U32 × Awacs :=
  let c := if c.playTb < c.nowTb ∧ c.played ≠ 0#64 then
      { c with underruns := c.underruns + 1#64 }
    else c
  let p := c.credit c.playTb
  let c := { c with playTb := p.2 }
  let can := if n < p.1 then n else p.1
  if can = 0#32 then (0#32, c)
  else
    (can, { c with
      ring := pushRing c.ring src can.toNat
      playTb := c.playTb + c.tbForBytes (can.setWidth 64)
      played := c.played + can.setWidth 64 })

/-- `dmaTake`: silence, as fast as it would be sampled. -/
def dmaTake (c : Awacs) (n : U32) : List U8 × Awacs :=
  let p := c.credit c.recTb
  let c := { c with recTb := p.2 }
  let can := if n < p.1 then n else p.1
  if can = 0#32 then ([], c)
  else
    (List.replicate can.toNat 0#8, { c with
      recTb := c.recTb + c.tbForBytes (can.setWidth 64)
      recorded := c.recorded + can.setWidth 64 })

/-- `drain`: up to `cap` of the oldest bytes. -/
def drain (c : Awacs) (cap : ℕ) : List U8 × Awacs :=
  (c.ring.take cap, { c with ring := c.ring.drop cap })

/-! ## The two conversions as numbers -/

/-- The bytes a second takes. -/
def byteHz (c : Awacs) : ℕ := (c.rateHz * kFrameBytes).toNat

/-- The rates, each with the bytes a second of it takes. -/
theorem rate_cases (c : Awacs) :
    (c.rateHz, c.byteHz) ∈ [(44100#32, 176400), (29400#32, 117600), (22050#32, 88200),
      (17640#32, 70560), (14700#32, 58800), (11025#32, 44100), (8820#32, 35280),
      (7350#32, 29400)] := by
  have hfield : ((c.soundCtl >>> 8) &&& 7#32).toNat < 8 := by
    rw [BitVec.toNat_and, show (7#32).toNat = 2 ^ 3 - 1 from rfl, Nat.and_two_pow_sub_one_eq_mod]
    omega
  unfold byteHz rateHz
  generalize ((c.soundCtl >>> 8) &&& 7#32).toNat = k at hfield
  interval_cases k <;> decide

theorem byteHz_bounds (c : Awacs) : 29400 ≤ c.byteHz ∧ c.byteHz ≤ 176400 := by
  have h := c.rate_cases
  simp only [List.mem_cons, Prod.mk.injEq, List.not_mem_nil, or_false] at h
  omega

/-- No conversion of what the FIFO holds overflows. -/
theorem tbForBytes_toNat (c : Awacs) {b : U64} (hb : b.toNat ≤ 0x2000) :
    (c.tbForBytes b).toNat = b.toNat * 25000000 / c.byteHz := by
  have hr := c.byteHz_bounds
  rw [tbForBytes, BitVec.toNat_udiv, BitVec.toNat_mul, BitVec.toNat_setWidth]
  change _ / (c.byteHz % 2 ^ 64) = _
  rw [show kTbHz.toNat = 25000000 from rfl, Nat.mod_eq_of_lt (by omega),
    Nat.mod_eq_of_lt (by omega)]

theorem bytesForTb_toNat (c : Awacs) {t : U64} (ht : t.toNat ≤ 2 ^ 40) :
    (c.bytesForTb t).toNat = t.toNat * c.byteHz / 25000000 := by
  have hr := c.byteHz_bounds
  have hprod : t.toNat * c.byteHz < 2 ^ 64 := by
    calc t.toNat * c.byteHz ≤ 2 ^ 40 * 176400 := Nat.mul_le_mul ht hr.2
      _ < 2 ^ 64 := by norm_num
  rw [bytesForTb, BitVec.toNat_udiv, BitVec.toNat_mul, BitVec.toNat_setWidth]
  change t.toNat * (c.byteHz % 2 ^ 64) % 2 ^ 64 / _ = _
  rw [show kTbHz.toNat = 25000000 from rfl, Nat.mod_eq_of_lt (show c.byteHz < 2 ^ 64 by omega),
    Nat.mod_eq_of_lt hprod]

/-- The ticks the whole FIFO plays for. -/
def fifoTicks (c : Awacs) : ℕ := 0x2000 * 25000000 / c.byteHz

/-- The whole frames of what `ticks` play, up to what the FIFO holds. -/
def roomFor (c : Awacs) (ticks : ℕ) : ℕ := min 0x2000 (ticks * c.byteHz / 25000000) / 4 * 4

/-- Where a cursor stands once it has been brought up to now. -/
def reach (c : Awacs) (cursorTb : U64) : ℕ := max cursorTb.toNat c.nowTb.toNat

theorem fifoTicks_le (c : Awacs) : c.fifoTicks ≤ 6965986 :=
  calc c.fifoTicks
      ≤ 0x2000 * 25000000 / 29400 := Nat.div_le_div_left c.byteHz_bounds.1 (by norm_num)
    _ = 6965986 := by norm_num

theorem roomFor_mono (c : Awacs) {t u : ℕ} (h : t ≤ u) : c.roomFor t ≤ c.roomFor u := by
  have hbytes : t * c.byteHz / 25000000 ≤ u * c.byteHz / 25000000 :=
    Nat.div_le_div_right (Nat.mul_le_mul_right _ h)
  unfold roomFor
  omega

/-- What there is room for is played in the ticks it is the room of. -/
theorem roomFor_le (c : Awacs) (t : ℕ) :
    c.roomFor t ≤ 0x2000 ∧ 25000000 * c.roomFor t ≤ t * c.byteHz := by
  have hbytes : 25000000 * (t * c.byteHz / 25000000) ≤ t * c.byteHz := Nat.mul_div_le _ _
  unfold roomFor
  omega

theorem dvd_roomFor (c : Awacs) (t : ℕ) : 4 ∣ c.roomFor t := Dvd.intro_left _ rfl

/-- `credit` in numbers. -/
theorem credit_spec (c : Awacs) (cursorTb : U64) :
    (c.credit cursorTb).2.toNat = c.reach cursorTb
      ∧ (c.credit cursorTb).1.toNat
        = c.roomFor (c.nowTb.toNat + c.fifoTicks - c.reach cursorTb) := by
  obtain ⟨k, hk⟩ : ∃ k, k = if cursorTb < c.nowTb then c.nowTb else cursorTb := ⟨_, rfl⟩
  have hreach : k.toNat = c.reach cursorTb := by
    rw [hk, reach]
    split
    case isTrue h => exact (max_eq_right (BitVec.lt_def.mp h).le).symm
    case isFalse h => exact (max_eq_left (not_lt.mp fun hlt => h (BitVec.lt_def.mpr hlt))).symm
  have hle : c.nowTb.toNat ≤ k.toNat := hreach ▸ le_max_right _ _
  have hahead : (k - c.nowTb).toNat = k.toNat - c.nowTb.toNat := BitVec.toNat_sub_of_le hle
  have hfifo : (c.tbForBytes (kFifoBytes.setWidth 64)).toNat = c.fifoTicks :=
    c.tbForBytes_toNat (by decide)
  have hticks := c.fifoTicks_le
  simp only [credit, ← hk, ← hreach]
  split
  case isTrue hfull =>
    rw [BitVec.le_def, hfifo, hahead] at hfull
    refine ⟨rfl, ?_⟩
    rw [show c.nowTb.toNat + c.fifoTicks - k.toNat = 0 by omega, roomFor, Nat.zero_mul]
    rfl
  case isFalse hroom =>
    rw [BitVec.le_def, hfifo, hahead] at hroom
    refine ⟨rfl, ?_⟩
    have hleft : (c.tbForBytes (kFifoBytes.setWidth 64) - (k - c.nowTb)).toNat
        = c.nowTb.toNat + c.fifoTicks - k.toNat := by
      rw [BitVec.toNat_sub_of_le (BitVec.le_def.mpr (by omega)), hfifo, hahead]
      omega
    have hbytes := c.bytesForTb_toNat (t := c.tbForBytes (kFifoBytes.setWidth 64) - (k - c.nowTb))
      (by omega)
    rw [hleft] at hbytes
    rw [show ~~~(kFrameBytes - 1#32) = ~~~BitVec.ofNat 32 (2 ^ 2 - 1) from rfl, toNat_and_not_low,
      roomFor, ← hbytes, BitVec.toNat_setWidth]
    -- the cap keeps the count far below the width
    split
    case isTrue hcap =>
      have hcap' : 0x2000 < (c.bytesForTb
        (c.tbForBytes (kFifoBytes.setWidth 64) - (k - c.nowTb))).toNat := BitVec.lt_def.mp hcap
      rw [min_eq_left hcap'.le]
      rfl
    case isFalse hcap =>
      have hcap' : ¬ 0x2000 < (c.bytesForTb
        (c.tbForBytes (kFifoBytes.setWidth 64) - (k - c.nowTb))).toNat := hcap
      rw [min_eq_right (by omega), Nat.mod_eq_of_lt (by omega)]
      rfl

/-! ## The wake-up -/

/-- The ticks before the cursor at which the channel is woken. -/
def margin (c : Awacs) : U64 := c.tbForBytes ((kFifoBytes - kFifoBytes / 4#32).setWidth 64)

/-- The channel is woken when a descriptor fits, and no frame later. -/
def WakeExact (c : Awacs) : Prop :=
  0x800 ≤ ((c.noteTb c.outDueTb).credit c.playTb).1.toNat
    ∧ ∀ tb, tb < c.outDueTb → ((c.noteTb tb).credit c.playTb).1.toNat < 0x800 + 4

theorem margin_toNat (c : Awacs) : c.margin.toNat = 0x1800 * 25000000 / c.byteHz :=
  c.tbForBytes_toNat (by decide)

theorem credit_before (c : Awacs) {tb : U64} (h : tb.toNat ≤ c.playTb.toNat) :
    ((c.noteTb tb).credit c.playTb).1.toNat
      = c.roomFor (tb.toNat + c.fifoTicks - c.playTb.toNat) := by
  have hreach : (c.noteTb tb).reach c.playTb = c.playTb.toNat := max_eq_left h
  rw [((c.noteTb tb).credit_spec c.playTb).2, hreach]
  rfl

theorem outDueTb_toNat (c : Awacs) (h : c.margin < c.playTb) :
    c.outDueTb.toNat = c.playTb.toNat - c.margin.toNat := by
  have hdue : c.outDueTb = c.playTb - c.margin := if_pos h
  rw [hdue]
  exact BitVec.toNat_sub_of_le (BitVec.le_of_lt h)

/-- The room at the wake-up. -/
theorem credit_due (c : Awacs) (h : c.margin < c.playTb) :
    ((c.noteTb c.outDueTb).credit c.playTb).1.toNat = c.roomFor (c.fifoTicks - c.margin.toNat) := by
  have hdue := c.outDueTb_toNat h
  have hlt : c.margin.toNat < c.playTb.toNat := h
  rw [c.credit_before (by omega), hdue]
  congr 1
  omega

/-- Before the wake-up there is no more room than at it. -/
theorem credit_early (c : Awacs) (h : c.margin < c.playTb) {tb : U64} (htb : tb < c.outDueTb) :
    ((c.noteTb tb).credit c.playTb).1.toNat ≤ c.roomFor (c.fifoTicks - c.margin.toNat) := by
  have hdue := c.outDueTb_toNat h
  have hlt : tb.toNat < c.outDueTb.toNat := htb
  rw [c.credit_before (by omega)]
  exact c.roomFor_mono (by omega)

/-- **The wake-up is exact** at four of the eight rates: at the others the two divisions drop a
tick between them, and a frame of room is missing. -/
theorem wakeExact_iff (c : Awacs) (h : c.margin < c.playTb) :
    c.WakeExact ↔ c.rateHz ∈ [22050#32, 17640#32, 14700#32, 7350#32] := by
  have hdue := c.credit_due h
  have hmost : c.roomFor (c.fifoTicks - c.margin.toNat) < 0x800 + 4
      ∧ (0x800 ≤ c.roomFor (c.fifoTicks - c.margin.toNat)
        ↔ c.rateHz ∈ [22050#32, 17640#32, 14700#32, 7350#32]) := by
    have hrate := c.rate_cases
    rw [c.margin_toNat, roomFor, fifoTicks]
    generalize c.rateHz = rate at hrate ⊢
    generalize c.byteHz = hz at hrate ⊢
    fin_cases hrate <;> decide
  constructor
  · intro hexact
    exact hmost.2.mp (hdue ▸ hexact.1)
  · intro hin
    exact ⟨hdue ▸ hmost.2.mpr hin, fun tb htb => (c.credit_early h htb).trans_lt hmost.1⟩

/-- At 22050 frames a second. -/
theorem wakeExact_iff_half :
    let c : Awacs := { soundCtl := 0x200#32, playTb := 0x10000000#64 }
    c.margin < c.playTb ∧ (c.WakeExact ↔ c.rateHz ∈ [22050#32, 17640#32, 14700#32, 7350#32]) := by
  have hlt : ({ soundCtl := 0x200#32, playTb := 0x10000000#64 } : Awacs).margin
      < 0x10000000#64 := by
    decide
  exact ⟨hlt, wakeExact_iff _ hlt⟩

/-- At 44100 frames a second a channel is woken for 2044 bytes. -/
theorem wake_short :
    ¬ ∀ c : Awacs, c.margin < c.playTb → c.WakeExact := by
  intro h
  have hexact := h { playTb := 0x10000000#64 } (by decide)
  exact absurd hexact.1 (by decide)

end Awacs

end OpenPowerMac
