/-
The vertical blank as an interrupt: how long one stands, how often one comes, and when the
machine has to look.

A blank is dropped by an acknowledgement or a quarter of a period later. But a narrow write to
the status register is completed from the register itself, and so acknowledges with its own
bits what it was not written over (`latched_statusWrite`).
-/
import OpenPowerMac.R128

set_option autoImplicit false

namespace OpenPowerMac

/-- The two registers of the interrupt. -/
inductive GenInt where
  | cntl
  | status
  deriving DecidableEq

namespace GenInt

def base : GenInt → U32
  | cntl => R128Cell.kGenIntCntl
  | status => R128Cell.kGenIntStatus

/-- The offset of a byte of the register. -/
def at' (r : GenInt) (lane : Fin 4) : U32 := r.base + BitVec.ofNat 32 lane.val

theorem at_aligned (r : GenInt) (lane : Fin 4) : r.at' lane &&& ~~~3#32 = r.base := by
  revert lane
  cases r <;> decide

theorem at_index (r : GenInt) (lane : Fin 4) : r.at' lane >>> 2 <<< 2 = r.base := by
  revert lane
  cases r <;> decide

end GenInt

/-- What happens to the cell: the machine ticks it or tells it the time, or the guest reads or
writes one of the two registers. -/
inductive VblEvent where
  | tick (tb : U64)
  | note (tb : U64)
  | read (r : GenInt) (lane : Fin 4) (w : Width)
  | write (r : GenInt) (lane : Fin 4) (v : U32) (w : Width)

namespace R128Cell

def after (c : R128Cell) : VblEvent → R128Cell
  | .tick tb => c.tick tb
  | .note tb => { c with tbNow := tb }
  | .read _ _ _ => c
  | .write r lane v w => c.write (r.at' lane) v w.bytes

/-- What a write brings for the bit of the blank, where it writes the byte that holds it. -/
def bitWritten (lane : Fin 4) (v : U32) : Width → Option Bool
  | .word => some (v.getLsbD 24)
  | .half => if lane = 0 then some (v.getLsbD 8) else if lane = 3 then some (v.getLsbD 0) else none
  | .byte => if lane = 0 then some (v.getLsbD 0) else none

/-- A tick at which the blank is latched. -/
def Latches (c : R128Cell) (tb : U64) : Prop :=
  c.vblEnabled = true ∧ c.vblNextTb ≠ 0#64 ∧ c.vblNextTb ≤ tb
    ∧ c.rd kGenIntCntl &&& kCrtcVblankInt ≠ 0#32

instance (c : R128Cell) (tb : U64) : Decidable (c.Latches tb) := inferInstanceAs (Decidable (_ ∧ _))

/-- A write that enables the blank. -/
def Arms (c : R128Cell) (lane : Fin 4) (v : U32) (w : Width) : Prop :=
  c.native (GenInt.cntl.at' lane) v w.bytes &&& kCrtcVblankInt ≠ 0#32

instance (c : R128Cell) (lane : Fin 4) (v : U32) (w : Width) : Decidable (c.Arms lane v w) :=
  inferInstanceAs (Decidable (_ ≠ _))

/-- When the last blank was latched. -/
def lastAfter (c : R128Cell) (last : Option U64) : VblEvent → Option U64
  | .tick tb => if c.Latches tb then some tb else last
  | _ => last

/-- An event at which the latch does as it should: it is let go by an acknowledgement that was
written, or by a tick more than a quarter of a period after the blank, and set no sooner than a
period after the last time. The machine looks in time for the next change of the line. -/
structure Right (c : R128Cell) (last : Option U64) (e : VblEvent) : Prop where
  held : c.Latched → ¬ (c.after e).Latched →
    (∃ lane v w, e = .write .status lane v w ∧ bitWritten lane v w = some true)
      ∨ ∃ tb b, e = .tick tb ∧ last = some b
        ∧ b.toNat + (c.vblPeriod / 4#64).toNat < tb.toNat
  spaced : ∀ tb b, e = .tick tb → c.Latches tb → last = some b →
    b.toNat + c.vblPeriod.toNat ≤ tb.toNat
  due : ∀ tb, (c.tick tb).irqLine ≠ c.irqLine → c.nextTickTb ≤ tb

/-- What is asked of an event: a write to the status while a blank stands latched writes the
byte that holds it; the clock is armed no earlier than the last blank; and where it is set
forward, by an arming or by a blank, the time is a period short of its end. -/
def Fair (c : R128Cell) (last : Option U64) : VblEvent → Prop
  | .write .status lane v w => c.Latched → bitWritten lane v w ≠ none
  | .write .cntl lane v w => c.vblNextTb = 0#64 → c.Arms lane v w →
    c.tbNow.toNat + c.vblPeriod.toNat < 2 ^ 64 ∧ ∀ b, last = some b → b ≤ c.tbNow
  | .tick tb => c.vblNextTb ≠ 0#64 → c.vblNextTb ≤ tb → tb.toNat + c.vblPeriod.toNat < 2 ^ 64
  | _ => True

/-- A property of every event of a run, with the cell and the last blank as they are by then. -/
def Along (p : R128Cell → Option U64 → VblEvent → Prop) :
    R128Cell → Option U64 → List VblEvent → Prop
  | _, _, [] => True
  | c, last, e :: es => p c last e ∧ Along p (c.after e) (c.lastAfter last e) es

/-! ## The registers of the interrupt -/

theorem and_one (x : U32) : x &&& kCrtcVblankInt ≠ 0#32 ↔ x.getLsbD 0 = true :=
  and_twoPow_ne x 0

theorem latched_iff (c : R128Cell) : c.Latched ↔ (c.rd kGenIntStatus).getLsbD 0 = true :=
  and_one _

/-- A lane taken in: the bit of the blank is in the first. -/
theorem laneTaken_bit (x y : U32) (lane : Fin 4) (s : ℕ) :
    ((x &&& ~~~(0xFF#32 <<< (8 * lane.val)))
        ||| (((y >>> s) &&& 0xFF#32) <<< (8 * lane.val))).getLsbD 0
      = if lane = 0 then y.getLsbD s else x.getLsbD 0 := by
  by_cases h : lane = 0
  · subst h
    simp
  · have h0 : 0 < 8 * lane.val := by
      have : lane.val ≠ 0 := fun hv => h (Fin.ext hv)
      omega
    simp [h, h0]

/-- A write completes what it does not write from the register. -/
theorem native_bit (c : R128Cell) (r : GenInt) (lane : Fin 4) (v : U32) (w : Width) :
    (c.native (r.at' lane) v w.bytes).getLsbD 0 =
      (bitWritten lane v w).getD ((c.regRead (r.at' lane >>> 2)).getLsbD 0) := by
  cases w
  case word => simp [native, swap32, bitWritten, Width.bytes]
  case byte =>
    generalize hx : c.regRead (r.at' lane >>> 2) = x
    have hlane : ((r.at' lane + BitVec.ofNat 32 0) &&& 3#32).toNat = lane.val := by
      clear hx
      revert lane
      cases r <;> decide
    simp only [native, Width.bytes, hx]
    rw [if_neg (by decide)]
    simp only [SawtoothBus.laneMerge, List.range_one, List.foldl_cons, List.foldl_nil, hlane]
    rw [laneTaken_bit]
    by_cases h : lane = 0 <;> simp [bitWritten, h]
  case half =>
    generalize hx : c.regRead (r.at' lane >>> 2) = x
    have hlane : ((r.at' lane + BitVec.ofNat 32 0) &&& 3#32).toNat = lane.val
        ∧ ((r.at' lane + BitVec.ofNat 32 1) &&& 3#32).toNat = (lane + 1).val := by
      clear hx
      revert lane
      cases r <;> decide
    simp only [native, Width.bytes, hx]
    rw [if_neg (by decide)]
    simp only [SawtoothBus.laneMerge, List.range_succ, List.range_zero, List.nil_append,
      List.cons_append, List.foldl_cons, List.foldl_nil, hlane.1, hlane.2]
    rw [laneTaken_bit, laneTaken_bit]
    have h3 : lane + 1 = 0 ↔ lane = 3 := by
      clear hlane hx
      revert lane
      decide
    by_cases h : lane = 0
    · subst h
      simp [bitWritten]
    · by_cases h' : lane = 3
      · simp [bitWritten, h']
      · simp [bitWritten, h, h', h3]

/-! ## Writes -/

theorem write_cntl (c : R128Cell) (hv : c.vblEnabled = true) (lane : Fin 4) (v : U32)
    (w : Width) :
    c.write (GenInt.cntl.at' lane) v w.bytes =
      (c.genIntCntlWrite (c.native (GenInt.cntl.at' lane) v w.bytes)).setReg kGenIntCntl
        (c.native (GenInt.cntl.at' lane) v w.bytes) := by
  simp only [write, GenInt.at_aligned, hv]
  rfl

theorem write_status (c : R128Cell) (hv : c.vblEnabled = true) (lane : Fin 4) (v : U32)
    (w : Width) :
    c.write (GenInt.status.at' lane) v w.bytes =
      c.setReg kGenIntStatus (c.rd kGenIntStatus
        &&& ~~~(c.native (GenInt.status.at' lane) v w.bytes &&& kGenIntAckMask)) := by
  simp only [write, GenInt.at_aligned, hv]
  rfl

theorem regRead_status (c : R128Cell) (hv : c.vblEnabled = true) (lane : Fin 4) :
    c.regRead (GenInt.status.at' lane >>> 2) = c.rd kGenIntStatus := by
  simp only [regRead, GenInt.at_index, hv]
  cases c.eng2dOn <;> rfl

/-- **Acknowledging.** A blank outlives a write to the status exactly when the write writes a
zero over it. -/
theorem latched_statusWrite (c : R128Cell) (hv : c.vblEnabled = true) (hl : c.Latched)
    (lane : Fin 4) (v : U32) (w : Width) :
    (c.write (GenInt.status.at' lane) v w.bytes).Latched ↔ bitWritten lane v w = some false := by
  have hbit := native_bit c .status lane v w
  have hset := (latched_iff c).mp hl
  rw [regRead_status c hv, hset] at hbit
  rw [latched_iff, write_status c hv, rd_setReg_self]
  simp only [BitVec.getLsbD_and, BitVec.getLsbD_not, hset, hbit]
  rcases bitWritten lane v w with - | x
  · simp [kGenIntAckMask]
  · cases x <;> simp [kGenIntAckMask]

/-! ## Ticks -/

/-- A tick that finds the clock parked only tells the time. -/
theorem tick_parked (c : R128Cell) (tb : U64) (h : c.vblNextTb = 0#64) :
    c.tick tb = { c with tbNow := tb } := by
  simp [tick, h]

theorem tick_running (c : R128Cell) (hv : c.vblEnabled = true) (tb : U64)
    (h : c.vblNextTb ≠ 0#64) :
    c.tick tb = (({ c with tbNow := tb } : R128Cell).tickExpire tb).tickBlank tb := by
  simp [tick, h, hv]

theorem tickExpire_nextTb (c : R128Cell) (tb : U64) :
    (c.tickExpire tb).vblNextTb = c.vblNextTb ∧ (c.tickExpire tb).vblTbPeriod = c.vblTbPeriod
      ∧ (c.tickExpire tb).vblEnabled = c.vblEnabled
      ∧ (c.tickExpire tb).rd kGenIntCntl = c.rd kGenIntCntl := by
  unfold tickExpire
  split
  · exact ⟨rfl, rfl, rfl, rd_setReg_of_ne c _ (by decide)⟩
  · exact ⟨rfl, rfl, rfl, rfl⟩

theorem tickBlank_nextTb (c : R128Cell) (tb : U64) :
    (c.tickBlank tb).vblNextTb = (if tb < c.vblNextTb then c.vblNextTb else tb + c.vblPeriod)
      ∧ (c.tickBlank tb).vblTbPeriod = c.vblTbPeriod
      ∧ (c.tickBlank tb).vblEnabled = c.vblEnabled
      ∧ (c.tickBlank tb).rd kGenIntCntl = c.rd kGenIntCntl := by
  unfold tickBlank
  split
  · exact ⟨rfl, rfl, rfl, rfl⟩
  · simp only
    split
    · exact ⟨rfl, rfl, rfl, rfl⟩
    · exact ⟨rfl, rfl, rfl, rd_setReg_of_ne _ _ (by decide)⟩

theorem tick_period (c : R128Cell) (tb : U64) :
    (c.tick tb).vblTbPeriod = c.vblTbPeriod ∧ (c.tick tb).vblEnabled = c.vblEnabled := by
  unfold tick
  simp only
  split
  · exact ⟨rfl, rfl⟩
  · have he := tickExpire_nextTb { c with tbNow := tb } tb
    have hb := tickBlank_nextTb (({ c with tbNow := tb } : R128Cell).tickExpire tb) tb
    exact ⟨hb.2.1.trans he.2.1, hb.2.2.1.trans he.2.2.1⟩

theorem tick_nextTb (c : R128Cell) (hv : c.vblEnabled = true) (tb : U64)
    (h : c.vblNextTb ≠ 0#64) :
    (c.tick tb).vblNextTb = if tb < c.vblNextTb then c.vblNextTb else tb + c.vblPeriod := by
  have he := tickExpire_nextTb { c with tbNow := tb } tb
  have hb := tickBlank_nextTb (({ c with tbNow := tb } : R128Cell).tickExpire tb) tb
  rw [tick_running c hv tb h, hb.1, he.1]
  simp only [vblPeriod, he.2.1]

theorem tick_cntl (c : R128Cell) (tb : U64) :
    (c.tick tb).rd kGenIntCntl = c.rd kGenIntCntl := by
  unfold tick
  simp only
  split
  · rfl
  · have he := tickExpire_nextTb { c with tbNow := tb } tb
    have hb := tickBlank_nextTb (({ c with tbNow := tb } : R128Cell).tickExpire tb) tb
    exact hb.2.2.2.trans he.2.2.2

/-- The blank keeps a latch and sets one where it is enabled and due. -/
theorem latched_tickBlank (c : R128Cell) (tb : U64) :
    (c.tickBlank tb).Latched ↔
      c.Latched ∨ (c.vblNextTb ≤ tb ∧ c.rd kGenIntCntl &&& kCrtcVblankInt ≠ 0#32) := by
  unfold tickBlank
  split
  case isTrue hlt =>
    have : ¬ c.vblNextTb ≤ tb := BitVec.not_le.mpr hlt
    simp [this]
  case isFalse hge =>
    have hle : c.vblNextTb ≤ tb := BitVec.not_lt.mp hge
    simp only
    split
    case isTrue h0 =>
      have h0 : c.rd kGenIntCntl &&& kCrtcVblankInt = 0#32 := h0
      simp only [h0, ne_eq, not_true_eq_false, and_false, or_false]
      rfl
    case isFalse h0 =>
      have h0 : ¬ c.rd kGenIntCntl &&& kCrtcVblankInt = 0#32 := h0
      refine iff_of_true ?_ (Or.inr ⟨hle, h0⟩)
      rw [latched_iff, rd_setReg_self, BitVec.getLsbD_or]
      simp [kCrtcVblankInt]

theorem latched_tickExpire (c : R128Cell) (tb : U64) :
    (c.tickExpire tb).Latched ↔ c.Latched ∧ ¬ c.Expired tb := by
  unfold tickExpire
  split
  case isTrue he =>
    refine iff_of_false ?_ (fun h => h.2 he)
    rw [latched_iff, rd_setReg_self, BitVec.getLsbD_and]
    simp [kCrtcVblankInt]
  case isFalse he => simp [he]

/-- What a tick makes of the latch. -/
theorem latched_tick (c : R128Cell) (hv : c.vblEnabled = true) (tb : U64) :
    (c.tick tb).Latched ↔
      c.Latches tb ∨ (c.Latched ∧ ¬ (c.vblNextTb ≠ 0#64 ∧ c.Expired tb)) := by
  by_cases h : c.vblNextTb = 0#64
  · rw [tick_parked c tb h]
    simp only [Latches, h, ne_eq, not_true_eq_false, false_and, and_false, false_or,
      not_false_eq_true, and_true]
    rfl
  · have he := tickExpire_nextTb { c with tbNow := tb } tb
    rw [tick_running c hv tb h, latched_tickBlank, latched_tickExpire, he.1, he.2.2.2]
    have hx : ({ c with tbNow := tb } : R128Cell).Expired tb ↔ c.Expired tb := Iff.rfl
    have hl : ({ c with tbNow := tb } : R128Cell).Latched ↔ c.Latched := Iff.rfl
    have hr : ({ c with tbNow := tb } : R128Cell).rd kGenIntCntl = c.rd kGenIntCntl := rfl
    rw [hx, hl, hr]
    simp only [Latches, hv, h, ne_eq, not_false_eq_true, true_and]
    exact or_comm

/-- A tick before the deadline leaves the status as it is. -/
theorem tick_status (c : R128Cell) (tb : U64) (he : ¬ c.Expired tb) (hlt : tb < c.vblNextTb) :
    (c.tick tb).rd kGenIntStatus = c.rd kGenIntStatus := by
  have he' : ¬ ({ c with tbNow := tb } : R128Cell).Expired tb := he
  unfold tick
  simp only
  split
  · rfl
  · rw [tickExpire, if_neg he', tickBlank]
    rw [if_pos hlt]
    rfl

theorem vblPeriod_pos (c : R128Cell) : 0 < c.vblPeriod.toNat := by
  unfold vblPeriod
  split
  case isTrue h =>
    apply Nat.pos_of_ne_zero
    intro h0
    exact h (BitVec.eq_of_toNat_eq h0)
  case isFalse => decide

/-- A quarter of a period after a blank is before the next, with no wrap. -/
theorem toNat_expiry (n per : U64) (hp : 0 < per.toNat) (hle : per ≤ n) :
    ((n - per) + per / 4#64 + 1#64).toNat = n.toNat - per.toNat + per.toNat / 4 + 1
      ∧ ((n - per) + per / 4#64).toNat = n.toNat - per.toNat + per.toNat / 4 := by
  have hn := n.isLt
  have hle' : per.toNat ≤ n.toNat := hle
  have hq : (per / 4#64).toNat = per.toNat / 4 := by simp [BitVec.toNat_udiv]
  have hs : (n - per).toNat = n.toNat - per.toNat := BitVec.toNat_sub_of_le hle
  have hsum : ((n - per) + per / 4#64).toNat = n.toNat - per.toNat + per.toNat / 4 := by
    rw [BitVec.toNat_add, hs, hq, Nat.mod_eq_of_lt (by omega)]
  refine ⟨?_, hsum⟩
  rw [BitVec.toNat_add, hsum, show (1#64).toNat = 1 from rfl, Nat.mod_eq_of_lt (by omega)]

/-- **The deadline.** A tick that changes the line is not before it. -/
theorem nextTickTb_le (c : R128Cell) (tb : U64) (h : (c.tick tb).irqLine ≠ c.irqLine) :
    c.nextTickTb ≤ tb := by
  -- the line is read from the enable bits, which no tick changes, and the status
  have hs : (c.tick tb).rd kGenIntStatus ≠ c.rd kGenIntStatus := by
    intro hs
    apply h
    simp only [irqLine, tick_cntl, hs, (tick_period c tb).2]
  have hrun : ¬ (c.vblEnabled = false ∨ c.vblNextTb = 0#64) := by
    intro hoff
    apply hs
    simp only [tick, hoff, if_true]
    rfl
  rw [nextTickTb, if_neg hrun]
  by_cases hlt : tb < c.vblNextTb
  · have he : c.Expired tb := by
      by_contra he
      exact hs (tick_status c tb he hlt)
    have hx := toNat_expiry c.vblNextTb c.vblPeriod (vblPeriod_pos c) he.2.1
    simp only [he.1, he.2.1, and_self, if_true]
    have h2 := he.2.2
    simp only [BitVec.lt_def, BitVec.le_def, hx.2] at h2 hlt ⊢
    split <;> omega
  · have hle : c.vblNextTb ≤ tb := BitVec.not_lt.mp hlt
    simp only
    split
    · split
      case isTrue hx =>
        simp only [BitVec.lt_def, BitVec.le_def] at hx hle ⊢
        omega
      case isFalse => exact hle
    · exact hle

/-! ## Runs -/

/-- A blank that stands has come, and the next is a period after the last. -/
structure VblInv (c : R128Cell) (last : Option U64) : Prop where
  on : c.vblEnabled = true
  told : c.Latched → last ≠ none
  ahead : ∀ b, last = some b → c.vblNextTb ≠ 0#64 →
    b.toNat + c.vblPeriod.toNat ≤ c.vblNextTb.toNat

/-- What a write to the enable register makes of the clock and the latch. -/
theorem after_cntl (c : R128Cell) (hv : c.vblEnabled = true) (lane : Fin 4) (v : U32)
    (w : Width) :
    (c.after (.write .cntl lane v w)).vblNextTb =
        (if c.Arms lane v w then
          if c.vblNextTb = 0#64 then c.tbNow + c.vblPeriod else c.vblNextTb
        else 0#64)
      ∧ (c.after (.write .cntl lane v w)).vblTbPeriod = c.vblTbPeriod
      ∧ (c.after (.write .cntl lane v w)).vblEnabled = c.vblEnabled
      ∧ ((c.after (.write .cntl lane v w)).Latched ↔ c.Latched) := by
  have hs (c' : R128Cell) (x : U32) (h : c'.rd kGenIntStatus = c.rd kGenIntStatus) :
      (c'.setReg kGenIntCntl x).Latched ↔ c.Latched := by
    rw [Latched, rd_setReg_of_ne c' x (by decide), h]
    rfl
  simp only [after, write_cntl c hv]
  by_cases ha : c.Arms lane v w
  · have ha' : c.native (GenInt.cntl.at' lane) v w.bytes &&& kCrtcVblankInt ≠ 0#32 := ha
    rw [genIntCntlWrite, if_pos ha', if_pos ha]
    split <;> exact ⟨rfl, rfl, rfl, hs _ _ rfl⟩
  · have ha' : ¬ c.native (GenInt.cntl.at' lane) v w.bytes &&& kCrtcVblankInt ≠ 0#32 := ha
    rw [genIntCntlWrite, if_neg ha', if_neg ha]
    exact ⟨rfl, rfl, rfl, hs _ _ rfl⟩

theorem status_step (c : R128Cell) (last : Option U64) (h : VblInv c last) (lane : Fin 4)
    (v : U32) (w : Width) (hf : c.Fair last (.write .status lane v w)) :
    c.Right last (.write .status lane v w)
      ∧ VblInv (c.after (.write .status lane v w)) last := by
  have hw : c.after (.write .status lane v w) = _ := write_status c h.on lane v w
  refine ⟨⟨?_, ?_, nextTickTb_le c⟩, ?_⟩
  · -- the byte of the bit is written, and not with a zero
    intro hl hdrop
    refine Or.inl ⟨lane, v, w, rfl, ?_⟩
    have hne := hf hl
    have hkeep := (latched_statusWrite c h.on hl lane v w).not.mp hdrop
    cases hb : bitWritten lane v w with
    | none => exact absurd hb hne
    | some x =>
      cases x with
      | false => exact absurd hb hkeep
      | true => rfl
  · intro tb b he
    cases he
  · rw [hw]
    refine ⟨h.on, fun hl => h.told ?_, h.ahead⟩
    -- a write sets no bit
    rw [latched_iff, rd_setReg_self, BitVec.getLsbD_and] at hl
    rw [latched_iff]
    exact (Bool.and_eq_true_iff.mp hl).1

theorem cntl_step (c : R128Cell) (last : Option U64) (h : VblInv c last) (lane : Fin 4)
    (v : U32) (w : Width) (hf : c.Fair last (.write .cntl lane v w)) :
    c.Right last (.write .cntl lane v w)
      ∧ VblInv (c.after (.write .cntl lane v w)) last := by
  have hw := after_cntl c h.on lane v w
  have hper : (c.after (.write .cntl lane v w)).vblPeriod = c.vblPeriod := by
    simp only [vblPeriod, hw.2.1]
  refine ⟨⟨?_, ?_, nextTickTb_le c⟩, ⟨?_, ?_, ?_⟩⟩
  · intro hl hdrop
    exact absurd (hw.2.2.2.mpr hl) hdrop
  · intro tb b he
    cases he
  · exact hw.2.2.1.trans h.on
  · intro hl
    exact h.told (hw.2.2.2.mp hl)
  · intro b hb hne
    rw [hper]
    rw [hw.1] at hne ⊢
    split at hne
    case isFalse => exact absurd rfl hne
    case isTrue ha =>
      rw [if_pos ha]
      by_cases h0 : c.vblNextTb = 0#64
      · -- the clock starts a period from now, and now is not before the last blank
        have hfair := hf h0 ha
        have hle : b.toNat ≤ c.tbNow.toNat := hfair.2 b hb
        rw [if_pos h0, BitVec.toNat_add, Nat.mod_eq_of_lt hfair.1]
        omega
      · rw [if_neg h0]
        exact h.ahead b hb h0

theorem tick_step (c : R128Cell) (last : Option U64) (h : VblInv c last) (tb : U64)
    (hf : c.Fair last (.tick tb)) :
    c.Right last (.tick tb) ∧ VblInv (c.after (.tick tb)) (c.lastAfter last (.tick tb)) := by
  have hl' := latched_tick c h.on tb
  have hper : (c.tick tb).vblPeriod = c.vblPeriod := by
    simp only [vblPeriod, (tick_period c tb).1]
  refine ⟨⟨?_, ?_, nextTickTb_le c⟩, ⟨?_, ?_, ?_⟩⟩
  · intro hl hdrop
    have hexp : c.vblNextTb ≠ 0#64 ∧ c.Expired tb := by
      by_contra hno
      exact hdrop (hl'.mpr (Or.inr ⟨hl, hno⟩))
    obtain ⟨b, hb⟩ := Option.ne_none_iff_exists'.mp (h.told hl)
    refine Or.inr ⟨tb, b, rfl, hb, ?_⟩
    have hahead := h.ahead b hb hexp.1
    have hx := (toNat_expiry c.vblNextTb c.vblPeriod (vblPeriod_pos c) hexp.2.2.1).2
    have hlt := hexp.2.2.2
    rw [BitVec.lt_def, hx] at hlt
    have hq : (c.vblPeriod / 4#64).toNat = c.vblPeriod.toNat / 4 := by simp [BitVec.toNat_udiv]
    rw [hq]
    omega
  · intro tb' b he hlat hb
    cases he
    have hahead := h.ahead b hb hlat.2.1
    have hle : c.vblNextTb.toNat ≤ tb.toNat := hlat.2.2.1
    omega
  · exact (tick_period c tb).2.trans h.on
  · intro hl
    rw [lastAfter]
    split
    case isTrue => exact Option.some_ne_none tb
    case isFalse hno =>
      -- latched now: this tick did it, or it was before and has not expired
      rcases hl'.mp hl with hlat | hold
      · exact absurd hlat hno
      · exact h.told hold.1
  · intro b hb hne
    simp only [after] at hne ⊢
    rw [hper]
    by_cases h0 : c.vblNextTb = 0#64
    · rw [tick_parked c tb h0] at hne
      exact absurd h0 hne
    rw [tick_nextTb c h.on tb h0]
    rw [lastAfter] at hb
    split at hb
    case isTrue hlat =>
      cases hb
      rw [if_neg (BitVec.not_lt.mpr hlat.2.2.1), BitVec.toNat_add,
        Nat.mod_eq_of_lt (hf h0 hlat.2.2.1)]
    case isFalse hno =>
      have hahead := h.ahead b hb h0
      by_cases hlt : tb < c.vblNextTb
      · rw [if_pos hlt]
        exact hahead
      -- the next edge moved on without a latch, so it is later still
      · have hle : c.vblNextTb ≤ tb := BitVec.not_lt.mp hlt
        have hle' : c.vblNextTb.toNat ≤ tb.toNat := hle
        rw [if_neg hlt, BitVec.toNat_add, Nat.mod_eq_of_lt (hf h0 hle)]
        omega

theorem vbl_step (c : R128Cell) (last : Option U64) (h : VblInv c last) (e : VblEvent)
    (hf : c.Fair last e) : c.Right last e ∧ VblInv (c.after e) (c.lastAfter last e) := by
  rcases e with tb | tb | ⟨r, lane, w⟩ | ⟨r, lane, v, w⟩
  · exact tick_step c last h tb hf
  · exact ⟨⟨fun hl hn => absurd hl hn, fun _ _ he => (by cases he), nextTickTb_le c⟩,
      ⟨h.on, h.told, h.ahead⟩⟩
  · exact ⟨⟨fun hl hn => absurd hl hn, fun _ _ he => (by cases he), nextTickTb_le c⟩, h⟩
  · cases r
    · exact cntl_step c last h lane v w hf
    · exact status_step c last h lane v w hf

theorem along_right (es : List VblEvent) : ∀ (c : R128Cell) (last : Option U64), VblInv c last →
    Along Fair c last es → Along Right c last es := by
  induction es with
  | nil =>
    intro c last _ _
    trivial
  | cons e es ih =>
    rintro c last h ⟨hf, hrest⟩
    have hstep := vbl_step c last h e hf
    exact ⟨hstep.1, ih _ _ hstep.2 hrest⟩

/-- The cell as it is made, under the host's switches. -/
def made (per : U64) (eng2dOn : Bool) : R128Cell :=
  { powerOn with vblTbPeriod := per, eng2dOn := eng2dOn }

/-- **The vertical blank.** From power on, in every run whose writes to the status write over a
blank that stands, a blank is let go only by an acknowledgement written to it or a quarter of a
period after it, no two come less than a period apart, and the line changes no sooner than the
machine was told to look. -/
theorem vblank_right (per : U64) (eng2dOn : Bool) (es : List VblEvent)
    (h : Along Fair (made per eng2dOn) none es) : Along Right (made per eng2dOn) none es := by
  apply along_right es _ _ ?_ h
  refine ⟨rfl, fun hl => ?_, fun b hb => ?_⟩
  · exact absurd hl (by simp [Latched, rd, made, powerOn])
  · cases hb

/-- The blank is armed, comes, and is acknowledged with a byte. -/
def answeredRun : List VblEvent :=
  [.write .cntl 0 0x01000000#32 .word, .tick 500000#64, .write .status 0 1#32 .byte,
    .tick 916666#64]

theorem vblank_right_answered : Along Right (made 0#64 true) none answeredRun := by
  apply vblank_right
  refine ⟨fun _ _ => ⟨by decide, fun b hb => ?_⟩, fun _ _ => ?_, fun _ => ?_, fun _ _ => ?_,
    trivial⟩
  · cases hb
  · decide
  · decide
  · decide

/-- A zero written to another byte of the status drops the blank at once. -/
theorem vblank_dropped_beside :
    ¬ Along Right (made 0#64 true) none
      [.write .cntl 0 0x01000000#32 .word, .tick 500000#64, .write .status 1 0#32 .byte] := by
  rintro ⟨-, -, h, -⟩
  have hl : (((made 0#64 true).after (.write .cntl 0 0x01000000#32 .word)).after
      (.tick 500000#64)).Latched := by decide
  have hd : ¬ ((((made 0#64 true).after (.write .cntl 0 0x01000000#32 .word)).after
      (.tick 500000#64)).after (.write .status 1 0#32 .byte)).Latched := by decide
  rcases h.held hl hd with ⟨lane, v, w, he, hb⟩ | ⟨tb, b, he, -⟩
  · cases he
    exact absurd hb (by decide)
  · cases he

end R128Cell

end OpenPowerMac
