/-
The first timer of the VIA in its free-running mode.

A write of the high byte of the count starts an interval, and the latches are what the count
is reloaded from. But that write leaves the high latch as it was, so the first interval is as
long as was asked for and the later ones are as long as the latches say
(`runsFree_iff`).
-/
import OpenPowerMac.CudaTalk

set_option autoImplicit false

namespace OpenPowerMac

open ViaReg

/-! ## Intervals -/

/-- An expiry falls on the tick: the first one, or whole periods after it. -/
def Expires (first period n : ℕ) : Prop := first ≤ n ∧ (n - first) % period = 0

instance (first period n : ℕ) : Decidable (Expires first period n) :=
  inferInstanceAs (Decidable (_ ∧ _))

theorem expires_add {first period : ℕ} (j : ℕ) : Expires first period (first + j * period) := by
  refine ⟨Nat.le_add_right _ _, ?_⟩
  rw [Nat.add_sub_cancel_left, Nat.mul_mod_left]

theorem Expires.exists {first period n : ℕ} (h : Expires first period n) :
    ∃ j, n = first + j * period := by
  rcases Nat.dvd_of_mod_eq_zero h.2 with ⟨j, hj⟩
  exact ⟨j, by rw [Nat.mul_comm j, ← hj, Nat.add_sub_cancel' h.1]⟩

/-- Between two expiries there is none. -/
theorem not_expires {first period n j : ℕ} (hlt : n < first + j * period)
    (hgt : j ≠ 0 → first + j * period < n + period) : ¬ Expires first period n := by
  intro h
  rcases h.exists with ⟨i, rfl⟩
  have hij : i < j := by
    by_contra hle
    have := Nat.mul_le_mul_right period (not_lt.mp hle)
    omega
  have hgt := hgt (Nat.ne_zero_of_lt hij)
  have hmul : (i + 1) * period ≤ j * period := Nat.mul_le_mul_right period hij
  rw [Nat.add_mul, Nat.one_mul] at hmul
  omega

/-! ## The flag as it should be -/

/-- The host's account: the ticks of the processor in the tick of the VIA, the ticks of the VIA,
and whether the flag is up. -/
structure Account where
  divider : ℕ
  ticks : ℕ
  up : Bool

namespace Account

/-- A tick of the VIA. -/
def viaTick (first period : ℕ) (c : Account) : Account where
  divider := 0
  ticks := c.ticks + 1
  up := c.up || decide (Expires first period (c.ticks + 1))

/-- The flag goes up at the expiries, and down when it is acknowledged. -/
def after (first period : ℕ) (c : Account) : ViaAccess → Account
  | .tick => if c.divider + 1 < 8 then { c with divider := c.divider + 1 } else c.viaTick first period
  | .read vT1CL => { c with up := false }
  | .write vIFR v => if v.getLsbD 6 then { c with up := false } else c
  | _ => c

def run (first period : ℕ) (c : Account) (as : List ViaAccess) : Account :=
  as.foldl (after first period) c

theorem run_append (first period : ℕ) (c : Account) (as as' : List ViaAccess) :
    c.run first period (as ++ as') = (c.run first period as).run first period as' :=
  List.foldl_append

/-- What an account is after some ticks of the VIA. -/
def Waited (first period m : ℕ) (c c' : Account) : Prop :=
  c'.ticks = c.ticks + m ∧ c'.divider = (if m = 0 then c.divider else 0) ∧
    (c'.up = true ↔ c.up = true ∨ ∃ n, c.ticks < n ∧ n ≤ c.ticks + m ∧ Expires first period n)

end Account

/-- The access leaves the timer to itself: no write to its count or its latches, and none that
ends the free-running mode. -/
def ViaAccess.Spares : ViaAccess → Prop
  | .write r v => r ≠ vT1CL ∧ r ≠ vT1CH ∧ r ≠ vT1LL ∧ r ≠ vT1LH ∧ (r = vACR → v.getLsbD 6 = true)
  | _ => True

/-- The same, but the latches may be written. -/
def ViaAccess.Frees : ViaAccess → Prop
  | .write r v => r ≠ vT1CH ∧ (r = vACR → v.getLsbD 6 = true)
  | _ => True

namespace MacIo

section

variable {κ : Type} (E : PacketEngine κ)

def run (s : MacIo κ) (as : List ViaAccess) : MacIo κ := as.foldl (MacIo.step E) s

/-- IFR[T1] as it reads. -/
def flagT1 (s : MacIo κ) : Bool := (s.viaRead vIFR).1.getLsbD 6

/-- What the count is reloaded from. -/
def latchT1 (s : MacIo κ) : U16 :=
  ((s.via vT1LH).setWidth 16 <<< 8) ||| (s.via vT1LL).setWidth 16

/-- While the timer is left to itself, the flag goes up at the tick `first` and then every
`period` ticks. -/
def Keeps (s : MacIo κ) (first period : ℕ) : Prop :=
  ∀ as : List ViaAccess, (∀ a ∈ as, a.Spares) →
    (s.run E as).flagT1
      = (Account.run first period { divider := s.viaDivider, ticks := 0, up := s.flagT1 } as).up

/-- The count is written in its two halves. -/
def startT1 (s : MacIo κ) (n : U16) : MacIo κ :=
  (s.viaWrite E vT1CL (n.setWidth 8)).viaWrite E vT1CH ((n >>> 8).setWidth 8)

/-- The timer runs free as it was told to: with the period of its count, and after a write to a
latch, whenever that is, to the end of the count in progress and then with the period the
latches have. -/
structure RunsFree (s : MacIo κ) (n : U16) : Prop where
  periodic : (s.startT1 E n).Keeps E (n.toNat + 1) (n.toNat + 1)
  relatched : ∀ as : List ViaAccess, (∀ a ∈ as, a.Frees) → ∀ r v, r = vT1LL ∨ r = vT1LH →
    (((s.startT1 E n).run E as).viaWrite E r v).Keeps E
      (((s.startT1 E n).run E as).t1.toNat + 1)
      ((((s.startT1 E n).run E as).viaWrite E r v).latchT1.toNat + 1)

end

/-! ## What the timer is made of -/

/-- The timer, apart from the rest of the cell. -/
structure T1 where
  running : Bool
  count : U16
  low : U8
  high : U8
  free : Bool
  divider : ℕ
  flag : Bool

variable {κ : Type}

def t1View (s : MacIo κ) : T1 where
  running := s.t1Running
  count := s.t1
  low := s.via vT1LL
  high := s.via vT1LH
  free := (s.via vACR).getLsbD 6
  divider := s.viaDivider
  flag := s.ifr.getLsbD 6

theorem and_40 (v : U8) : v &&& 0x40#8 ≠ 0#8 ↔ v.getLsbD 6 = true := by
  revert v
  decide

theorem flagT1_eq (s : MacIo κ) : s.flagT1 = s.t1View.flag := by
  simp only [flagT1, viaRead, t1View]
  split
  · simp
  · rfl

/-- A register that is not the timer's. -/
theorem t1View_setVia (s : MacIo κ) {r : ViaReg} (v : U8) (hl : r ≠ vT1LL) (hh : r ≠ vT1LH)
    (ha : r ≠ vACR) : (s.setVia r v).t1View = s.t1View := by
  simp [t1View, setVia, hl.symm, hh.symm, ha.symm]

@[simp] theorem t1View_setIfr (s : MacIo κ) (bits : U8) :
    (s.setIfr bits).t1View = { s.t1View with flag := s.t1View.flag || bits.getLsbD 6 } := by
  simp [t1View, setIfr, picLatch]

@[simp] theorem t1View_clearIfr (s : MacIo κ) (bits : U8) :
    (s.clearIfr bits).t1View = { s.t1View with flag := s.t1View.flag && !bits.getLsbD 6 } := by
  simp [t1View, clearIfr]

@[simp] theorem t1View_updateTreq (s : MacIo κ) : s.updateTreq.t1View = s.t1View := by
  have hset (v : U8) : (s.setVia vORB v).t1View = s.t1View :=
    s.t1View_setVia v (by decide) (by decide) (by decide)
  simp only [updateTreq]
  split
  · rw [t1View_setIfr, hset]
    simp
  · exact hset _

@[simp] theorem t1View_setTreq (s : MacIo κ) (v : Bool) : (s.setTreq v).t1View = s.t1View :=
  t1View_updateTreq _

/-- The flag of the shift register is not the timer's. -/
@[simp] theorem t1View_setSr (s : MacIo κ) : (s.setIfr iSR).t1View = s.t1View := by
  rw [t1View_setIfr]
  simp [iSR]

section

variable (E : PacketEngine κ)

@[simp] theorem t1View_shiftByte (s : MacIo κ) (b : U8) : (s.shiftByte E b).t1View = s.t1View := by
  have hset : ({ s with respIndex := s.respIndex + 1 }.setVia vSR b).t1View = s.t1View :=
    t1View_setVia _ b (by decide) (by decide) (by decide)
  simp only [shiftByte]
  split
  · rw [t1View_setTreq, t1View_setSr, hset]
  · rw [t1View_setSr, hset]

theorem t1View_cudaClockByte (s : MacIo κ) : (s.cudaClockByte E).t1View = s.t1View := by
  unfold cudaClockByte
  split
  · rfl
  · split
    · exact t1View_setSr _
    · split
      · split
        · rfl
        · exact t1View_shiftByte E s _
      · rfl

theorem t1View_tackEdge (s : MacIo κ) : (s.tackEdge E).t1View = s.t1View := by
  unfold tackEdge
  split
  · rw [t1View_setSr, t1View_setTreq]
  · exact t1View_cudaClockByte E s

theorem t1View_transferOpens (s : MacIo κ) : (s.transferOpens E).t1View = s.t1View := by
  unfold transferOpens
  split
  · exact t1View_shiftByte E _ _
  · split
    · exact t1View_setSr _
    · rw [t1View_setSr, t1View_setTreq]
      rfl

theorem t1View_packetEnds (s : MacIo κ) : (s.packetEnds E).t1View = s.t1View := by
  simp only [packetEnds]
  split_ifs <;> rfl

theorem t1View_responseEnds (s : MacIo κ) : (s.responseEnds E).t1View = s.t1View := by
  unfold responseEnds
  split
  · exact t1View_setTreq _ _
  · rfl

theorem t1View_transferCloses (s : MacIo κ) : (s.transferCloses E).t1View = s.t1View := by
  unfold transferCloses
  rw [t1View_setSr]
  exact (t1View_responseEnds E _).trans (t1View_packetEnds E s)

theorem t1View_syncStep (s : MacIo κ) : s.syncStep.t1View = s.t1View := by
  simp only [syncStep]
  split
  · rw [t1View_setSr, t1View_setTreq]
  · exact t1View_setTreq s _

theorem t1View_orbWrite (s : MacIo κ) (v : U8) : (s.orbWrite E v).t1View = s.t1View := by
  have hdriven (w : U8) : (s.setVia vORB w).updateTreq.t1View = s.t1View :=
    (t1View_updateTreq _).trans (s.t1View_setVia w (by decide) (by decide) (by decide))
  simp only [orbWrite]
  split_ifs
  · rw [t1View_transferOpens, hdriven]
  · rw [t1View_transferCloses, hdriven]
  · rw [t1View_tackEdge, hdriven]
  · rw [t1View_syncStep, hdriven]
  · exact hdriven _

theorem t1View_tickResponse (s : MacIo κ) : (s.tickResponse E).t1View = s.t1View := by
  simp only [tickResponse]
  split_ifs
  · exact t1View_setTreq _ _
  · rfl
  · rfl

theorem t1View_tickSync (s : MacIo κ) : s.tickSync.t1View = s.t1View := by
  simp only [tickSync]
  split_ifs
  · exact t1View_setSr _
  · rfl
  · rfl

theorem t1View_tickT2 (s : MacIo κ) : s.tickT2.t1View = s.t1View := by
  simp only [tickT2]
  split_ifs
  · refine (t1View_setIfr s iT2).trans ?_
    simp [iT2]
  · rfl
  · rfl

end

/-! ## What an access does to the timer -/

/-- The latches as they are reloaded from. -/
def T1.latch (t : T1) : U16 := (t.high.setWidth 16 <<< 8) ||| t.low.setWidth 16

/-- A tick of the VIA, for the timer while it runs free. -/
def T1.viaTick (t : T1) : T1 :=
  if t.count = 0#16 then { t with divider := 0, count := t.latch, flag := true }
  else { t with divider := 0, count := t.count - 1#16 }

theorem t1View_tickT1 {s : MacIo κ} (hrun : s.t1View.running = true)
    (hfree : s.t1View.free = true) (hdiv : s.viaDivider = 0) :
    s.tickT1.t1View = s.t1View.viaTick := by
  have hacr : (s.setIfr iT1).via vACR &&& 0x40#8 ≠ 0#8 := (and_40 _).mpr hfree
  simp only [tickT1, T1.viaTick]
  rw [if_pos (show s.t1Running = true from hrun)]
  by_cases hz : s.t1 = 0#16
  · rw [if_pos hz, if_pos (show s.t1View.count = 0#16 from hz), if_pos hacr]
    simp [t1View, setIfr, picLatch, T1.latch, hdiv, iT1]
  · rw [if_neg hz, if_neg (show ¬ s.t1View.count = 0#16 from hz)]
    simp only [t1View, hdiv]

/-- What an access does to the timer while it runs free. -/
def T1.after (t : T1) : ViaAccess → T1
  | .tick => if t.divider + 1 < 8 then { t with divider := t.divider + 1 } else t.viaTick
  | .read vT1CL => { t with flag := false }
  | .write vIFR v => { t with flag := t.flag && !v.getLsbD 6 }
  | .write vT1CL v | .write vT1LL v => { t with low := v }
  | .write vT1LH v => { t with high := v }
  | _ => t

variable (E : PacketEngine κ)

theorem t1View_tick {s : MacIo κ} (hrun : s.t1View.running = true)
    (hfree : s.t1View.free = true) : (s.tick E).t1View = s.t1View.after .tick := by
  simp only [tick, T1.after]
  by_cases hdiv : s.viaDivider + 1 < 8
  · rw [if_pos hdiv, if_pos (show s.t1View.divider + 1 < 8 from hdiv)]
    rfl
  · rw [if_neg hdiv, if_neg (show ¬ s.t1View.divider + 1 < 8 from hdiv), t1View_tickT2]
    have hview : (({ s with viaDivider := 0 }.tickResponse E).tickSync).t1View =
        { s.t1View with divider := 0 } :=
      (t1View_tickSync _).trans (t1View_tickResponse E _)
    rw [t1View_tickT1 ((congrArg T1.running hview).trans hrun)
      ((congrArg T1.free hview).trans hfree) (congrArg T1.divider hview), hview]
    rfl

theorem t1View_viaRead (s : MacIo κ) (r : ViaReg) :
    (s.viaRead r).2.t1View = s.t1View.after (.read r) := by
  cases r
  case vT1CL =>
    refine (t1View_clearIfr s iT1).trans ?_
    simp [T1.after, iT1]
  case vT2CL =>
    refine (t1View_clearIfr s iT2).trans ?_
    simp [T1.after, iT2]
  case vSR =>
    refine (t1View_clearIfr s iSR).trans ?_
    simp [T1.after, iSR]
  all_goals rfl

/-- Any write but those of the count's high byte and of the mode. -/
theorem t1View_viaWrite (s : MacIo κ) {r : ViaReg} (v : U8) (hr : r ≠ vT1CH) (ha : r ≠ vACR) :
    (s.viaWrite E r v).t1View = s.t1View.after (.write r v) := by
  cases r
  case vT1CH => exact absurd rfl hr
  case vACR => exact absurd rfl ha
  case vORB => exact t1View_orbWrite E s v
  case vIFR => exact t1View_clearIfr s v
  case vIER =>
    simp only [viaWrite]
    split <;> rfl
  case vSR =>
    refine (t1View_clearIfr _ iSR).trans ?_
    rw [s.t1View_setVia v (by decide) (by decide) (by decide)]
    simp [T1.after, iSR]
  case vT2CH =>
    refine (t1View_clearIfr _ iT2).trans ?_
    simp [T1.after, iT2, t1View]
  all_goals simp [viaWrite, T1.after, t1View, setVia]

theorem t1View_acr (s : MacIo κ) {v : U8} (hv : v.getLsbD 6 = s.t1View.free) :
    (s.viaWrite E vACR v).t1View = s.t1View := by
  simp only [viaWrite, t1View, setVia, Function.update_self]
  rw [hv]
  simp [t1View]

/-- The timer runs free, and goes on to. -/
theorem t1View_step {s : MacIo κ} {a : ViaAccess} (hrun : s.t1View.running = true)
    (hfree : s.t1View.free = true) (ha : a.Frees) :
    (s.step E a).t1View = s.t1View.after a := by
  cases a with
  | tick => exact t1View_tick E hrun hfree
  | read r => exact s.t1View_viaRead r
  | write r v =>
    by_cases hacr : r = vACR
    · subst hacr
      exact t1View_acr E s ((ha.2 rfl).trans hfree.symm)
    · exact t1View_viaWrite E s v ha.1 hacr

/-! ## Runs -/

theorem frees_of_spares {a : ViaAccess} (h : a.Spares) : a.Frees := by
  cases a with
  | tick => trivial
  | read r => trivial
  | write r v => exact ⟨h.2.1, h.2.2.2.2⟩

theorem T1.running_after (t : T1) (a : ViaAccess) :
    (t.after a).running = t.running ∧ (t.after a).free = t.free := by
  cases a with
  | tick =>
    simp only [T1.after, T1.viaTick]
    split_ifs <;> exact ⟨rfl, rfl⟩
  | read r => cases r <;> exact ⟨rfl, rfl⟩
  | write r v => cases r <;> exact ⟨rfl, rfl⟩

/-- The timer runs free, and expires next when the account says. -/
structure T1.Paced (t : T1) (first period : ℕ) (c : Account) : Prop where
  running : t.running = true
  free : t.free = true
  latch : t.latch.toNat + 1 = period
  divider : t.divider = c.divider
  flag : t.flag = c.up
  next : ∃ j, c.ticks + t.count.toNat + 1 = first + j * period ∧
    (j ≠ 0 → t.count.toNat < period)

theorem T1.Paced.viaTick {t : T1} {first period : ℕ} {c : Account} (h : t.Paced first period c) :
    t.viaTick.Paced first period (c.viaTick first period) := by
  rcases h with ⟨hrun, hfree, hlatch, hdiv, hflag, j, hnext, hshort⟩
  unfold T1.viaTick Account.viaTick
  by_cases hz : t.count = 0#16
  · -- the count is over: the tick is an expiry, and a whole period follows
    rw [if_pos hz]
    have hcount : t.count.toNat = 0 := by simp [hz]
    have hexp : Expires first period (c.ticks + 1) := by
      rw [hcount, Nat.add_zero] at hnext
      rw [hnext]
      exact expires_add j
    refine ⟨hrun, hfree, hlatch, rfl, by simp [hexp], j + 1, ?_, fun _ => ?_⟩
    · show c.ticks + 1 + t.latch.toNat + 1 = _
      rw [Nat.add_mul, Nat.one_mul]
      omega
    · show t.latch.toNat < period
      omega
  · rw [if_neg hz]
    have hcount : t.count.toNat ≠ 0 := fun h0 => hz (BitVec.eq_of_toNat_eq h0)
    have hpred : (t.count - 1#16).toNat = t.count.toNat - 1 :=
      BitVec.toNat_sub_of_le (show 1 ≤ t.count.toNat by omega)
    have hexp : ¬ Expires first period (c.ticks + 1) := by
      apply not_expires (j := j)
      · omega
      · intro hj
        have := hshort hj
        omega
    refine ⟨hrun, hfree, hlatch, rfl, by simp [hexp, hflag], j, ?_, fun hj => ?_⟩
    · show c.ticks + 1 + (t.count - 1#16).toNat + 1 = _
      omega
    · show (t.count - 1#16).toNat < period
      have := hshort hj
      omega

theorem T1.Paced.after {t : T1} {first period : ℕ} {c : Account} (h : t.Paced first period c)
    {a : ViaAccess} (ha : a.Spares) :
    (t.after a).Paced first period (c.after first period a) := by
  cases a with
  | tick =>
    simp only [T1.after, Account.after, h.divider]
    split
    · exact ⟨h.running, h.free, h.latch, rfl, h.flag, h.next⟩
    · exact h.viaTick
  | read r =>
    cases r
    case vT1CL => exact ⟨h.running, h.free, h.latch, h.divider, rfl, h.next⟩
    all_goals exact h
  | write r v =>
    rcases ha with ⟨hcl, hch, hll, hlh, -⟩
    cases r
    case vIFR =>
      have hflag := h.flag
      simp only [T1.after, Account.after]
      split
      case isTrue hv => exact ⟨h.running, h.free, h.latch, h.divider, by simp [hv], h.next⟩
      case isFalse hv =>
        rw [Bool.not_eq_true] at hv
        exact ⟨h.running, h.free, h.latch, h.divider, by rw [hv]; simpa using hflag, h.next⟩
    case vT1CL => exact absurd rfl hcl
    case vT1CH => exact absurd rfl hch
    case vT1LL => exact absurd rfl hll
    case vT1LH => exact absurd rfl hlh
    all_goals exact h

theorem paced_run {s : MacIo κ} {first period : ℕ} {c : Account}
    (h : s.t1View.Paced first period c) (as : List ViaAccess) (has : ∀ a ∈ as, a.Spares) :
    (s.run E as).t1View.Paced first period (c.run first period as) := by
  induction as generalizing s c with
  | nil => exact h
  | cons a as ih =>
    rw [List.forall_mem_cons] at has
    refine ih ?_ has.2
    rw [t1View_step E h.running h.free (frees_of_spares has.1)]
    exact h.after has.1

/-- A timer that runs free expires when its count is over, and then every time the latches
are. -/
theorem keeps_latch {s : MacIo κ} (hrun : s.t1View.running = true) (hfree : s.t1View.free = true) :
    s.Keeps E (s.t1.toNat + 1) (s.latchT1.toNat + 1) := by
  intro as has
  have hstart : s.t1View.Paced (s.t1.toNat + 1) (s.latchT1.toNat + 1)
      { divider := s.viaDivider, ticks := 0, up := s.flagT1 } :=
    ⟨hrun, hfree, rfl, rfl, s.flagT1_eq.symm, 0, by simp [t1View], fun h => absurd rfl h⟩
  rw [flagT1_eq]
  exact (paced_run E hstart as has).flag

/-- The mode and the running of the timer outlive the writes to the latches. -/
theorem free_run {s : MacIo κ} (hrun : s.t1View.running = true) (hfree : s.t1View.free = true)
    (as : List ViaAccess) (has : ∀ a ∈ as, a.Frees) :
    (s.run E as).t1View.running = true ∧ (s.run E as).t1View.free = true := by
  induction as generalizing s with
  | nil => exact ⟨hrun, hfree⟩
  | cons a as ih =>
    rw [List.forall_mem_cons] at has
    have hstep := t1View_step E hrun hfree has.1
    rcases s.t1View.running_after a with ⟨hr, hf⟩
    apply ih _ _ has.2
    · rw [hstep, hr, hrun]
    · rw [hstep, hf, hfree]

/-! ## The two periods -/

/-- A tick of the VIA can be waited for, wherever the divider stands. -/
theorem exists_viaTick (d : ℕ) : ∃ k, ∀ (first period : ℕ) (c : Account), c.divider = d →
    c.run first period (List.replicate k .tick) = c.viaTick first period := by
  induction h : 7 - d generalizing d with
  | zero =>
    refine ⟨1, fun first period c hc => ?_⟩
    exact if_neg (show ¬ c.divider + 1 < 8 by omega)
  | succ m ih =>
    rcases ih (d + 1) (by omega) with ⟨k, hk⟩
    refine ⟨k + 1, fun first period c hc => ?_⟩
    have hstep : c.after first period .tick = { c with divider := c.divider + 1 } :=
      if_pos (show c.divider + 1 < 8 by omega)
    have hrest := hk first period { c with divider := c.divider + 1 } (by simp [hc])
    rw [List.replicate_succ, show c.run first period (.tick :: List.replicate k .tick)
      = (c.after first period .tick).run first period (List.replicate k .tick) from rfl, hstep,
      hrest]
    rfl

/-- Any number of ticks of the VIA can be waited for. -/
theorem exists_waited (m : ℕ) : ∀ d, ∃ as : List ViaAccess, (∀ a ∈ as, a.Spares) ∧
    ∀ (first period : ℕ) (c : Account), c.divider = d →
      Account.Waited first period m c (c.run first period as) := by
  induction m with
  | zero =>
    refine fun d => ⟨[], fun a ha => absurd ha List.not_mem_nil, fun first period c hc => ?_⟩
    refine ⟨rfl, rfl, (or_iff_left ?_).symm⟩
    rintro ⟨n, hlt, hle, -⟩
    omega
  | succ m ih =>
    intro d
    rcases exists_viaTick d with ⟨k, hk⟩
    rcases ih 0 with ⟨as, has, hrun⟩
    refine ⟨List.replicate k .tick ++ as, ?_, fun first period c hc => ?_⟩
    · intro a ha
      rcases List.mem_append.mp ha with ha | ha
      · rw [List.eq_of_mem_replicate ha]
        trivial
      · exact has a ha
    · rw [Account.run_append, hk first period c hc]
      rcases hrun first period (c.viaTick first period) rfl with ⟨hticks, hdiv, hup⟩
      have hfirst : (c.viaTick first period).ticks = c.ticks + 1 := rfl
      have hflag : (c.viaTick first period).up = true ↔
          c.up = true ∨ Expires first period (c.ticks + 1) := by
        simp [Account.viaTick]
      refine ⟨by omega, hdiv.trans (ite_self 0), ?_⟩
      · rw [hup, hflag, hfirst, or_assoc]
        apply or_congr Iff.rfl
        constructor
        · rintro (hexp | ⟨n, hlt, hle, hexp⟩)
          · exact ⟨c.ticks + 1, by omega, by omega, hexp⟩
          · exact ⟨n, by omega, by omega, hexp⟩
        · rintro ⟨n, hlt, hle, hexp⟩
          by_cases hn : n = c.ticks + 1
          · exact Or.inl (hn ▸ hexp)
          · exact Or.inr ⟨n, by omega, by omega, hexp⟩

/-- Past the first expiry, the next one is a period away. -/
theorem exists_expires_iff {first period m : ℕ} (hp : 0 < period) :
    (∃ n, first < n ∧ n ≤ first + m ∧ Expires first period n) ↔ period ≤ m := by
  constructor
  · rintro ⟨n, hlt, hle, hexp⟩
    rcases hexp.exists with ⟨j, rfl⟩
    have hj : 1 ≤ j := by
      by_contra h0
      have : j = 0 := by omega
      subst this
      omega
    have hmul := Nat.mul_le_mul_right period hj
    omega
  · intro h
    have hexp : Expires first period (first + 1 * period) := expires_add 1
    rw [Nat.one_mul] at hexp
    exact ⟨first + period, by omega, by omega, hexp⟩

/-- Accounts that agree on every run have one period. -/
theorem period_unique {first p q : ℕ} (d : ℕ) (hp : 0 < p) (hq : 0 < q) (hfirst : 0 < first)
    (h : ∀ as : List ViaAccess, (∀ a ∈ as, a.Spares) →
      (Account.run first p { divider := d, ticks := 0, up := false } as).up
        = (Account.run first q { divider := d, ticks := 0, up := false } as).up) :
    p = q := by
  -- up to the first expiry, which is acknowledged, and on to where the shorter one expires
  rcases exists_waited first d with ⟨as, has, hwait⟩
  rcases exists_waited (min p q) 0 with ⟨as', has', hwait'⟩
  have hspares : ∀ a ∈ as ++ .read vT1CL :: as', a.Spares := by
    intro a ha
    rcases List.mem_append.mp ha with ha | ha
    · exact has a ha
    · rcases List.mem_cons.mp ha with rfl | ha
      · trivial
      · exact has' a ha
  have hup (r : ℕ) (hr : 0 < r) :
      (Account.run first r { divider := d, ticks := 0, up := false }
        (as ++ .read vT1CL :: as')).up = true ↔ r ≤ min p q := by
    rw [Account.run_append]
    rcases hwait first r { divider := d, ticks := 0, up := false } rfl with ⟨hticks, hdiv, -⟩
    generalize Account.run first r { divider := d, ticks := 0, up := false } as = c
      at hticks hdiv
    have hdiv0 : c.divider = 0 := hdiv.trans (if_neg (by omega))
    rcases hwait' first r { c with up := false } hdiv0 with ⟨-, -, hflag⟩
    have hticks' : c.ticks = first := hticks.trans (Nat.zero_add _)
    rw [show c.run first r (.read vT1CL :: as') = { c with up := false }.run first r as' from rfl,
      hflag]
    simp only [Bool.false_eq_true, false_or, hticks']
    exact exists_expires_iff hr
  have hboth := h _ hspares
  have hp' := hup p hp
  have hq' := hup q hq
  rw [hboth] at hp'
  have := hp'.symm.trans hq'
  omega

/-! ## The timer as it was told -/

theorem startT1_view {s : MacIo κ} (n : U16) :
    (s.startT1 E n).t1View = { s.t1View with
      running := true, count := (((n >>> 8).setWidth 8).setWidth 16 <<< 8)
        ||| (n.setWidth 8).setWidth 16, low := n.setWidth 8, flag := false } := by
  simp [startT1, viaWrite, t1View, setVia, clearIfr, iT1]

/-- The two halves of a count. -/
theorem halves (n : U16) :
    (((n >>> 8).setWidth 8).setWidth 16 <<< 8) ||| (n.setWidth 8).setWidth 16 = n := by
  apply BitVec.eq_of_getLsbD_eq
  intro i hi
  simp only [BitVec.getLsbD_or, BitVec.getLsbD_shiftLeft, BitVec.getLsbD_setWidth,
    BitVec.getLsbD_ushiftRight]
  by_cases h : i < 8
  · simp [h, hi]
  · simp [h, hi, show i - 8 < 8 by omega, show i - 8 < 16 by omega,
      show 8 + (i - 8) = i by omega]

/-- The high half is what is above the low one. -/
theorem high_of_halves (h l : U8) :
    ((((h.setWidth 16 : U16) <<< 8) ||| l.setWidth 16) >>> 8).setWidth 8 = h := by
  apply BitVec.eq_of_getLsbD_eq
  intro i hi
  simp only [BitVec.getLsbD_or, BitVec.getLsbD_shiftLeft, BitVec.getLsbD_setWidth,
    BitVec.getLsbD_ushiftRight]
  simp [hi, show 8 + i < 16 by omega, show i < 16 by omega]

/-- A write to a latch waits for the end of the count in progress. -/
theorem relatches {s : MacIo κ} (hrun : s.t1View.running = true) (hfree : s.t1View.free = true)
    {r : ViaReg} (v : U8) (hr : r = vT1LL ∨ r = vT1LH) :
    (s.viaWrite E r v).Keeps E (s.t1.toNat + 1) ((s.viaWrite E r v).latchT1.toNat + 1) := by
  have hwrite : (s.viaWrite E r v).t1View = s.t1View.after (.write r v) := by
    apply t1View_viaWrite
    · rcases hr with rfl | rfl <;> decide
    · rcases hr with rfl | rfl <;> decide
  have hcount : (s.viaWrite E r v).t1 = s.t1 := by
    rcases hr with rfl | rfl <;> rfl
  rcases s.t1View.running_after (.write r v) with ⟨hr', hf'⟩
  rw [← hcount]
  apply keeps_latch
  · rw [hwrite, hr', hrun]
  · rw [hwrite, hf', hfree]

/-- The timer that has been started: its count, and the high latch that it had before. -/
theorem startT1_runs {s : MacIo κ} (n : U16) (hfree : (s.via vACR).getLsbD 6 = true) :
    (s.startT1 E n).t1View.running = true ∧ (s.startT1 E n).t1View.free = true
      ∧ (s.startT1 E n).t1 = n ∧ (s.startT1 E n).flagT1 = false
      ∧ (s.startT1 E n).latchT1
        = ((s.via vT1LH).setWidth 16 <<< 8) ||| (n.setWidth 8).setWidth 16 := by
  have hview := startT1_view E n (s := s)
  rw [halves] at hview
  refine ⟨?_, ?_, ?_, ?_, ?_⟩
  · rw [hview]
  · rw [hview]
    exact hfree
  · show (s.startT1 E n).t1View.count = n
    rw [hview]
  · rw [flagT1_eq, hview]
  · show (s.startT1 E n).t1View.latch = _
    rw [hview]
    rfl

variable {E}

/-- The timer runs free as it was told exactly when its high latch had the high half of the
count already. -/
theorem runsFree_iff {s : MacIo κ} (n : U16) (hfree : (s.via vACR).getLsbD 6 = true) :
    s.RunsFree E n ↔ s.via vT1LH = (n >>> 8).setWidth 8 := by
  rcases startT1_runs E n hfree with ⟨hrun', hfree', hcount, hflag, hlatch⟩
  have hkeeps := keeps_latch E hrun' hfree'
  rw [hcount] at hkeeps
  constructor
  · intro h
    have heq : n.toNat + 1 = (s.startT1 E n).latchT1.toNat + 1 := by
      refine period_unique (s.startT1 E n).viaDivider (Nat.succ_pos _) (Nat.succ_pos _)
        (Nat.succ_pos n.toNat) fun as has => ?_
      have htold := h.periodic as has
      have hdone := hkeeps as has
      rw [hflag] at htold hdone
      exact htold.symm.trans hdone
    have hsame : ∀ l : U16, n.toNat + 1 = l.toNat + 1 → l = n := fun l hl =>
      BitVec.eq_of_toNat_eq (Nat.add_right_cancel hl).symm
    rw [← high_of_halves (s.via vT1LH) (n.setWidth 8), ← hlatch, hsame _ heq]
  · intro hhigh
    rw [hhigh, halves] at hlatch
    refine ⟨?_, fun as has r v hr => ?_⟩
    · rwa [hlatch] at hkeeps
    · rcases free_run E hrun' hfree' as has with ⟨hrunning, hfreeing⟩
      exact relatches E hrunning hfreeing v hr

/-- A VIA that has just been made, but for the free-running mode. -/
def inFreeMode : MacIo Cuda :=
  (powerOn { pram := fun _ => 0#8, resp := [], autopoll := false, timeOffset := 0#32 }).setVia
    vACR 0x40#8

theorem runsFree_iff_inFreeMode :
    inFreeMode.RunsFree Cuda.engine 0x0034#16 ↔
      inFreeMode.via vT1LH = ((0x0034#16 : U16) >>> 8).setWidth 8 :=
  runsFree_iff 0x0034#16 (by decide)

/-- With 0x0100 the first interval is of 257 ticks, and the later ones of one tick each. -/
theorem runsFree_short :
    ¬ ∀ (s : MacIo Cuda) (n : U16), (s.via vACR).getLsbD 6 = true →
      s.RunsFree Cuda.engine n := by
  intro h
  have hhigh := (runsFree_iff 0x0100#16 (by decide)).mp (h inFreeMode 0x0100#16 (by decide))
  revert hhigh
  decide

end MacIo

end OpenPowerMac
