/-
KeyLargo's interrupt controller: `machine/src/openpic.cpp`.

Sixty-four sources share one line to the processor. A source has a line that a
device holds, a pending flag that outlives the line's edge, and a vector/priority
word in which the guest keeps the mask, the sense, the priority and the vector.
Two of these can only be told apart by what clears them: an acknowledge clears the
flag of an edge but not of a level that is still up, and a falling line clears the
flag of a level but not of an edge.

The controller's history is any sequence of bus accesses and line changes. What is
proved of it is that the flag of a source is lost to nothing else (`pending_kept`),
that a level held by an unmasked source is always pending (`Held`), and that the
octet scan of the delivery decision picks what a plain sweep picks, the lowest
numbered source of the greatest priority (`Best`).

The event log, the raise tally and the list of unclaimed writes are left out:
nothing but a report reads them.
-/
import OpenPowerMac.Bytes

set_option autoImplicit false

namespace OpenPowerMac

/-- The number of an interrupt source. -/
abbrev Source := BitVec 6

/-- `OpenPic`, with its reset values. `inService` is `none` where the source has
-1. -/
structure OpenPic where
  vp : Source → U32 := fun _ => 0#32
  dest : Source → U32 := fun _ => 0#32
  line : Source → Bool := fun _ => false
  pending : Source → Bool := fun _ => false
  taskPri : U32 := 0xF#32
  spurious : U32 := 0xFF#32
  inService : Option Source := none
  global : BitVec 10 → U32 := fun _ => 0#32

namespace OpenPic

/-- `swap32`. -/
def swap32 (v : U32) : U32 :=
  (v >>> 24) ||| ((v >>> 8) &&& 0xFF00#32) ||| ((v <<< 8) &&& 0xFF0000#32) ||| (v <<< 24)

/-! ## The source -/

/-- Bit 31 of a vector/priority word: MASK. -/
def masked (vp : U32) : Bool := vp &&& 0x80000000#32 != 0#32

/-- Bit 22: SENSE, set for a level. -/
def level (vp : U32) : Bool := vp &&& 0x00400000#32 != 0#32

/-- Bits 19 to 16: the priority. -/
def pri (vp : U32) : U32 := (vp >>> 16) &&& 0xF#32

/-- The pending flags of eight sources, as the one word the scan loads. -/
def octet (p : OpenPic) (base : ℕ) : U64 :=
  ofBytesBE ((List.range 8).map fun k =>
    if p.pending (BitVec.ofNat 6 (base + k)) then 1#8 else 0#8)

/-- One trip of the scan: the best source so far, and its priority. -/
def scanSource (p : OpenPic) (b : Option Source × U32) (n : ℕ) : Option Source × U32 :=
  let s := BitVec.ofNat 6 n
  if !p.pending s || masked (p.vp s) then b
  else if b.2 < pri (p.vp s) then (some s, pri (p.vp s)) else b

/-- Eight sources: skipped together when none of them is pending. -/
def scanOctet (p : OpenPic) (b : Option Source × U32) (o : ℕ) : Option Source × U32 :=
  if p.octet (8 * o) = 0#64 then b
  else ((List.range 8).map (8 * o + ·)).foldl p.scanSource b

/-- `highestPending`. -/
def highestPending (p : OpenPic) : Option Source :=
  ((List.range 8).foldl p.scanOctet (none, p.taskPri)).1

/-- `cpuLine`. -/
def cpuLine (p : OpenPic) : Bool := p.inService.isNone && p.highestPending.isSome

/-- `iack`. -/
def iack (p : OpenPic) : U32 × OpenPic :=
  match p.highestPending with
  | none => (p.spurious, p)
  | some s =>
      let keeps := level (p.vp s) && p.line s
      (p.vp s &&& 0xFF#32,
        { p with
          pending := if keeps then p.pending else Function.update p.pending s false
          inService := some s })

/-- The source a register offset names. -/
def sourceOf (off : U32) : Source := ((off - 0x10000#32) >>> 5).setWidth 6

/-- The value a bus access of `len` bytes carries. -/
def wire (len : ℕ) (v : U32) : U32 := if len = 4 then swap32 v else v

/-- `OpenPic::read`. -/
def read (p : OpenPic) (off : U32) (len : ℕ) : U32 × OpenPic :=
  if off - 0x10000#32 < 0x800#32 then
    let s := sourceOf off
    let native := if off &&& 0x10#32 ≠ 0#32 then p.dest s else p.vp s
    let native :=
      if p.pending s ∧ off &&& 0x10#32 = 0#32 then native ||| 0x40000000#32 else native
    (wire len native, p)
  else if off - 0x1000#32 < 0x1000#32 then
    (wire len (p.global (((off - 0x1000#32) >>> 2).setWidth 10)), p)
  else if off = 0x200A0#32 then
    let r := p.iack
    (wire len r.1, r.2)
  else if off = 0x20080#32 then (wire len p.taskPri, p)
  else (wire len 0#32, p)

/-- The write of a vector/priority word: unmasking a held line pends it again. -/
def writeVp (p : OpenPic) (s : Source) (native : U32) : OpenPic :=
  { p with
    vp := Function.update p.vp s (native &&& ~~~0x40000000#32)
    pending := if !masked native && p.line s then Function.update p.pending s true else p.pending }

/-- `OpenPic::write`. -/
def write (p : OpenPic) (off v : U32) (len : ℕ) : OpenPic :=
  let native := wire len v
  if off - 0x10000#32 < 0x800#32 then
    if off &&& 0x10#32 ≠ 0#32 then
      { p with dest := Function.update p.dest (sourceOf off) native }
    else p.writeVp (sourceOf off) native
  else if off - 0x1000#32 < 0x1000#32 then
    { p with
      global := Function.update p.global (((off - 0x1000#32) >>> 2).setWidth 10) native
      spurious := if off = 0x10E0#32 then native &&& 0xFF#32 else p.spurious }
  else if off = 0x20080#32 then { p with taskPri := native &&& 0xF#32 }
  else if off = 0x200B0#32 then { p with inService := none }
  else p

/-- `OpenPic::setLine`. -/
def setLine (p : OpenPic) (src : U32) (up : Bool) : OpenPic :=
  if 64#32 ≤ src then p
  else
    let s : Source := src.setWidth 6
    let pended := if up && !p.line s then Function.update p.pending s true else p.pending
    { p with
      line := Function.update p.line s up
      pending := if !up && level (p.vp s) then Function.update pended s false else pended }

/-! ## Histories -/

/-- One event: a device moves a line, or the guest reads or writes a register. -/
inductive Op where
  | setLine (src : U32) (up : Bool)
  | read (off : U32) (len : ℕ)
  | write (off v : U32) (len : ℕ)

def Op.exec (p : OpenPic) : Op → OpenPic
  | .setLine src up => p.setLine src up
  | .read off len => (p.read off len).2
  | .write off v len => p.write off v len

def run (p : OpenPic) (ops : List Op) : OpenPic := ops.foldl Op.exec p

/-- The event takes the flag of `s` away: an acknowledge that returns its vector, or
the fall of its line while it is a level. -/
def Releases (p : OpenPic) (s : Source) : Op → Prop
  | .setLine src up => src < 64#32 ∧ src.setWidth 6 = s ∧ up = false ∧ level (p.vp s) = true
  | .read off _ => off = 0x200A0#32 ∧ p.highestPending = some s
  | .write .. => False

/-- A property of the events of a run, each at the state it meets. -/
def Along (P : OpenPic → Op → Prop) : OpenPic → List Op → Prop
  | _, [] => True
  | p, op :: ops => P p op ∧ Along P (op.exec p) ops

/-! ## The scan -/

/-- A source the controller could deliver. -/
def Eligible (p : OpenPic) (s : Source) : Prop :=
  p.pending s = true ∧ masked (p.vp s) = false ∧ p.taskPri < pri (p.vp s)

/-- The lowest-numbered source of the greatest priority. -/
structure Best (p : OpenPic) (s : Source) : Prop where
  eligible : p.Eligible s
  greatest : ∀ t, p.Eligible t → pri (p.vp t) ≤ pri (p.vp s)
  lowest : ∀ t, p.Eligible t → pri (p.vp t) = pri (p.vp s) → s ≤ t

variable {p : OpenPic}

theorem ofBytesBE_zeros (n : ℕ) : ofBytesBE (List.replicate n 0#8) = 0#64 := by
  induction n with
  | zero => rfl
  | succ n ih =>
    rw [List.replicate_succ', ofBytesBE_concat, ih]
    rfl

/-- A word of at most eight bytes is zero only if every byte is. -/
theorem ofBytesBE_eq_zero (bs : List U8) (hlen : bs.length ≤ 8) (h : ofBytesBE bs = 0#64) :
    ∀ b ∈ bs, b = 0#8 := by
  have hzeros : bs = List.replicate bs.length 0#8 :=
    ofBytesBE_inj (by rw [List.length_replicate]) hlen (by rw [h, ofBytesBE_zeros])
  intro b hb
  rw [hzeros] at hb
  exact List.eq_of_mem_replicate hb

/-- The word is zero only if no flag is set. -/
theorem octet_eq_zero {base : ℕ} (h : p.octet base = 0#64) {k : ℕ} (hk : k < 8) :
    p.pending (BitVec.ofNat 6 (base + k)) = false := by
  have hbyte := ofBytesBE_eq_zero _ (by simp) h _
    (List.mem_map_of_mem (List.mem_range.mpr hk))
  by_contra hset
  rw [Bool.not_eq_false] at hset
  rw [if_pos hset] at hbyte
  exact absurd hbyte (by decide)

theorem scanSource_idle {n : ℕ} (h : p.pending (BitVec.ofNat 6 n) = false)
    (b : Option Source × U32) : p.scanSource b n = b := by
  unfold scanSource
  simp only [h, Bool.not_false, Bool.true_or, if_true]

/-- Skipping an octet is sweeping it. -/
theorem scanOctet_eq (b : Option Source × U32) (o : ℕ) :
    p.scanOctet b o = ((List.range 8).map (8 * o + ·)).foldl p.scanSource b := by
  unfold scanOctet
  by_cases hzero : p.octet (8 * o) = 0#64
  · rw [if_pos hzero]
    have hidle : ∀ l : List ℕ, (∀ k ∈ l, k < 8) →
        (l.map (8 * o + ·)).foldl p.scanSource b = b := by
      intro l
      induction l with
      | nil => exact fun _ => rfl
      | cons k l ih =>
          intro hl
          rw [List.map_cons, List.foldl_cons,
            scanSource_idle (octet_eq_zero hzero (hl k List.mem_cons_self))]
          exact ih fun j hj => hl j (List.mem_cons_of_mem k hj)
    exact (hidle (List.range 8) fun k hk => List.mem_range.mp hk).symm
  · rw [if_neg hzero]

/-- The plain sweep, over the sources below `n`. -/
def sweep (p : OpenPic) (n : ℕ) : Option Source × U32 :=
  (List.range n).foldl p.scanSource (none, p.taskPri)

theorem sweep_succ (p : OpenPic) (n : ℕ) : p.sweep (n + 1) = p.scanSource (p.sweep n) n := by
  unfold sweep
  rw [List.range_succ, List.foldl_append]
  rfl

/-- **The octet scan is the plain sweep.** -/
theorem highestPending_eq (p : OpenPic) : p.highestPending = (p.sweep 64).1 := by
  have hoctets : ∀ n, (List.range n).foldl p.scanOctet (none, p.taskPri) = p.sweep (8 * n) := by
    intro n
    induction n with
    | zero => rfl
    | succ n ih =>
        have hsplit : List.range (8 * (n + 1)) = List.range (8 * n) ++ (List.range 8).map (8 * n + ·) := by
          rw [Nat.mul_succ, List.range_add]
        rw [List.range_succ, List.foldl_append, ih, List.foldl_cons, List.foldl_nil, scanOctet_eq]
        unfold sweep
        rw [hsplit, List.foldl_append]
  unfold highestPending
  rw [hoctets 8]

/-- What the sweep knows of the sources below `n`. -/
structure Swept (p : OpenPic) (n : ℕ) (b : Option Source × U32) : Prop where
  none : b.1 = none → b.2 = p.taskPri
  some : ∀ s, b.1 = some s → p.Eligible s ∧ b.2 = pri (p.vp s) ∧ s.toNat < n
  greatest : ∀ t : Source, t.toNat < n → p.Eligible t → pri (p.vp t) ≤ b.2
  lowest : ∀ t : Source, t.toNat < n → p.Eligible t → pri (p.vp t) = b.2 →
    ∃ s, b.1 = Option.some s ∧ s ≤ t

theorem Eligible.pos {s : Source} (h : p.Eligible s) : ¬ pri (p.vp s) ≤ p.taskPri :=
  BitVec.not_le.mpr h.2.2

namespace Swept

variable {n : ℕ} {b : Option Source × U32} (h : p.Swept n b) (hn : n < 64)
include h

/-- What is known of the best so far stays known. -/
theorem some_succ : ∀ s, b.1 = Option.some s →
    p.Eligible s ∧ b.2 = pri (p.vp s) ∧ s.toNat < n + 1 := by
  intro s hs
  obtain ⟨he, hpri, hlt⟩ := h.some s hs
  exact ⟨he, hpri, by omega⟩

omit h in
theorem lt_succ_iff {t : Source} (hn : n < 64) :
    t.toNat < n + 1 ↔ t.toNat < n ∨ t = BitVec.ofNat 6 n := by
  have hnat : (BitVec.ofNat 6 n).toNat = n := by
    rw [BitVec.toNat_ofNat, Nat.mod_eq_of_lt (by omega)]
  constructor
  · intro ht
    by_cases hlt : t.toNat < n
    · exact Or.inl hlt
    · exact Or.inr (BitVec.eq_of_toNat_eq (by omega))
  · rintro (hlt | rfl) <;> omega

include hn

/-- The next source cannot be delivered. -/
theorem skip (hnot : ¬ p.Eligible (BitVec.ofNat 6 n)) : p.Swept (n + 1) b := by
  refine ⟨h.none, h.some_succ, fun t ht he => ?_, fun t ht he => ?_⟩
  · rcases (lt_succ_iff hn).mp ht with hlt | rfl
    · exact h.greatest t hlt he
    · exact absurd he hnot
  · rcases (lt_succ_iff hn).mp ht with hlt | rfl
    · exact h.lowest t hlt he
    · exact absurd he hnot

/-- The next source has a greater priority: whatever came before is strictly below it. -/
theorem beat (hpend : p.pending (BitVec.ofNat 6 n) = true)
    (hmask : masked (p.vp (BitVec.ofNat 6 n)) = false)
    (hbeat : b.2 < pri (p.vp (BitVec.ofNat 6 n))) :
    p.Swept (n + 1) (Option.some (BitVec.ofNat 6 n), pri (p.vp (BitVec.ofNat 6 n))) := by
  have htask : p.taskPri < pri (p.vp (BitVec.ofNat 6 n)) := by
    cases hbest : b.1 with
    | none =>
        rw [← h.none hbest]
        exact hbeat
    | some s =>
        obtain ⟨he, hpri, -⟩ := h.some s hbest
        rw [hpri] at hbeat
        exact BitVec.lt_trans he.2.2 hbeat
  have hbelow : ∀ t : Source, t.toNat < n → p.Eligible t →
      pri (p.vp t) < pri (p.vp (BitVec.ofNat 6 n)) := by
    intro t hlt he
    have hle := h.greatest t hlt he
    bv_omega
  refine ⟨fun hb => absurd hb (by simp), fun s hs => ?_, fun t ht he => ?_, fun t ht he heq => ?_⟩
  · rw [Option.some.injEq] at hs
    rw [← hs]
    exact ⟨⟨hpend, hmask, htask⟩, rfl, (lt_succ_iff hn).mpr (Or.inr rfl)⟩
  · rcases (lt_succ_iff hn).mp ht with hlt | rfl
    · exact BitVec.le_of_lt (hbelow t hlt he)
    · exact BitVec.le_refl _
  · rcases (lt_succ_iff hn).mp ht with hlt | rfl
    · have hlt' := hbelow t hlt he
      rw [heq] at hlt'
      exact absurd hlt' (BitVec.lt_irrefl _)
    · exact ⟨_, rfl, BitVec.le_refl _⟩

/-- The next source has no greater priority: with an equal one, a source below it has it already. -/
theorem keep (hkeep : ¬ b.2 < pri (p.vp (BitVec.ofNat 6 n))) : p.Swept (n + 1) b := by
  have hnat : (BitVec.ofNat 6 n).toNat = n := by
    rw [BitVec.toNat_ofNat, Nat.mod_eq_of_lt (by omega)]
  refine ⟨h.none, h.some_succ, fun t ht he => ?_, fun t ht he heq => ?_⟩
  · rcases (lt_succ_iff hn).mp ht with hlt | rfl
    · exact h.greatest t hlt he
    · exact BitVec.not_lt.mp hkeep
  · rcases (lt_succ_iff hn).mp ht with hlt | rfl
    · exact h.lowest t hlt he heq
    · cases hbest : b.1 with
      | none =>
          rw [h.none hbest] at heq
          exact absurd (by rw [heq]; exact BitVec.le_refl _) he.pos
      | some s =>
          obtain ⟨-, -, hlt⟩ := h.some s hbest
          exact ⟨s, rfl, by rw [BitVec.le_def]; omega⟩

end Swept

/-- The sweep keeps the first of the greatest. -/
theorem sweep_swept (p : OpenPic) : ∀ n ≤ 64, p.Swept n (p.sweep n) := by
  intro n
  induction n with
  | zero =>
      intro _
      refine ⟨fun _ => rfl, fun s hs => absurd hs (by simp [sweep]), fun t ht => ?_, fun t ht => ?_⟩
      · exact absurd ht (Nat.not_lt_zero _)
      · exact absurd ht (Nat.not_lt_zero _)
  | succ n ih =>
      intro hn
      have h := ih (by omega)
      have hn64 : n < 64 := by omega
      rw [sweep_succ]
      unfold scanSource
      by_cases hskip : (!p.pending (BitVec.ofNat 6 n) || masked (p.vp (BitVec.ofNat 6 n))) = true
      · have hnot : ¬ p.Eligible (BitVec.ofNat 6 n) := by
          rintro ⟨hpend, hmask, -⟩
          rw [hpend, hmask] at hskip
          exact absurd hskip (by simp)
        simp only [hskip, if_true]
        exact h.skip hn64 hnot
      · simp only [hskip, Bool.false_eq_true, if_false]
        rw [Bool.not_eq_true, Bool.or_eq_false_iff, Bool.not_eq_false'] at hskip
        by_cases hbeat : (p.sweep n).2 < pri (p.vp (BitVec.ofNat 6 n))
        · rw [if_pos hbeat]
          exact h.beat hn64 hskip.1 hskip.2 hbeat
        · rw [if_neg hbeat]
          exact h.keep hn64 hbeat

/-- **The delivery decision**: the lowest-numbered source of the greatest priority. -/
theorem highestPending_best {s : Source} (h : p.highestPending = some s) : p.Best s := by
  have hswept := p.sweep_swept 64 (le_refl _)
  rw [highestPending_eq] at h
  obtain ⟨he, hpri, -⟩ := hswept.some s h
  refine ⟨he, fun t ht => ?_, fun t ht heq => ?_⟩
  · rw [← hpri]
    exact hswept.greatest t t.isLt ht
  · rw [← hpri] at heq
    obtain ⟨s', hs', hle⟩ := hswept.lowest t t.isLt ht heq
    rw [h, Option.some.injEq] at hs'
    rw [hs']
    exact hle

/-- Something that can be delivered is found. -/
theorem highestPending_isSome {s : Source} (h : p.Eligible s) : p.highestPending.isSome = true := by
  have hswept := p.sweep_swept 64 (le_refl _)
  rw [highestPending_eq]
  cases hbest : (p.sweep 64).1 with
  | some t => rfl
  | none =>
      have hle := hswept.greatest s s.isLt h
      rw [hswept.none hbest] at hle
      exact absurd hle h.pos

/-! ## Flags -/

/-- Every way a flag can change: set, or cleared by a release. -/
theorem exec_pending (p : OpenPic) (s : Source) {op : Op} (hkeep : ¬ p.Releases s op)
    (h : p.pending s = true) : (op.exec p).pending s = true := by
  cases op with
  | setLine src up =>
      show (p.setLine src up).pending s = true
      unfold setLine
      by_cases hout : 64#32 ≤ src
      · rw [if_pos hout]
        exact h
      · rw [if_neg hout]
        -- the rising edge only sets, so the flag is lost to the falling edge or not at all
        have hraise : (if up && !p.line (src.setWidth 6) then
            Function.update p.pending (src.setWidth 6) true else p.pending) s = true := by
          split
          · by_cases hs : s = src.setWidth 6
            · rw [hs, Function.update_self]
            · rw [Function.update_of_ne hs]
              exact h
          · exact h
        simp only
        split
        · rename_i hfall
          rw [Bool.and_eq_true, Bool.not_eq_true'] at hfall
          by_cases hs : s = src.setWidth 6
          · exfalso
            rw [← hs] at hfall
            exact hkeep ⟨BitVec.not_le.mp hout, hs.symm, hfall.1, hfall.2⟩
          · rw [Function.update_of_ne hs]
            exact hraise
        · exact hraise
  | read off len =>
      show (p.read off len).2.pending s = true
      unfold read
      split
      · exact h
      · split
        · exact h
        · split
          · rename_i hoff
            show p.iack.2.pending s = true
            unfold iack
            cases hbest : p.highestPending with
            | none => exact h
            | some t =>
                -- the acknowledge takes the highest pending source, and that release is excluded
                have hne : s ≠ t := fun hs => hkeep ⟨hoff, by rw [hbest, hs]⟩
                simp only
                split
                · exact h
                · rw [Function.update_of_ne hne]
                  exact h
          · split <;> exact h
  | write off v len =>
      show (p.write off v len).pending s = true
      unfold write
      simp only
      split
      · split
        · exact h
        · unfold writeVp
          simp only
          split
          · by_cases hs : s = sourceOf off
            · rw [hs, Function.update_self]
            · rw [Function.update_of_ne hs]
              exact h
          · exact h
      · split
        · exact h
        · split
          · exact h
          · split <;> exact h

/-- **A flag is kept** through every run that does not release it. -/
theorem pending_kept (s : Source) (ops : List Op) : ∀ p : OpenPic, p.pending s = true →
    Along (fun q op => ¬ q.Releases s op) p ops → (p.run ops).pending s = true := by
  induction ops with
  | nil => exact fun p h _ => h
  | cons op ops ih =>
      intro p h hrun
      exact ih _ (exec_pending p s hrun.1 h) hrun.2

/-- A rising line pends. -/
theorem setLine_rises (p : OpenPic) {src : U32} (hsrc : src < 64#32)
    (hlow : p.line (src.setWidth 6) = false) :
    (p.setLine src true).pending (src.setWidth 6) = true := by
  unfold setLine
  rw [if_neg (BitVec.not_le.mpr hsrc)]
  simp only [hlow, Bool.not_false, Bool.and_self, if_true, Bool.not_true, Bool.false_and,
    Bool.false_eq_true, if_false, Function.update_self]

/-! ## Levels -/

/-- An unmasked level that is up is pending. -/
def Held (p : OpenPic) : Prop :=
  ∀ s, level (p.vp s) = true → masked (p.vp s) = false → p.line s = true → p.pending s = true

theorem Held.setLine (h : p.Held) (src : U32) (up : Bool) : (p.setLine src up).Held := by
  unfold OpenPic.setLine
  by_cases hout : 64#32 ≤ src
  · rw [if_pos hout]
    exact h
  · rw [if_neg hout]
    intro s hlevel hmask hline
    simp only at hlevel hmask hline ⊢
    by_cases hs : s = src.setWidth 6
    · -- the line that moved: up, so it does not fall, and it was up or has risen
      rw [hs, Function.update_self] at hline
      simp only [hline, Bool.not_true, Bool.false_and, Bool.false_eq_true, if_false, Bool.true_and]
      cases hold : p.line (src.setWidth 6) with
      | false =>
          simp only [Bool.not_false, if_true]
          rw [hs, Function.update_self]
      | true =>
          simp only [Bool.not_true, Bool.false_eq_true, if_false]
          rw [hs] at hlevel hmask ⊢
          exact h _ hlevel hmask hold
    · rw [Function.update_of_ne hs] at hline
      have hold := h s hlevel hmask hline
      have hraise : (if up && !p.line (src.setWidth 6) then
          Function.update p.pending (src.setWidth 6) true else p.pending) s = true := by
        split
        · rw [Function.update_of_ne hs]
          exact hold
        · exact hold
      split
      · rw [Function.update_of_ne hs]
        exact hraise
      · exact hraise

theorem Held.iack (h : p.Held) : p.iack.2.Held := by
  unfold OpenPic.iack
  cases hbest : p.highestPending with
  | none => exact h
  | some t =>
      intro s hlevel hmask hline
      simp only at hlevel hmask hline ⊢
      have hold := h s hlevel hmask hline
      split
      · exact hold
      · rename_i hkeeps
        -- the source acknowledged is an edge, or its line is down
        have hne : s ≠ t := by
          intro hs
          rw [← hs, hlevel, hline] at hkeeps
          exact hkeeps rfl
        rw [Function.update_of_ne hne]
        exact hold

theorem Held.read (h : p.Held) (off : U32) (len : ℕ) : (p.read off len).2.Held := by
  unfold OpenPic.read
  split
  · exact h
  · split
    · exact h
    · split
      · exact h.iack
      · split <;> exact h

/-- ACTIVITY is no part of the mask or the sense. -/
theorem masked_stored (v : U32) : masked (v &&& ~~~0x40000000#32) = masked v := by
  unfold masked
  rw [BitVec.and_assoc]
  rfl

theorem Held.writeVp (h : p.Held) (s : Source) (native : U32) : (p.writeVp s native).Held := by
  intro t hlevel hmask hline
  have hline' : p.line t = true := hline
  unfold OpenPic.writeVp at hlevel hmask ⊢
  simp only at hlevel hmask ⊢
  by_cases ht : t = s
  · -- unmasking a held line pends it
    rw [ht, Function.update_self, masked_stored] at hmask
    rw [ht] at hline'
    simp only [hmask, hline', Bool.not_false, Bool.and_self, if_true]
    rw [ht, Function.update_self]
  · rw [Function.update_of_ne ht] at hlevel hmask
    have hold := h t hlevel hmask hline'
    split
    · rw [Function.update_of_ne ht]
      exact hold
    · exact hold

theorem Held.write (h : p.Held) (off v : U32) (len : ℕ) : (p.write off v len).Held := by
  unfold OpenPic.write
  simp only
  split
  · split
    · exact h
    · exact h.writeVp _ _
  · split
    · exact h
    · split
      · exact h
      · split <;> exact h

theorem Held.exec (h : p.Held) (op : Op) : (op.exec p).Held := by
  cases op with
  | setLine src up => exact h.setLine src up
  | read off len => exact h.read off len
  | write off v len => exact h.write off v len

theorem Held.run (ops : List Op) : ∀ p : OpenPic, p.Held → (p.run ops).Held := by
  induction ops with
  | nil => exact fun p h => h
  | cons op ops ih => exact fun p h => ih _ (h.exec op)

theorem reset_held : ({} : OpenPic).Held := fun _ _ _ hline => absurd hline (by simp)

/-- A held level is delivered when nothing stands in its way. -/
theorem Held.cpuLine (h : p.Held) {s : Source} (hlevel : level (p.vp s) = true)
    (hmask : masked (p.vp s) = false) (hline : p.line s = true) (hidle : p.inService = none)
    (hpri : p.taskPri < pri (p.vp s)) : p.cpuLine = true := by
  unfold OpenPic.cpuLine
  rw [hidle, highestPending_isSome ⟨h s hlevel hmask hline, hmask, hpri⟩]
  rfl

/-! ## The controller's contract -/

/-- The read of the acknowledge register. -/
theorem read_iack (p : OpenPic) (len : ℕ) :
    p.read 0x200A0#32 len = (wire len p.iack.1, p.iack.2) := rfl

/-- **No edge is lost and no level is dropped**, in any history from reset; and every
acknowledge answers the best source, or the spurious vector when there is none. -/
theorem loses_nothing (ops : List Op) :
    (∀ src : U32, src < 64#32 → (run {} ops).line (src.setWidth 6) = false → ∀ more,
      Along (fun q op => ¬ q.Releases (src.setWidth 6) op) ((run {} ops).setLine src true) more →
        (((run {} ops).setLine src true).run more).pending (src.setWidth 6) = true)
    ∧ (∀ s, level ((run {} ops).vp s) = true → masked ((run {} ops).vp s) = false →
        (run {} ops).line s = true → (run {} ops).inService = none →
        (run {} ops).taskPri < pri ((run {} ops).vp s) → (run {} ops).cpuLine = true)
    ∧ (∀ len, match (run {} ops).highestPending with
        | some s => (run {} ops).Best s
            ∧ ((run {} ops).read 0x200A0#32 len).1 = wire len ((run {} ops).vp s &&& 0xFF#32)
        | none => (∀ s, ¬ (run {} ops).Eligible s)
            ∧ ((run {} ops).read 0x200A0#32 len).1 = wire len (run {} ops).spurious) := by
  have hheld : (run {} ops).Held := Held.run ops _ reset_held
  refine ⟨fun src hsrc hlow more hrun => ?_, fun s hlevel hmask hline hidle hpri => ?_, fun len => ?_⟩
  · exact pending_kept _ more _ (setLine_rises _ hsrc hlow) hrun
  · exact hheld.cpuLine hlevel hmask hline hidle hpri
  · rw [read_iack]
    unfold iack
    cases hbest : (run {} ops).highestPending with
    | some s => exact ⟨highestPending_best hbest, rfl⟩
    | none =>
        refine ⟨fun s he => ?_, rfl⟩
        have hfound := highestPending_isSome he
        rw [hbest] at hfound
        exact absurd hfound (by simp)

/-- The guest opens sources 3 and 7 at priorities 8 and 9, the first a level and the
second an edge, and lowers the task priority. -/
def opened : List Op :=
  [.write 0x20080#32 0#32 1, .write 0x10060#32 0x00480011#32 1, .write 0x100E0#32 0x00090022#32 1]

/-- The edge of source 7 survives a falling line, an acknowledge of it takes it, and the
level of source 3 is then delivered once the first is out of service. -/
theorem loses_nothing_opened :
    (((run {} opened).setLine 7#32 true).run
        [.setLine 3#32 true, .setLine 7#32 false]).pending 7#6 = true
      ∧ (run {} (opened ++ [.setLine 3#32 true, .setLine 7#32 true, .read 0x200A0#32 4,
          .write 0x200B0#32 0#32 4])).cpuLine = true
      ∧ ((run {} (opened ++ [.setLine 3#32 true, .setLine 7#32 true])).read 0x200A0#32 1).1
          = 0x22#32 := by
  refine ⟨?_, ?_, ?_⟩
  · refine (loses_nothing opened).1 7#32 (by decide) (by decide) _ ⟨?_, ?_, trivial⟩
    · rintro ⟨-, hs, -⟩
      exact absurd hs (by decide)
    · rintro ⟨-, -, -, hlevel⟩
      exact absurd hlevel (by decide)
  · exact (loses_nothing _).2.1 3#6 (by decide) (by decide) (by decide) (by decide) (by decide)
  · have hbest := (loses_nothing (opened ++ [.setLine 3#32 true, .setLine 7#32 true])).2.2 1
    have hseven : (run {} (opened ++ [.setLine 3#32 true, .setLine 7#32 true])).highestPending
        = some 7#6 := by decide
    rw [hseven] at hbest
    rw [hbest.2]
    decide

end OpenPic

end OpenPowerMac
