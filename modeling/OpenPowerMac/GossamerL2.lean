/-
The inline cache of the memory controller, as a direct-mapped cache over the banks.

Bursts bring lines in, single accesses only find them, and a line that is thrown out goes
back through the banks byte by byte. `plan` and `toState` read the bus as an instance of the
library's cache; what a byte is seen to hold (`seen`) is then kept by everything but the
writes to it. A run of accesses to bytes the banks keep apart reads what a flat memory
would give (`inlineL2_transparent`).
-/
import OpenPowerMac.GossamerSized
import OpenPowerMac.DirectMapped

set_option autoImplicit false

namespace OpenPowerMac

namespace Gossamer

open DirectMapped

/-! ## Addresses and lines -/

/-- The byte `o` of line `k`. -/
def byteOf (k : U32) (o : BitVec 5) : U32 := (k <<< 5) + o.setWidth 32

theorem lineOff_toNat (a : U32) : (GossamerBus.lineOff a).toNat = a.toNat % 32 := by
  rw [GossamerBus.lineOff, BitVec.toNat_setWidth]

theorem line_toNat (a : U32) : (a >>> 5).toNat = a.toNat / 32 := by
  rw [BitVec.toNat_ushiftRight, Nat.shiftRight_eq_div_pow]

theorem byteOf_toNat {k : U32} (hk : k.toNat < 2 ^ 27) (o : BitVec 5) :
    (byteOf k o).toNat = k.toNat * 32 + o.toNat := by
  have ho := o.isLt
  rw [byteOf, BitVec.toNat_add, BitVec.toNat_shiftLeft, BitVec.toNat_setWidth, Nat.shiftLeft_eq]
  omega

theorem line_lt (a : U32) : (a >>> 5).toNat < 2 ^ 27 := by
  have ha := a.isLt
  rw [line_toNat]
  omega

/-- An address is its byte of its line. -/
theorem byteOf_self (a : U32) : byteOf (a >>> 5) (GossamerBus.lineOff a) = a := by
  apply BitVec.eq_of_toNat_eq
  rw [byteOf_toNat (line_lt a), line_toNat, lineOff_toNat]
  omega

theorem line_byteOf {k : U32} (hk : k.toNat < 2 ^ 27) (o : BitVec 5) : byteOf k o >>> 5 = k := by
  have ho := o.isLt
  apply BitVec.eq_of_toNat_eq
  rw [line_toNat, byteOf_toNat hk]
  omega

theorem lineOff_byteOf {k : U32} (hk : k.toNat < 2 ^ 27) (o : BitVec 5) :
    GossamerBus.lineOff (byteOf k o) = o := by
  have ho := o.isLt
  apply BitVec.eq_of_toNat_eq
  rw [lineOff_toNat, byteOf_toNat hk]
  omega

theorem line_base (a : U32) : a &&& ~~~31#32 = (a >>> 5) <<< 5 := by
  rw [BitVec.shiftLeft_ushiftRight, show BitVec.allOnes 32 <<< 5 = ~~~31#32 by decide]

/-- A step that stays in the line. -/
theorem line_add {a : U32} {k : ℕ} (h : (a &&& 31#32).toNat + k < 32) :
    (a + BitVec.ofNat 32 k).toNat = a.toNat + k ∧ (a + BitVec.ofNat 32 k) >>> 5 = a >>> 5 ∧
      GossamerBus.lineOff (a + BitVec.ofNat 32 k) = GossamerBus.lineOff a + (BitVec.ofNat 32 k).setWidth 5 := by
  rw [GossamerBus.and_line_toNat] at h
  have ha := a.isLt
  have hsum : (a + BitVec.ofNat 32 k).toNat = a.toNat + k := by
    rw [BitVec.toNat_add, BitVec.toNat_ofNat]
    omega
  refine ⟨hsum, ?_, ?_⟩
  · apply BitVec.eq_of_toNat_eq
    rw [line_toNat, line_toNat, hsum]
    omega
  · apply BitVec.eq_of_toNat_eq
    rw [lineOff_toNat, hsum, BitVec.toNat_add, lineOff_toNat, BitVec.toNat_setWidth, BitVec.toNat_ofNat]
    omega

namespace GossamerBus

variable {μ α : Type} (chips : Chips μ α)

/-! ## The banks -/

theorem and_ramMask_toNat (s : GossamerBus μ α) (x : U32) :
    (x &&& s.ramMask).toNat = x.toNat % 2 ^ s.ramLog := by
  have hx := x.isLt
  by_cases hlog : s.ramLog < 32
  · have hmask : s.ramMask.toNat = 2 ^ s.ramLog - 1 := by
      have hlt : 2 ^ s.ramLog < 2 ^ 32 := Nat.pow_lt_pow_right (by decide) hlog
      have hpos : 0 < 2 ^ s.ramLog := Nat.two_pow_pos _
      rw [ramMask, BitVec.toNat_sub, BitVec.toNat_ofNat]
      change (2 ^ 32 - 1 + 2 ^ s.ramLog % 2 ^ 32) % 2 ^ 32 = _
      omega
    rw [BitVec.toNat_and, hmask, Nat.and_two_pow_sub_one_eq_mod]
  · have hmask : s.ramMask = BitVec.allOnes 32 := by
      have hzero : BitVec.ofNat 32 (2 ^ s.ramLog) = 0#32 := by
        apply BitVec.eq_of_toNat_eq
        rw [BitVec.toNat_ofNat]
        exact Nat.mod_eq_zero_of_dvd (pow_dvd_pow 2 (by omega))
      rw [ramMask, hzero]
      decide
    rw [hmask, BitVec.and_allOnes, Nat.mod_eq_of_lt]
    exact lt_of_lt_of_le hx (Nat.pow_le_pow_right (by decide) (by omega))

/-- A step inside a line is a step in the module, wrapping where it wraps. -/
theorem and_ramMask_add (s : GossamerBus μ α) (x y : U32) :
    ((x &&& s.ramMask) + y) &&& s.ramMask = (x + y) &&& s.ramMask := by
  apply BitVec.eq_of_toNat_eq
  rw [and_ramMask_toNat, and_ramMask_toNat, BitVec.toNat_add, BitVec.toNat_add, and_ramMask_toNat]
  have hx := x.isLt
  by_cases hlog : s.ramLog ≤ 32
  · rw [Nat.mod_mod_of_dvd _ (pow_dvd_pow 2 hlog), Nat.mod_mod_of_dvd _ (pow_dvd_pow 2 hlog),
      Nat.mod_add_mod]
  · have hbig : x.toNat % 2 ^ s.ramLog = x.toNat :=
      Nat.mod_eq_of_lt (lt_of_lt_of_le hx (Nat.pow_le_pow_right (by decide) (by omega)))
    rw [hbig]

/-- A bank holds a line whole or not at all. -/
theorem bankClaim_add (s : GossamerBus μ α) {a : U32} {k : ℕ} (h : (a &&& 31#32).toNat + k < 32)
    (n : Fin 8) :
    s.bankClaim (a + BitVec.ofNat 32 k) n =
      (s.bankClaim a n).map fun r => (r + BitVec.ofNat 32 k) &&& s.ramMask := by
  obtain ⟨hsum, _, _⟩ := line_add h
  rw [and_line_toNat] at h
  unfold bankClaim
  by_cases hen : (s.banks n).en = true
  · obtain ⟨hlo, hhi⟩ := (s.banks n).megs hen
    have hlo' : ((s.banks n).lo ≤ a + BitVec.ofNat 32 k ↔ (s.banks n).lo ≤ a) := by
      rw [BitVec.le_def, BitVec.le_def, hsum]
      omega
    have hhi' : (a + BitVec.ofNat 32 k ≤ (s.banks n).hi ↔ a ≤ (s.banks n).hi) := by
      rw [BitVec.le_def, BitVec.le_def, hsum]
      omega
    simp only [hlo', hhi']
    by_cases hin : (s.banks n).en = true ∧ (s.banks n).lo ≤ a ∧ a ≤ (s.banks n).hi
    · rw [if_pos hin, if_pos hin, Option.map_some, and_ramMask_add]
      congr 2
      rw [BitVec.sub_eq_add_neg, BitVec.sub_eq_add_neg, BitVec.add_assoc, BitVec.add_assoc,
        BitVec.add_comm (BitVec.ofNat 32 k)]
    · rw [if_neg hin, if_neg hin]
      rfl
  · rw [if_neg fun h => hen h.1, if_neg fun h => hen h.1]
    rfl

theorem ramClaim_add {s : GossamerBus μ α} (hforce : s.forceBank0 = false) {a : U32} {k : ℕ}
    (h : (a &&& 31#32).toNat + k < 32) :
    s.ramClaim (a + BitVec.ofNat 32 k) =
      (s.ramClaim a).map fun r => (r + BitVec.ofNat 32 k) &&& s.ramMask := by
  have hno : ∀ x : U32, ¬ (s.forceBank0 = true ∧ x.toNat < 2 ^ s.ramLog) := by
    intro x hx
    rw [hforce] at hx
    cases hx.1
  unfold ramClaim
  rw [if_neg (hno _), if_neg (hno _)]
  by_cases hgo : s.memGo = true
  · rw [if_pos hgo, if_pos hgo, List.map_findSome?]
    congr 1
    funext n
    exact bankClaim_add s h n
  · rw [if_neg hgo, if_neg hgo]
    rfl

theorem ml2Lookup_low {s : GossamerBus μ α} {a : U32} (hlow : a < kMemSpace) :
    s.ml2Lookup a =
      if s.ml2On then
        if (s.ml2 (s.ml2Index a)).v ∧ (s.ml2 (s.ml2Index a)).tag = a >>> 5 then some (s.ml2Index a)
        else none
      else none := by
  unfold ml2Lookup
  by_cases hon : s.ml2On = true
  · rw [if_pos ⟨hon, hlow⟩, if_pos hon]
  · rw [if_neg fun h => hon h.1, if_neg hon]

/-- A byte in memory has its neighbours of the line beside it. -/
theorem place_add {s : GossamerBus μ α} (hforce : s.forceBank0 = false) {a : U32} {k : ℕ}
    (h : (a &&& 31#32).toNat + k < 32) (hlow : a < kMemSpace) (hclaim : (s.ramClaim a).isSome = true) :
    s.place (a + BitVec.ofNat 32 k) = (s.place a).next s.ramMask (BitVec.ofNat 32 k) := by
  obtain ⟨hsum, hline, hoff⟩ := line_add h
  have hlow' : a + BitVec.ofNat 32 k < kMemSpace := by
    rw [and_line_toNat] at h
    rw [BitVec.lt_def] at hlow ⊢
    rw [hsum]
    change a.toNat < 0x40000000 at hlow
    change _ < 0x40000000
    omega
  have hlook : s.ml2Lookup (a + BitVec.ofNat 32 k) = s.ml2Lookup a := by
    rw [ml2Lookup_low hlow, ml2Lookup_low hlow', ml2Index, ml2Index, hline]
  obtain ⟨ro, hro⟩ := Option.isSome_iff_exists.mp hclaim
  unfold place
  rw [if_pos hlow, if_pos hlow', hlook, ramClaim_add hforce h, hro]
  cases s.ml2Lookup a with
  | some i =>
    change Place.line i _ = Place.line i _
    rw [hoff]
  | none => rfl

/-- A sized access to memory is in one piece. -/
theorem straight_memory {s : GossamerBus μ α} (hforce : s.forceBank0 = false) {a : U32}
    (hlow : a < kMemSpace) (hclaim : (s.ramClaim a).isSome = true) :
    s.Straight .half a ∧ s.Straight32 a := by
  have hp : (s.place a).Half ∧ (s.place a).Whole := by
    obtain ⟨ro, hro⟩ := Option.isSome_iff_exists.mp hclaim
    unfold place
    rw [if_pos hlow, hro]
    cases s.ml2Lookup a <;> exact ⟨trivial, trivial⟩
  constructor
  · by_cases hu : Unsplit16 a
    · have hin : (a &&& 31#32).toNat ≤ 30 := hu hlow
      exact Or.inr (Or.inr ⟨hp.1, fun k _ hk => place_add hforce (by omega) hlow hclaim⟩)
    · exact Or.inl hu
  · by_cases hu : Unsplit32 a
    · have hin : (a &&& 31#32).toNat ≤ 28 := hu hlow
      exact Or.inr ⟨hp.2, fun k _ hk => place_add hforce (by omega) hlow hclaim⟩
    · exact Or.inl hu

/-! ## The bus as a cache over the banks -/

/-- The slots and the homes of the decode in force. -/
def plan (s : GossamerBus μ α) : Plan U32 U32 (BitVec 5) U32 where
  slot k := k % s.ml2Lines
  home k o := s.ramClaim (byteOf k o)

/-- The lines that are valid, and the module. -/
def toState (s : GossamerBus μ α) : State U32 U32 (BitVec 5) U32 U8 where
  dir i := if (s.ml2 i).v then some ⟨(s.ml2 i).tag, (s.ml2 i).d, (s.ml2 i).b⟩ else none
  mem := s.ram

/-- What a byte is seen to hold. -/
def seen (s : GossamerBus μ α) (a : U32) : U8 := s.plan.view 0xFF#8 s.toState (a >>> 5) (lineOff a)

/-- The cells that stand for the addresses of a set. -/
def cells (used : U32 → Prop) (k : U32) (o : BitVec 5) : Prop := k.toNat < 2 ^ 27 ∧ used (byteOf k o)

theorem cells_of_used {used : U32 → Prop} {a : U32} (h : used a) : cells used (a >>> 5) (lineOff a) :=
  ⟨line_lt a, by rwa [byteOf_self]⟩

/-- The state the accesses of a run meet: the decode is fresh, the cache is on, and the
lines in it are coherent with the module. -/
structure Fit (p : Plan U32 U32 (BitVec 5) U32) (used : U32 → Prop) (s : GossamerBus μ α) : Prop where
  fresh : s.bankGen = s.pci.memGen
  on : s.ml2On = true
  unforced : s.forceBank0 = false
  plan : s.plan = p
  coherent : p.Coherent (cells used) s.toState

theorem ml2Lookup_eq_some {s : GossamerBus μ α} {a i : U32} (h : s.ml2Lookup a = some i) :
    i = s.plan.slot (a >>> 5) ∧
      s.plan.held s.toState (a >>> 5) = some ⟨a >>> 5, (s.ml2 i).d, (s.ml2 i).b⟩ := by
  simp only [ml2Lookup] at h
  split_ifs at h with h1 h2
  have hi : i = s.plan.slot (a >>> 5) := (Option.some.inj h).symm
  have hi' : s.ml2Index a = i := Option.some.inj h
  rw [hi'] at h2
  refine ⟨hi, Plan.held_eq_some.mpr ⟨?_, rfl⟩⟩
  change (if (s.ml2 (s.plan.slot (a >>> 5))).v then _ else none) = _
  rw [← hi, if_pos h2.1, h2.2]

theorem ml2Lookup_eq_none {s : GossamerBus μ α} (hon : s.ml2On = true) {a : U32} (hlow : a < kMemSpace)
    (h : s.ml2Lookup a = none) : s.plan.held s.toState (a >>> 5) = none := by
  rw [Option.eq_none_iff_forall_ne_some]
  intro e he
  obtain ⟨hdir, hkey⟩ := Plan.held_eq_some.mp he
  change (if (s.ml2 (s.plan.slot (a >>> 5))).v then some (DirectMapped.Line.mk _ _ _) else none) = some e at hdir
  have hidx : s.plan.slot (a >>> 5) = s.ml2Index a := rfl
  rw [hidx] at hdir
  split_ifs at hdir with hv
  have htag : (s.ml2 (s.ml2Index a)).tag = a >>> 5 := by
    rw [← hkey, ← Option.some.inj hdir]
  simp only [ml2Lookup, hon, hlow, hv, htag, and_self, if_true] at h
  cases h

variable {p : Plan U32 U32 (BitVec 5) U32} {used : U32 → Prop} {s : GossamerBus μ α}

/-- What the set of a run has to be: bytes of the memory space that the banks claim and
keep apart. -/
structure Mapped (p : Plan U32 U32 (BitVec 5) U32) (used : U32 → Prop) : Prop where
  low : ∀ a, used a → a < kMemSpace
  apart : p.Apart (cells used)

theorem Fit.claim (h : Fit p used s) (hm : Mapped p used) {a : U32} (ha : used a) :
    ∃ r, s.ramClaim a = some r ∧ p.home (a >>> 5) (lineOff a) = some r := by
  obtain ⟨r, hr⟩ := hm.apart.home _ _ (cells_of_used ha)
  refine ⟨r, ?_, hr⟩
  rw [← h.plan] at hr
  change s.ramClaim (byteOf (a >>> 5) (lineOff a)) = some r at hr
  rwa [byteOf_self] at hr

theorem Fit.enter (h : Fit p used s) (a : U32) : s.enter a = s := Settled.enter fun _ => h.fresh

theorem Fit.refresh (h : Fit p used s) : s.memCfgRefresh = s := memCfgRefresh_of_fresh h.fresh

/-- A byte read gives what is seen. -/
theorem Fit.read8 (h : Fit p used s) (hm : Mapped p used) {a : U32} (ha : used a) :
    read8 chips a s = (s.seen a, s) := by
  have hlow := hm.low a ha
  obtain ⟨r, hr, hhome⟩ := h.claim hm ha
  rw [read8_eq, h.enter, place, if_pos hlow, hr]
  cases hl : s.ml2Lookup a with
  | some i =>
    have hheld := (ml2Lookup_eq_some hl).2
    rw [seen, Plan.view_held hheld]
    rfl
  | none =>
    have hheld := ml2Lookup_eq_none h.on hlow hl
    have hhome' : s.plan.home (a >>> 5) (lineOff a) = some r := by
      rw [h.plan]
      exact hhome
    rw [seen, Plan.view_missing hheld hhome']
    rfl

theorem line_cell_eq_iff {a b : U32} : (b >>> 5 = a >>> 5 ∧ lineOff b = lineOff a) ↔ b = a := by
  constructor
  · rintro ⟨h1, h2⟩
    rw [← byteOf_self a, ← byteOf_self b, h1, h2]
  · rintro rfl
    exact ⟨rfl, rfl⟩

/-- The lines after one slot has been given a valid line. -/
theorem toState_line (s : GossamerBus μ α) (i : U32) {l : Ml2Line} (hl : l.v = true) :
    ({ s with ml2 := fun j => if j = i then l else s.ml2 j } : GossamerBus μ α).toState =
      ⟨Function.update s.toState.dir i (some ⟨l.tag, l.d, l.b⟩), s.ram⟩ := by
  unfold toState
  congr 1
  funext j
  by_cases hj : j = i
  · subst hj
    simp only [if_true, hl, Function.update_self]
  · simp only [if_neg hj, Function.update_of_ne hj]

/-- A line that is there is valid, and carries its own number. -/
theorem valid_of_held {i k : U32} (hi : i = s.plan.slot k)
    (hheld : s.plan.held s.toState k = some ⟨k, (s.ml2 i).d, (s.ml2 i).b⟩) :
    (s.ml2 i).v = true ∧ (s.ml2 i).tag = k := by
  have hdir := (Plan.held_eq_some.mp hheld).1
  rw [← hi] at hdir
  change (if (s.ml2 i).v then some (DirectMapped.Line.mk _ _ _) else none) = _ at hdir
  have hv : (s.ml2 i).v = true := by
    by_contra hv
    rw [if_neg hv] at hdir
    cases hdir
  rw [if_pos hv] at hdir
  exact ⟨hv, congrArg Line.key (Option.some.inj hdir)⟩

/-- The lines after a byte has been written in one. -/
theorem toState_ml2Write {i k : U32} {o : BitVec 5} {v : U8} (hi : i = s.plan.slot k)
    (hheld : s.plan.held s.toState k = some ⟨k, (s.ml2 i).d, (s.ml2 i).b⟩) :
    (ml2Write i o v s).toState =
      s.plan.putLine s.toState k (fun x => if x = o then v else (s.ml2 i).b x) := by
  obtain ⟨hv, htag⟩ := valid_of_held hi hheld
  have hline := toState_line s i
    (l := { s.ml2 i with d := true, b := fun x => if x = o then v else (s.ml2 i).b x }) hv
  rw [Plan.putLine, ← hi, ← htag]
  exact hline

theorem toState_ramWrite (off : U32) (v : U8) :
    (ramWrite off v s).toState = Plan.putHome s.toState off v := by
  unfold toState ramWrite Plan.putHome
  congr 1
  funext a
  rw [Function.update_apply]

/-- A byte write changes what is seen of that byte and nothing else. -/
theorem Fit.write8 (h : Fit p used s) (hm : Mapped p used) {a : U32} (ha : used a) (v : U8) :
    Fit p used (write8 chips a v s) ∧
      ∀ b, used b → (GossamerBus.write8 chips a v s).seen b = if b = a then v else s.seen b := by
  have hlow := hm.low a ha
  obtain ⟨r, hr, hhome⟩ := h.claim hm ha
  rw [write8_eq, h.enter, place, if_pos hlow, hr]
  -- a line the inline L2 holds takes the byte; without one the module does
  cases hl : s.ml2Lookup a with
  | some i =>
    obtain ⟨hi, hheld⟩ := ml2Lookup_eq_some hl
    have hst := toState_ml2Write (o := lineOff a) (v := v) hi hheld
    have hdir := (Plan.held_eq_some.mp hheld).1
    have hcells : ∀ o, cells used (a >>> 5) o := by
      rw [h.plan] at hdir
      exact h.coherent.inside _ _ hdir
    refine ⟨⟨h.fresh, h.on, h.unforced, h.plan, ?_⟩, ?_⟩
    · change p.Coherent (cells used) (ml2Write i (lineOff a) v s).toState
      rw [hst, h.plan]
      exact h.coherent.putLine hcells _
    · intro b _
      change s.plan.view 0xFF#8 (ml2Write i (lineOff a) v s).toState (b >>> 5) (lineOff b) = _
      rw [hst, Plan.view_putLine hheld]
      by_cases hb : b >>> 5 = a >>> 5
      · rw [if_pos hb]
        by_cases ho : lineOff b = lineOff a
        · rw [if_pos ho, if_pos (line_cell_eq_iff.mp ⟨hb, ho⟩)]
        · have hne : b ≠ a := fun hba => ho (line_cell_eq_iff.mpr hba).2
          rw [if_neg ho, if_neg hne, seen, hb, Plan.view_held hheld]
      · have hne : b ≠ a := fun hba => hb (line_cell_eq_iff.mpr hba).1
        rw [if_neg hb, if_neg hne]
        rfl
  | none =>
    have hheld := ml2Lookup_eq_none h.on hlow hl
    rw [h.plan] at hheld
    refine ⟨⟨h.fresh, h.on, h.unforced, h.plan, ?_⟩, ?_⟩
    · change p.Coherent (cells used) (ramWrite r v s).toState
      rw [toState_ramWrite]
      exact Plan.Coherent.putHome hm.apart h.coherent hheld (cells_of_used ha) hhome v
    · intro b hb
      change s.plan.view 0xFF#8 (ramWrite r v s).toState (b >>> 5) (lineOff b) = _
      rw [toState_ramWrite, h.plan,
        Plan.view_putHome hm.apart hheld (cells_of_used ha) hhome v (cells_of_used hb)]
      by_cases hba : b = a
      · rw [if_pos (line_cell_eq_iff.mpr hba), if_pos hba]
      · rw [if_neg fun hc => hba (line_cell_eq_iff.mp hc), if_neg hba, seen, h.plan]

/-! ## Bursts -/

/-- The offsets of a line, in the order of the cast-out. -/
def offsets : List (BitVec 5) := (List.range 32).map (BitVec.ofNat 5)

theorem mem_offsets (o : BitVec 5) : o ∈ offsets := by
  refine List.mem_map.mpr ⟨o.toNat, List.mem_range.mpr o.isLt, ?_⟩
  rw [BitVec.ofNat_toNat, BitVec.setWidth_eq]

theorem byteOf_offset (k : U32) {n : ℕ} (hn : n < 32) :
    byteOf k (BitVec.ofNat 5 n) = (k <<< 5) + BitVec.ofNat 32 n := by
  rw [byteOf]
  congr 1
  apply BitVec.eq_of_toNat_eq
  rw [BitVec.toNat_setWidth, BitVec.toNat_ofNat, BitVec.toNat_ofNat]
  omega

/-- One byte of a line put back, where the banks have it. -/
def castByte (e : Ml2Line) (s : GossamerBus μ α) (k : ℕ) : GossamerBus μ α :=
  match s.ramClaim ((e.tag <<< 5) + BitVec.ofNat 32 k) with
  | some off => ramWrite off (e.b (BitVec.ofNat 5 k)) s
  | none => s

/-- The cast-out is the library's, over the banks. -/
theorem ml2CastOut_eq (e : Ml2Line) (s : GossamerBus μ α) :
    ml2CastOut e s = { s with ram := s.plan.putBack offsets ⟨e.tag, e.d, e.b⟩ s.ram } := by
  have key : ∀ (l : List ℕ), (∀ n ∈ l, n < 32) → ∀ m : U32 → U8,
      l.foldl (castByte e) { s with ram := m } =
      { s with ram := s.plan.putBack (l.map (BitVec.ofNat 5)) ⟨e.tag, e.d, e.b⟩ m } := by
    intro l
    induction l with
    | nil => exact fun _ m => rfl
    | cons n l ih =>
      intro hl m
      have hn := hl n List.mem_cons_self
      have hclaim : GossamerBus.ramClaim { s with ram := m } ((e.tag <<< 5) + BitVec.ofNat 32 n) =
          s.plan.home e.tag (BitVec.ofNat 5 n) := by
        change s.ramClaim _ = s.ramClaim _
        rw [byteOf_offset _ hn]
      have hstep := ih (fun n' hn' => hl n' (List.mem_cons_of_mem n hn'))
      rw [List.foldl_cons, castByte, hclaim, List.map_cons, Plan.putBack, List.foldl_cons]
      cases hhome : s.plan.home e.tag (BitVec.ofNat 5 n) with
      | none => exact hstep m
      | some off =>
        have hw : (fun x => if x = off then e.b (BitVec.ofNat 5 n) else m x) =
            Function.update m off (e.b (BitVec.ofNat 5 n)) := by
          funext x
          rw [Function.update_apply]
        change List.foldl _
          { s with ram := fun x => if x = off then e.b (BitVec.ofNat 5 n) else m x } l = _
        rw [hw]
        exact hstep _
  exact key (List.range 32) (fun n hn => List.mem_range.mp hn) s.ram

/-- The slot after a fill. -/
theorem toState_fill (s : GossamerBus μ α) (a : U32) :
    ({ s with ml2 := fun j => if j = s.ml2Index a then s.ml2Fill a else s.ml2 j } :
      GossamerBus μ α).toState =
      ⟨Function.update s.toState.dir (s.plan.slot (a >>> 5))
        (some (s.plan.fetched 0xFF#8 s.ram (a >>> 5))), s.ram⟩ := by
  have hcells : (s.ml2Fill a).b = (s.plan.fetched 0xFF#8 s.ram (a >>> 5)).cells := by
    funext o
    simp only [ml2Fill, Plan.fetched, plan, byteOf, line_base]
    cases s.ramClaim ((a >>> 5) <<< 5 + o.setWidth 32) <;> rfl
  rw [toState_line s _ rfl, hcells]
  rfl

/-- The slot after a castout and a fill. -/
theorem toState_refill (hp : s.plan = p) (a : U32) {m : U32 → U8} {t : GossamerBus μ α}
    (ht : t = { s with ram := m }) :
    ({ t with ml2 := fun j => if j = t.ml2Index a then t.ml2Fill a else t.ml2 j } :
      GossamerBus μ α).toState =
      ⟨Function.update s.toState.dir (p.slot (a >>> 5)) (some (p.fetched 0xFF#8 m (a >>> 5))), m⟩ := by
  have hplan : t.plan = p := by
    rw [ht]
    exact hp
  rw [toState_fill, hplan, ht]
  rfl

/-- Bringing a line in is the library's, over the banks. -/
theorem Fit.route (h : Fit p used s) (hm : Mapped p used) {a : U32} (hlow : a < kMemSpace)
    (hline : ∀ o, cells used (a >>> 5) o) :
    ∃ s', ml2Route a s = (some (p.slot (a >>> 5)), s') ∧ Fit p used s' ∧
      s'.toState = p.route 0xFF#8 offsets s.toState (a >>> 5) := by
  have hnot : ¬ (s.ml2On = false ∨ kMemSpace ≤ a) := by
    rintro (hoff | hhigh)
    · rw [h.on] at hoff
      cases hoff
    · exact absurd hlow (BitVec.not_lt.mpr hhigh)
  have hidx : s.ml2Index a = p.slot (a >>> 5) := by
    rw [← h.plan]
    rfl
  unfold ml2Route
  rw [h.refresh, if_neg hnot]
  by_cases hhit : (s.ml2 (s.ml2Index a)).v = true ∧ (s.ml2 (s.ml2Index a)).tag = a >>> 5
  · -- a hit leaves everything as it is
    refine ⟨s, ?_, h, ?_⟩
    · rw [if_pos hhit, hidx]
    · have hlook : s.ml2Lookup a = some (s.ml2Index a) := by
        rw [ml2Lookup_low hlow, if_pos h.on, if_pos hhit]
      have hheld := (ml2Lookup_eq_some hlook).2
      rw [h.plan] at hheld
      rw [Plan.route, if_pos (by rw [hheld]; rfl)]
  · rw [if_neg hhit]
    have hlook : s.ml2Lookup a = none := by
      rw [ml2Lookup_low hlow, if_pos h.on, if_neg hhit]
    have hheld := ml2Lookup_eq_none h.on hlow hlook
    rw [h.plan] at hheld
    -- the module after the castout
    have hvac : (if (s.ml2 (s.ml2Index a)).v = true ∧ (s.ml2 (s.ml2Index a)).d = true then
        ml2CastOut (s.ml2 (s.ml2Index a)) s else s) =
        { s with ram := p.vacated offsets s.toState (a >>> 5) } := by
      have hdir : s.toState.dir (p.slot (a >>> 5)) =
          if (s.ml2 (s.ml2Index a)).v then
            some ⟨(s.ml2 (s.ml2Index a)).tag, (s.ml2 (s.ml2Index a)).d, (s.ml2 (s.ml2Index a)).b⟩
          else none := by
        rw [← hidx]
        rfl
      unfold Plan.vacated
      rw [hdir]
      by_cases hv : (s.ml2 (s.ml2Index a)).v = true
      · rw [if_pos hv]
        by_cases hd : (s.ml2 (s.ml2Index a)).d = true
        · rw [if_pos ⟨hv, hd⟩, ml2CastOut_eq, h.plan]
          simp only [hd, if_true]
          rfl
        · rw [if_neg fun hc => hd hc.2]
          simp only [if_neg hd]
          rfl
      · rw [if_neg fun hc => hv hc.1, if_neg hv]
        rfl
    have hst : p.route 0xFF#8 offsets s.toState (a >>> 5) =
        ⟨Function.update s.toState.dir (p.slot (a >>> 5))
          (some (p.fetched 0xFF#8 (p.vacated offsets s.toState (a >>> 5)) (a >>> 5))),
          p.vacated offsets s.toState (a >>> 5)⟩ := by
      rw [Plan.route, if_neg (by rw [hheld]; decide)]
    generalize (if (s.ml2 (s.ml2Index a)).v = true ∧ (s.ml2 (s.ml2Index a)).d = true then
      ml2CastOut (s.ml2 (s.ml2Index a)) s else s) = t at hvac
    have hidx' : s.ml2Index a = t.ml2Index a := by
      rw [hvac]
      rfl
    have hfill := toState_refill h.plan a hvac
    rw [← hst] at hfill
    rw [hidx, ← hidx, hidx']
    refine ⟨_, rfl, ⟨?_, ?_, ?_, ?_, ?_⟩, hfill⟩
    · rw [hvac]
      exact h.fresh
    · rw [hvac]
      exact h.on
    · rw [hvac]
      exact h.unforced
    · rw [hvac]
      exact h.plan
    · rw [hfill]
      exact h.coherent.route hm.apart mem_offsets hline

/-! ## One access -/

theorem Fit.readEach (h : Fit p used s) (hm : Mapped p used) {l : List U32} (hl : ∀ a ∈ l, used a) :
    Gossamer.readEach (GossamerBus.read8 chips) l s = (l.map s.seen, s) := by
  induction l with
  | nil => rfl
  | cons a l ih =>
    have ha := h.read8 chips hm (hl a List.mem_cons_self)
    have hrest := ih fun b hb => hl b (List.mem_cons_of_mem a hb)
    simp only [Gossamer.readEach, ha, hrest, List.map_cons]

/-- A byte of a flat memory set. -/
def poke (a : U32) (v : U8) (m : U32 → U8) : U32 → U8 := fun b => if b = a then v else m b

theorem Fit.writeEach (h : Fit p used s) (hm : Mapped p used) {m : U32 → U8}
    (hseen : ∀ b, used b → s.seen b = m b) {l : List U32} (hl : ∀ a ∈ l, used a) (vs : List U8) :
    Fit p used (Gossamer.writeEach (GossamerBus.write8 chips) (l.zip vs) s) ∧
      ∀ b, used b → (Gossamer.writeEach (GossamerBus.write8 chips) (l.zip vs) s).seen b =
        Gossamer.writeEach poke (l.zip vs) m b := by
  induction l generalizing s m vs with
  | nil => exact ⟨h, hseen⟩
  | cons a l ih =>
    cases vs with
    | nil => exact ⟨h, hseen⟩
    | cons v vs =>
      obtain ⟨hfit, hafter⟩ := h.write8 chips hm (hl a List.mem_cons_self) v
      refine ih hfit ?_ (fun b hb => hl b (List.mem_cons_of_mem a hb)) vs
      intro b hb
      rw [hafter b hb, hseen b hb]
      rfl

/-- The cells of a line that is there are the slot's. -/
theorem held_cells {k : U32} {e : DirectMapped.Line U32 (BitVec 5) U8} (he : s.plan.held s.toState k = some e) :
    (s.ml2 (s.plan.slot k)).v = true ∧ e.cells = (s.ml2 (s.plan.slot k)).b ∧
      (s.ml2 (s.plan.slot k)).tag = k := by
  obtain ⟨hdir, hkey⟩ := Plan.held_eq_some.mp he
  change (if (s.ml2 (s.plan.slot k)).v then some (DirectMapped.Line.mk _ _ _) else none) = some e at hdir
  have hv : (s.ml2 (s.plan.slot k)).v = true := by
    by_contra hv
    rw [if_neg hv] at hdir
    cases hdir
  rw [if_pos hv] at hdir
  rw [← Option.some.inj hdir] at hkey ⊢
  exact ⟨hv, rfl, hkey⟩

/-- A burst read gives what is seen of the line, and changes nothing that is seen. -/
theorem Fit.readLine (h : Fit p used s) (hm : Mapped p used) {a : U32} (hlow : a < kMemSpace)
    (hline : ∀ o, cells used (a >>> 5) o) :
    Fit p used (readLine32 chips a s).2 ∧
      (readLine32 chips a s).1 = lineBytes (fun o => s.seen (byteOf (a >>> 5) o)) ∧
      ∀ b, used b → (readLine32 chips a s).2.seen b = s.seen b := by
  obtain ⟨s', hroute, hfit, hst⟩ := h.route hm hlow hline
  have hkeep : ∀ b, used b → s'.seen b = s.seen b := by
    intro b hb
    rw [seen, seen, hfit.plan, h.plan, hst]
    exact Plan.view_route hm.apart h.coherent mem_offsets (a >>> 5) (cells_of_used hb)
  have heq : readLine32 chips a s = (lineBytes (s'.ml2 (p.slot (a >>> 5))).b, s') := by
    rw [readLine32, if_pos hlow, hroute]
  rw [heq]
  refine ⟨hfit, ?_, hkeep⟩
  obtain ⟨e, he⟩ := Plan.held_route (p := p) 0xFF#8 offsets s.toState (a >>> 5)
  rw [← hst, ← hfit.plan] at he
  have hcells := (held_cells he).2.1
  rw [hfit.plan] at hcells
  dsimp only
  congr 1
  funext o
  rw [← hkeep _ (hline o).2, seen, line_byteOf (line_lt a), lineOff_byteOf (line_lt a),
    Plan.view_held he, hcells]

/-- A burst write changes what is seen of the line and nothing else. -/
theorem Fit.writeLine (h : Fit p used s) (hm : Mapped p used) {a : U32} (hlow : a < kMemSpace)
    (hline : ∀ o, cells used (a >>> 5) o) (b : BitVec 5 → U8) :
    Fit p used (writeLine32 chips a b s) ∧
      ∀ c, used c → (writeLine32 chips a b s).seen c =
        if c >>> 5 = a >>> 5 then b (lineOff c) else s.seen c := by
  obtain ⟨s', hroute, hfit, hst⟩ := h.route hm hlow hline
  obtain ⟨e, he⟩ := Plan.held_route (p := p) 0xFF#8 offsets s.toState (a >>> 5)
  rw [← hst, ← hfit.plan] at he
  obtain ⟨hv, _, htag⟩ := held_cells he
  have heq : writeLine32 chips a b s =
      { s' with ml2 := fun j => if j = s'.plan.slot (a >>> 5) then
        { s'.ml2 (s'.plan.slot (a >>> 5)) with b := b, d := true } else s'.ml2 j } := by
    rw [writeLine32, if_pos hlow, hroute, hfit.plan]
  have hput : (writeLine32 chips a b s).toState = s'.plan.putLine s'.toState (a >>> 5) b := by
    rw [heq, toState_line s' _ (l := { s'.ml2 (s'.plan.slot (a >>> 5)) with b := b, d := true }) hv,
      Plan.putLine]
    simp only [htag]
    rfl
  have hplan : (writeLine32 chips a b s).plan = s'.plan := by
    rw [heq]
    rfl
  constructor
  · refine ⟨?_, ?_, ?_, ?_, ?_⟩
    · rw [heq]
      exact hfit.fresh
    · rw [heq]
      exact hfit.on
    · rw [heq]
      exact hfit.unforced
    · rw [hplan]
      exact hfit.plan
    · rw [hput, hfit.plan]
      exact hfit.coherent.putLine hline b
  · intro c hc
    rw [seen, hplan, hput, Plan.view_putLine he]
    by_cases hcl : c >>> 5 = a >>> 5
    · rw [if_pos hcl, if_pos hcl]
    · rw [if_neg hcl, if_neg hcl, hfit.plan, hst, seen, h.plan]
      exact Plan.view_route hm.apart h.coherent mem_offsets (a >>> 5) (cells_of_used hc)

end GossamerBus

/-! ## Runs of accesses -/

/-- An access to memory. -/
inductive Access where
  | read8 (pa : U32)
  | readSized (w : Sized) (pa : U32)
  | write8 (pa : U32) (v : U8)
  | writeSized (w : Sized) (pa : U32) (v : BitVec w.bits)
  | readLine32 (pa : U32)
  | writeLine32 (pa : U32) (b : BitVec 5 → U8)

namespace Access

/-- The bytes of an access. A burst is to the line of its address. -/
def footprint : Access → List U32
  | .read8 pa => [pa]
  | .readSized w pa => GossamerBus.addrs pa w.bytes
  | .write8 pa _ => [pa]
  | .writeSized w pa _ => GossamerBus.addrs pa w.bytes
  | .readLine32 pa => GossamerBus.offsets.map (byteOf (pa >>> 5))
  | .writeLine32 pa _ => GossamerBus.offsets.map (byteOf (pa >>> 5))

variable {μ α : Type}

/-- The access on the bus, and the bytes it reads. -/
def run (chips : Chips μ α) : Access → GossamerBus μ α → List U8 × GossamerBus μ α
  | .read8 pa, s => ([(GossamerBus.read8 chips pa s).1], (GossamerBus.read8 chips pa s).2)
  | .readSized w pa, s =>
    (w.bytesOf (GossamerBus.readSized chips w pa s).1, (GossamerBus.readSized chips w pa s).2)
  | .write8 pa v, s => ([], GossamerBus.write8 chips pa v s)
  | .writeSized w pa v, s => ([], GossamerBus.writeSized chips w pa v s)
  | .readLine32 pa, s => GossamerBus.readLine32 chips pa s
  | .writeLine32 pa b, s => ([], GossamerBus.writeLine32 chips pa b s)

/-- The access on a flat memory. -/
def runFlat : Access → (U32 → U8) → List U8 × (U32 → U8)
  | .read8 pa, m => ([m pa], m)
  | .readSized w pa, m => ((GossamerBus.addrs pa w.bytes).map m, m)
  | .write8 pa v, m => ([], GossamerBus.poke pa v m)
  | .writeSized w pa v, m =>
    ([], writeEach GossamerBus.poke ((GossamerBus.addrs pa w.bytes).zip (w.bytesOf v)) m)
  | .readLine32 pa, m => (GossamerBus.lineBytes fun o => m (byteOf (pa >>> 5) o), m)
  | .writeLine32 pa b, m =>
    ([], fun a => if a >>> 5 = pa >>> 5 then b (GossamerBus.lineOff a) else m a)

end Access

/-- What the accesses of a run read, one list for each. -/
def outputs {σ : Type} (f : Access → σ → List U8 × σ) : List Access → σ → List (List U8)
  | [], _ => []
  | x :: xs, s => (f x s).1 :: outputs f xs (f x s).2

theorem Sized.bytesOf_ofBytes {w : Sized} {bs : List U8} (h : bs.length = w.bytes) :
    w.bytesOf (ofBytes w.bits bs) = bs := by
  cases w with
  | half =>
    match bs, h with
    | [a, b], _ => exact bytes16_ofBytes a b
  | word =>
    match bs, h with
    | [a, b, c, d], _ => exact bytes32_ofBytes a b c d
  | dword =>
    match bs, h with
    | [a, b, c, d, a', b', c', d'], _ =>
      have hword := ofBytes_words (show [a, b, c, d].length = 4 from rfl)
        (show [a', b', c', d'].length = 4 from rfl)
      have halves : ∀ hi lo : U32,
          BitVec.setWidth 32 (((hi.setWidth 64 <<< 32) ||| lo.setWidth 64 : U64) >>> 32) = hi ∧
            BitVec.setWidth 32 ((hi.setWidth 64 <<< 32) ||| lo.setWidth 64 : U64) = lo := by
        intro hi lo
        constructor
        · ext i hi'
          simp [hi', show 32 + i < 64 by omega]
        · ext i hi'
          simp
      change bytes32 (BitVec.setWidth 32 ((ofBytes 64 [a, b, c, d, a', b', c', d'] : U64) >>> 32)) ++
        bytes32 (BitVec.setWidth 32 (ofBytes 64 [a, b, c, d, a', b', c', d'] : U64)) = _
      change _ = ofBytes 64 [a, b, c, d, a', b', c', d'] at hword
      rw [← hword, (halves _ _).1, (halves _ _).2, bytes32_ofBytes, bytes32_ofBytes]
      rfl

section Runs

open GossamerBus

variable {μ α : Type} (chips : Chips μ α) {p : DirectMapped.Plan U32 U32 (BitVec 5) U32} {used : U32 → Prop}

theorem enter_low {s : GossamerBus μ α} {pa : U32} (h : pa < kMemSpace) : s.enter pa = s.memCfgRefresh :=
  if_pos h

theorem memCfgRefresh_twice (s : GossamerBus μ α) : s.memCfgRefresh.memCfgRefresh = s.memCfgRefresh :=
  memCfgRefresh_of_fresh (memCfgRefresh_fresh s)

theorem ml2Route_refresh (pa : U32) (s : GossamerBus μ α) :
    ml2Route pa s = ml2Route pa s.memCfgRefresh := by
  unfold ml2Route
  rw [memCfgRefresh_twice]

/-- A sized access to memory is the byte accesses it stands for. -/
theorem agrees_memory {s : GossamerBus μ α} (h : Fit p used s.memCfgRefresh) (hm : Mapped p used) {w : Sized}
    {pa : U32} (hused : ∀ a ∈ addrs pa w.bytes, used a) : Agrees chips w pa s := by
  have hmem : ∀ k, k < w.bytes → used (pa + BitVec.ofNat 32 k) := fun k hk =>
    hused _ (mem_addrs.mpr ⟨k, hk, rfl⟩)
  have hpa : used pa := by
    have := hmem 0 (by cases w <;> decide)
    simpa using this
  have hlow := hm.low pa hpa
  have hnat : pa.toNat < 0x40000000 := hlow
  have hstraight : ∀ a, used a → s.memCfgRefresh.Straight .half a ∧ s.memCfgRefresh.Straight32 a := by
    intro a ha
    obtain ⟨r, hr, _⟩ := h.claim hm ha
    exact straight_memory h.unforced (hm.low a ha) (by rw [hr]; rfl)
  apply agrees_of_straight chips
  · have : w.bytes ≤ 8 := by cases w <;> decide
    omega
  · rw [enter_low hlow]
    cases w with
    | half => exact (hstraight pa hpa).1
    | word => exact (hstraight pa hpa).2
    | dword => exact ⟨(hstraight pa hpa).2, (hstraight _ (hmem 4 (by decide))).2⟩

/-- One access to memory does what it does on a flat memory. -/
theorem access_step {s : GossamerBus μ α} (h : Fit p used s.memCfgRefresh) (hm : Mapped p used)
    {m : U32 → U8} (hseen : ∀ b, used b → s.memCfgRefresh.seen b = m b) (x : Access)
    (hx : ∀ a ∈ x.footprint, used a) :
    (x.run chips s).1 = (x.runFlat m).1 ∧ Fit p used (x.run chips s).2 ∧
      ∀ b, used b → (x.run chips s).2.seen b = (x.runFlat m).2 b := by
  have hline : ∀ pa : U32, (∀ a ∈ offsets.map (byteOf (pa >>> 5)), used a) →
      pa < kMemSpace ∧ ∀ o, cells used (pa >>> 5) o := by
    intro pa hall
    have hcells : ∀ o, cells used (pa >>> 5) o := fun o =>
      ⟨line_lt pa, hall _ (List.mem_map_of_mem (mem_offsets o))⟩
    refine ⟨?_, hcells⟩
    have := hm.low _ (hcells (lineOff pa)).2
    rwa [byteOf_self] at this
  cases x with
  | read8 pa =>
    have hpa : used pa := hx pa List.mem_cons_self
    have hread : GossamerBus.read8 chips pa s = (s.memCfgRefresh.seen pa, s.memCfgRefresh) := by
      rw [← h.read8 chips hm hpa, read8_eq, read8_eq, enter_low (hm.low pa hpa),
        enter_low (hm.low pa hpa), memCfgRefresh_twice]
    simp only [Access.run, Access.runFlat, hread, hseen pa hpa]
    exact ⟨trivial, h, hseen⟩
  | readSized w pa =>
    have hagree := (agrees_memory chips h hm hx).read
    have hpa : pa < kMemSpace := by
      apply hm.low
      have := hx (pa + BitVec.ofNat 32 0) (mem_addrs.mpr ⟨0, by cases w <;> decide, rfl⟩)
      simpa using this
    have hbytes : readEach (GossamerBus.read8 chips) (addrs pa w.bytes) s =
        ((addrs pa w.bytes).map s.memCfgRefresh.seen, s.memCfgRefresh) := by
      -- only the first byte sees the stale configuration: entering for it refreshes for the others
      obtain ⟨n, hn⟩ : ∃ n, w.bytes = n + 1 := by cases w <;> exact ⟨_, rfl⟩
      have hbytes := h.readEach chips hm (l := addrs pa w.bytes) hx
      rw [← hbytes, hn, readEach_enter, enter_low hpa]
    rw [hbytes] at hagree
    have hout : (addrs pa w.bytes).map s.memCfgRefresh.seen = (addrs pa w.bytes).map m := by
      apply List.map_congr_left
      intro a ha
      exact hseen a (hx a ha)
    simp only [Access.run, Access.runFlat, hagree]
    rw [Sized.bytesOf_ofBytes (by rw [List.length_map, length_addrs])]
    exact ⟨hout, h, hseen⟩
  | write8 pa v =>
    have hpa : used pa := hx pa List.mem_cons_self
    have hwrite : GossamerBus.write8 chips pa v s = GossamerBus.write8 chips pa v s.memCfgRefresh := by
      rw [write8_eq, write8_eq, enter_low (hm.low pa hpa), enter_low (hm.low pa hpa),
        memCfgRefresh_twice]
    obtain ⟨hfit, hafter⟩ := h.write8 chips hm hpa v
    simp only [Access.run, Access.runFlat, hwrite]
    refine ⟨trivial, hfit, ?_⟩
    intro b hb
    rw [hafter b hb, hseen b hb]
    rfl
  | writeSized w pa v =>
    have hagree := (agrees_memory chips h hm hx).write v
    have hpa : pa < kMemSpace := by
      apply hm.low
      have := hx (pa + BitVec.ofNat 32 0) (mem_addrs.mpr ⟨0, by cases w <;> decide, rfl⟩)
      simpa using this
    have hbytes : writeEach (GossamerBus.write8 chips) ((addrs pa w.bytes).zip (w.bytesOf v)) s =
        writeEach (GossamerBus.write8 chips) ((addrs pa w.bytes).zip (w.bytesOf v)) s.memCfgRefresh := by
      obtain ⟨n, hn⟩ : ∃ n, w.bytes = n + 1 := by cases w <;> exact ⟨_, rfl⟩
      obtain ⟨v₀, vs, hvs⟩ : ∃ v₀ vs, w.bytesOf v = v₀ :: vs := by cases w <;> exact ⟨_, _, rfl⟩
      rw [hvs, hn, writeEach_enter, enter_low hpa]
    obtain ⟨hfit, hafter⟩ := h.writeEach chips hm hseen hx (w.bytesOf v)
    simp only [Access.run, Access.runFlat, hagree, hbytes]
    exact ⟨trivial, hfit, hafter⟩
  | readLine32 pa =>
    -- a whole line goes past the byte path, straight to the inline L2 or the module
    obtain ⟨hlow, hcells⟩ := hline pa hx
    have hread : GossamerBus.readLine32 chips pa s = GossamerBus.readLine32 chips pa s.memCfgRefresh := by
      rw [GossamerBus.readLine32, if_pos hlow, ml2Route_refresh, GossamerBus.readLine32, if_pos hlow]
    obtain ⟨hfit, hout, hkeep⟩ := h.readLine chips hm hlow hcells
    simp only [Access.run, Access.runFlat, hread]
    refine ⟨?_, hfit, fun b hb => (hkeep b hb).trans (hseen b hb)⟩
    rw [hout]
    congr 1
    funext o
    exact hseen _ (hcells o).2
  | writeLine32 pa b =>
    obtain ⟨hlow, hcells⟩ := hline pa hx
    have hwrite : GossamerBus.writeLine32 chips pa b s =
        GossamerBus.writeLine32 chips pa b s.memCfgRefresh := by
      rw [GossamerBus.writeLine32, if_pos hlow, ml2Route_refresh, GossamerBus.writeLine32, if_pos hlow]
    obtain ⟨hfit, hafter⟩ := h.writeLine chips hm hlow hcells b
    simp only [Access.run, Access.runFlat, hwrite]
    refine ⟨trivial, hfit, ?_⟩
    intro c hc
    rw [hafter c hc, hseen c hc]

/-- A run of accesses reads what it would on a flat memory. -/
theorem outputs_flat {xs : List Access} {s : GossamerBus μ α} (h : Fit p used s.memCfgRefresh)
    (hm : Mapped p used) {m : U32 → U8} (hseen : ∀ b, used b → s.memCfgRefresh.seen b = m b)
    (hx : ∀ x ∈ xs, ∀ a ∈ x.footprint, used a) :
    outputs (Access.run chips) xs s = outputs Access.runFlat xs m := by
  induction xs generalizing s m with
  | nil => rfl
  | cons x xs ih =>
    obtain ⟨hout, hfit, hafter⟩ := access_step chips h hm hseen x (hx x List.mem_cons_self)
    rw [outputs, outputs, hout, ih (by rwa [hfit.refresh]) (by rwa [hfit.refresh]) fun y hy =>
      hx y (List.mem_cons_of_mem x hy)]

/-- The memory controller as a run needs it: the cache on and empty, and the addresses
claimed by banks that keep them apart. -/
structure Banked (used : U32 → Prop) (s : GossamerBus μ α) : Prop where
  on : s.memCfgRefresh.ml2On = true
  unforced : s.forceBank0 = false
  empty : ∀ i, (s.ml2 i).v = false
  low : ∀ a, used a → a < kMemSpace
  claimed : ∀ a, used a → ∃ r, s.memCfgRefresh.ramClaim a = some r
  inj : ∀ a b r, used a → used b → s.memCfgRefresh.ramClaim a = some r →
    s.memCfgRefresh.ramClaim b = some r → a = b

/-- The memory behind the banks, where nothing is cached. -/
def banksRead (s : GossamerBus μ α) (a : U32) : U8 :=
  match s.memCfgRefresh.ramClaim a with
  | some r => s.ram r
  | none => 0xFF#8

theorem memCfgRefresh_keeps (s : GossamerBus μ α) (h : ∀ i, (s.ml2 i).v = false) :
    s.memCfgRefresh.ram = s.ram ∧ s.memCfgRefresh.forceBank0 = s.forceBank0 ∧
      ∀ i, (s.memCfgRefresh.ml2 i).v = false := by
  unfold memCfgRefresh
  split_ifs
  · exact ⟨rfl, rfl, h⟩
  · cases s.pci.devs 0#32 with
    | none => exact ⟨rfl, rfl, h⟩
    | some d =>
      dsimp only
      split_ifs
      · exact ⟨rfl, rfl, fun _ => rfl⟩
      · exact ⟨rfl, rfl, h⟩

/-- The inline cache is transparent: whatever bursts and single accesses are made to bytes
the banks keep apart, they read what was last written there. -/
theorem inlineL2_transparent {s : GossamerBus μ α} (hs : Banked used s) (xs : List Access)
    (hx : ∀ x ∈ xs, ∀ a ∈ x.footprint, used a) :
    outputs (Access.run chips) xs s = outputs Access.runFlat xs (banksRead s) := by
  obtain ⟨hram, hforce, hempty⟩ := memCfgRefresh_keeps s hs.empty
  have hdir : ∀ i, s.memCfgRefresh.toState.dir i = none := by
    intro i
    change (if (s.memCfgRefresh.ml2 i).v then _ else none) = none
    rw [hempty i]
    rfl
  have hm : Mapped s.memCfgRefresh.plan used := by
    refine ⟨hs.low, ⟨fun k o h => hs.claimed _ h.2, ?_⟩⟩
    intro k o k' o' r h h' hr hr'
    have heq := hs.inj _ _ r h.2 h'.2 hr hr'
    constructor
    · rw [← line_byteOf h.1 o, heq, line_byteOf h'.1 o']
    · rw [← lineOff_byteOf h.1 o, heq, lineOff_byteOf h'.1 o']
  have hfit : Fit s.memCfgRefresh.plan used s.memCfgRefresh :=
    ⟨memCfgRefresh_fresh s, hs.on, hforce.trans hs.unforced, rfl,
      DirectMapped.Plan.Coherent.of_empty hdir⟩
  apply outputs_flat chips hfit hm _ hx
  intro b hb
  obtain ⟨r, hr⟩ := hs.claimed b hb
  have hhome : s.memCfgRefresh.plan.home (b >>> 5) (lineOff b) = some r := by
    change s.memCfgRefresh.ramClaim (byteOf _ _) = some r
    rwa [byteOf_self]
  rw [seen, DirectMapped.Plan.view_empty hdir hhome, banksRead, hr]
  change s.memCfgRefresh.ram r = _
  rw [hram]

end Runs

/-! ## A machine with one bank -/

/-- The bridge with its cache on and one megabyte in its first bank. -/
def oneBank : Dev where
  cfg r :=
    if r = 0xA0#8 then 0x01#8
    else if r = 0xA8#8 then 0x02#8
    else if r = 0xAF#8 then 0x40#8
    else if r = 0xF2#8 then 0x08#8
    else 0#8
  barMask _ := 0#32

/-- One megabyte of zeros behind it. -/
def oneBankBus : GossamerBus Unit Unit where
  ramLog := 20
  ram := fun _ => 0#8
  rom := fun _ => 0xFF#8
  macio := ()
  pci := { devs := fun n => if n = 0#32 then some oneBank else none, addr := 0#32, memGen := 0#32 }
  ati := ⟨fun _ => 0#8, ()⟩

theorem oneBank_claim {a : U32} (h : a.toNat < 2 ^ 20) : oneBankBus.memCfgRefresh.ramClaim a = some a := by
  have hgo : oneBankBus.memCfgRefresh.memGo = true := by decide
  have hforce : oneBankBus.memCfgRefresh.forceBank0 = false := by decide
  have hen : (oneBankBus.memCfgRefresh.banks 0).en = true := by decide
  have hlo : (oneBankBus.memCfgRefresh.banks 0).lo = 0#32 := by decide
  have hhi : (oneBankBus.memCfgRefresh.banks 0).hi = 0xFFFFF#32 := by decide
  have hlog : oneBankBus.memCfgRefresh.ramLog = 20 := by decide
  have hbank : oneBankBus.memCfgRefresh.bankClaim a 0 = some a := by
    have hmask : (a - 0#32) &&& oneBankBus.memCfgRefresh.ramMask = a := by
      apply BitVec.eq_of_toNat_eq
      rw [BitVec.sub_zero, GossamerBus.and_ramMask_toNat, hlog]
      exact Nat.mod_eq_of_lt h
    have hin : a ≤ 0xFFFFF#32 := by
      rw [BitVec.le_def]
      change a.toNat ≤ 0xFFFFF
      omega
    have hin0 : 0#32 ≤ a := Nat.zero_le a.toNat
    rw [GossamerBus.bankClaim, hlo, hhi, if_pos ⟨hen, hin0, hin⟩, hmask]
  have hno : ¬ (oneBankBus.memCfgRefresh.forceBank0 = true ∧
      a.toNat < 2 ^ oneBankBus.memCfgRefresh.ramLog) := by
    rw [hforce]
    exact fun hc => Bool.false_ne_true hc.1
  rw [GossamerBus.ramClaim, if_neg hno, if_pos hgo, List.finRange_succ, List.findSome?_cons, hbank]

theorem oneBank_banked : Banked (fun a => a.toNat < 2 ^ 20) oneBankBus where
  on := by decide
  unforced := rfl
  empty _ := rfl
  low a h := by
    rw [BitVec.lt_def]
    change a.toNat < 0x40000000
    omega
  claimed a h := ⟨a, oneBank_claim h⟩
  inj a b r ha hb hra hrb := by
    rw [oneBank_claim ha] at hra
    rw [oneBank_claim hb] at hrb
    rw [Option.some.inj hra, Option.some.inj hrb]

/-- A word across two lines, one of which is then brought in and changed. -/
theorem oneBank_reads :
    outputs (Access.run quietChips)
      [.writeSized .word 0x1E#32 (0x11223344#32 : BitVec 32), .readLine32 0x20#32,
        .write8 0x20#32 0x55#8, .readSized .half 0x1F#32] oneBankBus =
      [[], 0x33#8 :: 0x44#8 :: List.replicate 30 0#8, [], [0x22#8, 0x55#8]] := by
  have hword : ∀ a ∈ GossamerBus.addrs 0x1E#32 4, a.toNat < 2 ^ 20 := by
    intro a ha
    have h : a.toNat < 0x1E + 4 := (GossamerBus.toNat_of_mem_addrs (by decide) ha).2
    omega
  have hhalf : ∀ a ∈ GossamerBus.addrs 0x1F#32 2, a.toNat < 2 ^ 20 := by
    intro a ha
    have h : a.toNat < 0x1F + 2 := (GossamerBus.toNat_of_mem_addrs (by decide) ha).2
    omega
  have hline : ∀ a ∈ GossamerBus.offsets.map (byteOf (0x20#32 >>> 5)), a.toNat < 2 ^ 20 := by
    intro a ha
    obtain ⟨o, _, rfl⟩ := List.mem_map.mp ha
    have ho := o.isLt
    rw [byteOf_toNat (by decide)]
    change 1 * 32 + o.toNat < 2 ^ 20
    omega
  refine (inlineL2_transparent quietChips oneBank_banked _ ?_).trans ?_
  · intro x hx
    simp only [List.mem_cons, List.not_mem_nil, or_false] at hx
    rcases hx with rfl | rfl | rfl | rfl
    · exact hword
    · exact hline
    · intro a ha
      rw [List.mem_singleton.mp ha]
      decide
    · exact hhalf
  · decide

end Gossamer

end OpenPowerMac
