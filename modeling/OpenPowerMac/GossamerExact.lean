/-
The converse: an access that is not in one piece, or is to a window its width does not
know, disagrees with its byte accesses.

The devices here are plain memories (`plainChips`), and the memories and registers behind
a decode are filled at will (`filled`). Two places that name different cells can then be
told apart by what they hold, so an access that agrees with its bytes whatever is stored
takes the places of its bytes.
-/
import OpenPowerMac.GossamerSized

set_option autoImplicit false

namespace OpenPowerMac

namespace Gossamer

/-- The register or byte a place names. The aperture shows the ATI's registers more than
once, and so does its I/O window. -/
def Place.cell : Place → Place
  | .ap off => if kRegTop ≤ off then .ap (kRegTop + ((off - kRegTop) &&& 0x3FF#32)) else .ap off
  | .io off => .io (off &&& 0xFF#32)
  | p => p

/-- Lanes are those of one word. -/
def Place.Proper : Place → Prop
  | .data lane => lane.toNat < 4
  | .latch lane => lane.toNat < 4
  | _ => True

namespace GossamerBus

variable {μ α : Type}

/-- Registers that hold what is written to them. -/
def plainChips : Chips (U32 → U8) (Bool → U32 → U8) where
  macRead8 off s := (s.macio off, s)
  macWrite8 off v s := { s with macio := fun a => if a = off then v else s.macio a }
  regRead8 off io r := (r io off, r)
  regWrite8 off v io r := fun i a => if i = io ∧ a = off then v else r i a

/-- The bus with the same decode, every cell behind it holding what `c` says. -/
def filled (s : GossamerBus μ α) (c : Place → U8) : GossamerBus (U32 → U8) (Bool → U32 → U8) where
  ramLog := s.ramLog
  ram := fun off => c (.ram off)
  rom := fun i => c (.rom i)
  macio := fun off => c (.macio off)
  pci :=
    { s.pci with
      addr := 0x80000000#32
      devs := fun n =>
        if n = 0#32 then some ⟨fun r => c (.data (r.setWidth 32)), fun _ => 0#32⟩ else s.pci.devs n }
  ati :=
    { vram := fun off => c (.ap off)
      chip := fun io r => if io then c (.io r) else c (.ap (kRegTop + r)) }
  forceBank0 := s.forceBank0
  bankGen := s.bankGen
  banks := s.banks
  memGo := s.memGo
  ml2 := fun i => { s.ml2 i with b := fun o => c (.line i o) }
  ml2Lines := s.ml2Lines
  ml2On := s.ml2On
  configAddr :=
    ofBytes 32 [c (.latch 0#32), c (.latch 1#32), c (.latch 2#32), c (.latch 3#32)]

theorem filled_place (s : GossamerBus μ α) (c : Place → U8) : (s.filled c).place = s.place := by
  have hbase : (s.filled c).pci.atiBase = s.pci.atiBase := rfl
  have hio : (s.filled c).pci.atiIoBase = s.pci.atiIoBase := rfl
  have hw : ∀ a, (s.filled c).atiWindow a = s.atiWindow a := by
    intro a
    simp only [atiWindow, hbase]
  have hi : ∀ a, (s.filled c).atiIoWindow a = s.atiIoWindow a := by
    intro a
    simp only [atiIoWindow, hio]
  have hl : ∀ a, (s.filled c).ml2Lookup a = s.ml2Lookup a := fun _ => rfl
  have hr : ∀ a, (s.filled c).ramClaim a = s.ramClaim a := fun _ => rfl
  funext a
  simp only [place, placeBeyond, hw, hi, hl, hr]

theorem filled_mask (s : GossamerBus μ α) (c : Place → U8) : (s.filled c).ramMask = s.ramMask := rfl

theorem filled_settled {s : GossamerBus μ α} {a : U32} (h : s.Settled a) (c : Place → U8) :
    (s.filled c).Settled a := h

theorem lane_byte (c : Place → U8) {lane : U32} (h : lane.toNat < 4) :
    ((ofBytes 32 [c (.latch 0#32), c (.latch 1#32), c (.latch 2#32), c (.latch 3#32)]
      >>> (8 * (3 - lane.toNat))).setWidth 8 : U8) = c (.latch lane) := by
  have hb := bytes32_ofBytes (c (.latch 0#32)) (c (.latch 1#32)) (c (.latch 2#32)) (c (.latch 3#32))
  simp only [bytes32, List.cons.injEq, and_true] at hb
  obtain ⟨h0, h1, h2, h3⟩ := hb
  have hlane : lane = 0#32 ∨ lane = 1#32 ∨ lane = 2#32 ∨ lane = 3#32 := by
    have hcases : lane.toNat = 0 ∨ lane.toNat = 1 ∨ lane.toNat = 2 ∨ lane.toNat = 3 := by omega
    rcases hcases with h | h | h | h
    · exact Or.inl (BitVec.eq_of_toNat_eq h)
    · exact Or.inr (Or.inl (BitVec.eq_of_toNat_eq h))
    · exact Or.inr (Or.inr (Or.inl (BitVec.eq_of_toNat_eq h)))
    · exact Or.inr (Or.inr (Or.inr (BitVec.eq_of_toNat_eq h)))
  rcases hlane with rfl | rfl | rfl | rfl
  · exact h0
  · exact h1
  · exact h2
  · exact h3

/-- A place of a filled bus holds what its cell was filled with. -/
theorem readPlace_filled (s : GossamerBus μ α) {c : Place → U8} (hc : c .nothing = 0xFF#8) {p : Place}
    (hp : p.Proper) : readPlace plainChips p (s.filled c) = (c p.cell, s.filled c) := by
  cases p with
  | data lane =>
    have hlane : lane.toNat < 4 := hp
    have hreg : (s.filled c).pci.reg lane = lane.setWidth 8 := by
      have h0 : (0x80000000#32 &&& 0xFC#32 : U32) = 0#32 := by decide
      simp only [PciConfig.reg, filled, h0, BitVec.zero_or]
    have hback : (lane.setWidth 8 : U8).setWidth 32 = lane := by
      apply BitVec.eq_of_toNat_eq
      rw [BitVec.toNat_setWidth, BitVec.toNat_setWidth]
      omega
    have hsel : (s.filled c).pci.selected =
        some ⟨fun r => c (.data (r.setWidth 32)), fun _ => 0#32⟩ := by
      have haddr : (s.filled c).pci.addr = 0x80000000#32 := rfl
      simp only [PciConfig.selected, PciConfig.devNum, haddr]
      rw [if_neg (by decide), if_neg (by decide)]
      change (if 0x80000000#32 >>> 11 &&& 0x1F#32 = 0#32 then
        some (⟨fun r => c (.data (r.setWidth 32)), fun _ => 0#32⟩ : Dev)
        else s.pci.devs (0x80000000#32 >>> 11 &&& 0x1F#32)) = _
      rw [if_pos (by decide)]
    simp only [readPlace, dataRead8, PciConfig.readData, hsel, hreg, hback, Place.cell]
  | latch lane =>
    simp only [readPlace, filled, lane_byte c hp, Place.cell]
  | nothing => simp only [readPlace, Place.cell, hc]
  | ap off =>
    simp only [readPlace, apRead8, Place.cell]
    split_ifs <;> rfl
  | _ => rfl

theorem readEach_filled (s : GossamerBus μ α) {c : Place → U8} (hc : c .nothing = 0xFF#8)
    (ps : List Place) (hp : ∀ p ∈ ps, p.Proper) :
    readEach (readPlace plainChips) ps (s.filled c) = ((ps.map Place.cell).map c, s.filled c) := by
  induction ps with
  | nil => rfl
  | cons p ps ih =>
    have hhead := readPlace_filled s hc (hp p List.mem_cons_self)
    have htail := ih fun q hq => hp q (List.mem_cons_of_mem p hq)
    simp only [readEach, hhead, htail, List.map_cons]

/-- Lists that no contents tell apart. -/
theorem eq_of_contents {ps qs : List Place} (hlen : ps.length = qs.length)
    (h : ∀ c : Place → U8, c .nothing = 0xFF#8 → ps.map c = qs.map c) : ps = qs := by
  induction ps generalizing qs with
  | nil => exact (List.length_eq_zero_iff.mp hlen.symm).symm
  | cons p ps ih =>
    cases qs with
    | nil => simp at hlen
    | cons q qs =>
      have hhead : ∀ c : Place → U8, c .nothing = 0xFF#8 → c p = c q := by
        intro c hc
        have := h c hc
        simp only [List.map_cons, List.cons.injEq] at this
        exact this.1
      have htail : ps = qs := ih (by simpa using hlen) fun c hc => by
        have := h c hc
        simp only [List.map_cons, List.cons.injEq] at this
        exact this.2
      have hpq : p = q := by
        by_contra hne
        -- fill one of the two with zero, and the rest with ones
        have hsplit : ∀ x y : Place, x ≠ y → x ≠ .nothing →
            (∀ c : Place → U8, c .nothing = 0xFF#8 → c x = c y) → False := by
          intro x y hxy hx hall
          have := hall (fun z => if z = x then 0#8 else 0xFF#8) (if_neg (Ne.symm hx))
          rw [if_pos rfl, if_neg (Ne.symm hxy)] at this
          exact absurd this (by decide)
        by_cases hpn : p = .nothing
        · have hqn : q ≠ .nothing := by
            rw [← hpn]
            exact Ne.symm hne
          exact hsplit q p (Ne.symm hne) hqn fun c hc => (hhead c hc).symm
        · exact hsplit p q hne hpn hhead
      rw [hpq, htail]

/-! ## What agreement says of the places -/

theorem place_proper (s : GossamerBus μ α) (a : U32) : (s.place a).Proper := by
  have hat := place_at s a
  cases hpl : s.place a with
  | data lane =>
    rw [hpl] at hat
    change lane.toNat < 4
    rw [hat.2]
    exact and_three_lt a
  | latch lane =>
    rw [hpl] at hat
    change lane.toNat < 4
    rw [hat.2]
    exact and_three_lt a
  | _ => trivial

/-- Byte reads of a filled bus. -/
theorem readEach_read8_filled {s : GossamerBus μ α} {c : Place → U8} (hc : c .nothing = 0xFF#8)
    {l : List U32} (hl : ∀ a ∈ l, s.Settled a) :
    readEach (read8 plainChips) l (s.filled c) = (((l.map s.place).map Place.cell).map c, s.filled c) := by
  rw [← readEach_filled s hc (l.map s.place)]
  · refine readEach_congr (I := fun t => t = s.filled c) _ ?_ rfl
    rintro a ha t rfl
    rw [read8_eq, (filled_settled (hl a ha) c).enter, filled_place,
      readPlace_filled s hc (place_proper s a)]
    exact ⟨rfl, rfl⟩
  · intro p hp
    obtain ⟨a, _, rfl⟩ := List.mem_map.mp hp
    exact place_proper s a

theorem spread16_proper (m pa : U32) {p : Place} (hp : p.Proper) : ∀ q ∈ spread16 m pa p, q.Proper := by
  have htail : ∀ q ∈ (if pa &&& ~~~3#32 = kConfigAddr then
      [Place.latch (pa &&& 2#32), .latch ((pa &&& 2#32) + 1#32)] else [.nothing, .nothing]), q.Proper := by
    intro q hq
    split_ifs at hq
    · rcases List.mem_pair.mp hq with rfl | rfl <;> rcases and_two_eq pa with h | h <;>
        simp [h, Place.Proper]
    · rcases List.mem_pair.mp hq with rfl | rfl <;> trivial
  intro q hq
  cases p with
  | line i o => rcases List.mem_pair.mp hq with rfl | rfl <;> trivial
  | ram ro => rcases List.mem_pair.mp hq with rfl | rfl <;> trivial
  | rom i => rcases List.mem_pair.mp hq with rfl | rfl <;> trivial
  | macio off => rcases List.mem_pair.mp hq with rfl | rfl <;> trivial
  | _ => exact htail q hq

theorem spread32_proper (m pa : U32) (p : Place) : ∀ q ∈ spread32 m pa p, q.Proper := by
  have htail : ∀ q ∈ (if pa = kConfigAddr then [Place.latch 0#32, .latch 1#32, .latch 2#32, .latch 3#32]
      else [.nothing, .nothing, .nothing, .nothing]), q.Proper := by
    intro q hq
    split_ifs at hq <;> simp only [List.mem_cons, List.not_mem_nil, or_false] at hq
    · rcases hq with rfl | rfl | rfl | rfl <;> simp [Place.Proper]
    · rcases hq with rfl | rfl | rfl | rfl <;> trivial
  intro q hq
  cases p with
  | latch lane => exact htail q hq
  | nothing => exact htail q hq
  | data lane =>
    simp only [spread32, List.mem_cons, List.not_mem_nil, or_false] at hq
    rcases hq with rfl | rfl | rfl | rfl <;> simp [Place.Proper]
  | _ =>
    simp only [spread32, List.mem_cons, List.not_mem_nil, or_false] at hq
    rcases hq with rfl | rfl | rfl | rfl <;> trivial

/-- The places a word access takes, split or not. -/
def wordPlaces (s : GossamerBus μ α) (pa : U32) : List Place :=
  if pa < kMemSpace ∧ 28#32 < pa &&& 31#32 then (addrs pa 4).map s.place
  else spread32 s.ramMask pa (s.place pa)

theorem read32Bytes_filled {s : GossamerBus μ α} {c : Place → U8} (hc : c .nothing = 0xFF#8) {pa : U32}
    (hl : ∀ a ∈ addrs pa 4, s.Settled a) :
    read32Bytes plainChips pa (s.filled c) =
      (((s.wordPlaces pa).map Place.cell).map c, s.filled c) := by
  have hpa : s.Settled pa := hl pa (mem_addrs.mpr ⟨0, by decide, by simp⟩)
  unfold wordPlaces
  by_cases hsplit : pa < kMemSpace ∧ 28#32 < pa &&& 31#32
  · rw [if_pos hsplit, ← readEach_read8_filled hc hl, read32Bytes, if_pos hsplit.1, if_pos hsplit.2,
      addrs_four]
  · have hu : Unsplit32 pa := fun hlow => BitVec.not_lt.mp fun h => hsplit ⟨hlow, h⟩
    rw [if_neg hsplit, read32Bytes_eq plainChips hu, (filled_settled hpa c).enter, filled_mask,
      filled_place, readEach_filled s hc _ (spread32_proper _ _ _)]

theorem length_spread32 (m pa : U32) (p : Place) : (spread32 m pa p).length = 4 := by
  cases p <;> simp only [spread32] <;> first | rfl | (split_ifs <;> rfl)

theorem length_spread16 (m pa : U32) (p : Place) : (spread16 m pa p).length = 2 := by
  cases p <;> simp only [spread16] <;> first | rfl | (split_ifs <;> rfl)

theorem length_wordPlaces (s : GossamerBus μ α) (pa : U32) : (s.wordPlaces pa).length = 4 := by
  unfold wordPlaces
  split_ifs
  · rw [List.length_map, length_addrs]
  · exact length_spread32 _ _ _

theorem spread32_nothing (m : U32) {pa : U32} (h : pa ≠ kConfigAddr) :
    spread32 m pa .nothing = [.nothing, .nothing, .nothing, .nothing] := if_neg h

/-- Outside the ATI a cell is its place. -/
theorem eq_of_cell {p q : Place} (hap : ∀ off, q ≠ .ap off) (hio : ∀ off, q ≠ .io off)
    (h : q.cell = p.cell) : p = q := by
  have hq : q.cell = q := by
    cases q with
    | ap off => exact absurd rfl (hap off)
    | io off => exact absurd rfl (hio off)
    | _ => rfl
  rw [hq] at h
  cases p with
  | ap off =>
    simp only [Place.cell] at h
    split_ifs at h <;> exact absurd h (hap _)
  | io off => exact absurd h (hio _)
  | _ => exact h.symm

theorem latch_of_cell {lane : U32} {p : Place} (h : (Place.latch lane).cell = p.cell) : p = .latch lane :=
  eq_of_cell nofun nofun h

theorem ap_of_cell {off : U32} {p : Place} (h : (Place.ap off).cell = p.cell) : ∃ off', p = .ap off' := by
  cases p with
  | ap off' => exact ⟨off', rfl⟩
  | _ =>
    simp only [Place.cell] at h
    split_ifs at h

theorem io_of_cell {off : U32} {p : Place} (h : (Place.io off).cell = p.cell) : ∃ off', p = .io off' := by
  cases p with
  | io off' => exact ⟨off', rfl⟩
  | ap off' =>
    simp only [Place.cell] at h
    split_ifs at h
  | _ => simp [Place.cell] at h

/-- Both windows of the aperture begin on its size, so the offset is the address's. -/
theorem atiWindow_toNat {s : GossamerBus μ α} {a off : U32} (h : s.atiWindow a = some off) :
    off.toNat = a.toNat % 2 ^ 23 := by
  have hwin : ∀ b : U32, b.toNat % 2 ^ 23 = 0 → a - b < kAtiAperture → a - b = off →
      off.toNat = a.toNat % 2 ^ 23 := by
    intro b hb hlt hoff
    rw [hoff] at hlt
    have h1 : off.toNat < 2 ^ 23 := hlt
    have h2 := a.isLt
    have h3 := b.isLt
    have h4 := congrArg BitVec.toNat hoff
    rw [BitVec.toNat_sub] at h4
    omega
  unfold atiWindow at h
  split_ifs at h with h1 h2
  · exact hwin _ (atiBase_aligned s.pci) h1.2 (Option.some.inj h)
  · exact hwin 0x8F800000#32 (by decide) h2 (Option.some.inj h)

/-- The aperture's bytes are beside each other only inside it. -/
theorem ap_next {s : GossamerBus μ α} {pa off off' : U32} {k : ℕ} (hk : k < 4)
    (h : s.atiWindow pa = some off) (h' : s.atiWindow (pa + BitVec.ofNat 32 k) = some off')
    (hcell : (Place.ap (off + BitVec.ofNat 32 k)).cell = (Place.ap off').cell) :
    off' = off + BitVec.ofNat 32 k := by
  have h1 := atiWindow_toNat h
  have h2 := atiWindow_toNat h'
  have h3 := pa.isLt
  rw [BitVec.toNat_add, BitVec.toNat_ofNat] at h2
  have hsum : (off + BitVec.ofNat 32 k).toNat = off.toNat + k := by
    rw [BitVec.toNat_add, BitVec.toNat_ofNat]
    omega
  by_cases hin : off.toNat + k < 2 ^ 23
  · apply BitVec.eq_of_toNat_eq
    rw [hsum]
    omega
  · -- past the end the sized access wraps in the registers, and the byte is elsewhere
    exfalso
    have htop : kRegTop ≤ off + BitVec.ofNat 32 k := by
      rw [BitVec.le_def, hsum]
      change 0x7FF800 ≤ _
      omega
    have htop' : ¬ kRegTop ≤ off' := by
      rw [BitVec.le_def]
      change ¬ 0x7FF800 ≤ _
      omega
    simp only [Place.cell, if_pos htop, if_neg htop', Place.ap.injEq] at hcell
    have hnat := congrArg BitVec.toNat hcell
    have hsmall : ((off + BitVec.ofNat 32 k - kRegTop) &&& 0x3FF#32).toNat < 2 ^ 10 := by
      rw [BitVec.toNat_and]
      exact Nat.and_lt_two_pow _ (by decide)
    rw [BitVec.toNat_add] at hnat
    change (0x7FF800 + _) % 2 ^ 32 = _ at hnat
    omega

theorem io_next {s : GossamerBus μ α} {pa off off' k : U32} (h : s.atiIoWindow pa = some off)
    (h' : s.atiIoWindow (pa + k) = some off') : off' = off + k := by
  simp only [atiIoWindow] at h h'
  split_ifs at h h'
  rw [← Option.some.inj h, ← Option.some.inj h', BitVec.sub_eq_add_neg, BitVec.sub_eq_add_neg,
    BitVec.add_assoc, BitVec.add_assoc, BitVec.add_comm k]

theorem run_four {s : GossamerBus μ α} {pa : U32}
    (h1 : s.place (pa + 1#32) = (s.place pa).next s.ramMask 1#32)
    (h2 : s.place (pa + 2#32) = (s.place pa).next s.ramMask 2#32)
    (h3 : s.place (pa + 3#32) = (s.place pa).next s.ramMask 3#32) : s.Run pa 4 := by
  intro k hk0 hk
  interval_cases k
  · exact h1
  · exact h2
  · exact h3

/-- The cells a word takes are those of its bytes only if it is in one piece, or begins at
the address latch. -/
theorem straight32_of_cells {s : GossamerBus μ α} {pa : U32}
    (h : (s.wordPlaces pa).map Place.cell = ((addrs pa 4).map s.place).map Place.cell) :
    s.Straight32 pa ∨ ∃ lane, s.place pa = .latch lane := by
  -- a word over two lines of memory is split by the bus itself, a byte at a time
  by_cases hsplit : pa < kMemSpace ∧ 28#32 < pa &&& 31#32
  · left
    left
    intro hu
    exact absurd hsplit.2 (BitVec.not_lt.mpr (hu hsplit.1))
  have hat := place_at s pa
  rw [wordPlaces, if_neg hsplit, addrs_four] at h
  simp only [List.map_cons, List.map_nil] at h
  have hat1 := place_at s (pa + 1#32)
  have hat2 := place_at s (pa + 2#32)
  have hat3 := place_at s (pa + 3#32)
  cases hpl : s.place pa with
  | latch lane => exact Or.inr ⟨lane, rfl⟩
  | nothing =>
    rw [hpl] at h hat
    rw [spread32_nothing _ (word_ne_addr hat)] at h
    simp only [List.map_cons, List.map_nil, List.cons.injEq, and_true] at h
    refine Or.inl (Or.inr ⟨by rw [hpl]; trivial, ?_⟩)
    apply run_four <;> rw [hpl]
    · exact eq_of_cell (by simp [Place.next]) (by simp [Place.next]) h.2.1
    · exact eq_of_cell (by simp [Place.next]) (by simp [Place.next]) h.2.2.1
    · exact eq_of_cell (by simp [Place.next]) (by simp [Place.next]) h.2.2.2
  | ap off =>
    rw [hpl] at h hat
    simp only [spread32, List.map_cons, List.map_nil, List.cons.injEq, and_true] at h
    obtain ⟨off1, e1⟩ := ap_of_cell h.2.1
    obtain ⟨off2, e2⟩ := ap_of_cell h.2.2.1
    obtain ⟨off3, e3⟩ := ap_of_cell h.2.2.2
    rw [e1] at hat1 h
    rw [e2] at hat2 h
    rw [e3] at hat3 h
    refine Or.inl (Or.inr ⟨by rw [hpl]; trivial, ?_⟩)
    apply run_four <;> rw [hpl]
    · rw [e1, ap_next (k := 1) (by decide) hat hat1 h.2.1]
      rfl
    · rw [e2, ap_next (k := 2) (by decide) hat hat2 h.2.2.1]
      rfl
    · rw [e3, ap_next (k := 3) (by decide) hat hat3 h.2.2.2]
      rfl
  | io off =>
    rw [hpl] at h hat
    simp only [spread32, List.map_cons, List.map_nil, List.cons.injEq, and_true] at h
    obtain ⟨off1, e1⟩ := io_of_cell h.2.1
    obtain ⟨off2, e2⟩ := io_of_cell h.2.2.1
    obtain ⟨off3, e3⟩ := io_of_cell h.2.2.2
    rw [e1] at hat1
    rw [e2] at hat2
    rw [e3] at hat3
    refine Or.inl (Or.inr ⟨by rw [hpl]; trivial, ?_⟩)
    apply run_four <;> rw [hpl]
    · rw [e1, io_next hat hat1]
      rfl
    · rw [e2, io_next hat hat2]
      rfl
    · rw [e3, io_next hat hat3]
      rfl
  | data lane =>
    rw [hpl] at h
    simp only [spread32, List.map_cons, List.map_nil, List.cons.injEq, and_true] at h
    have h0 : Place.data lane = .data 0#32 := eq_of_cell (by simp) (by simp) h.1
    refine Or.inl (Or.inr ⟨by rw [hpl]; trivial, ?_⟩)
    apply run_four <;> rw [hpl, h0]
    · exact eq_of_cell (by simp [Place.next]) (by simp [Place.next]) h.2.1
    · exact eq_of_cell (by simp [Place.next]) (by simp [Place.next]) h.2.2.1
    · exact eq_of_cell (by simp [Place.next]) (by simp [Place.next]) h.2.2.2
  | _ =>
    rw [hpl] at h
    simp only [spread32, List.map_cons, List.map_nil, List.cons.injEq, and_true] at h
    refine Or.inl (Or.inr ⟨by rw [hpl]; trivial, ?_⟩)
    apply run_four <;> rw [hpl]
    · exact eq_of_cell (by simp [Place.next]) (by simp [Place.next]) h.2.1
    · exact eq_of_cell (by simp [Place.next]) (by simp [Place.next]) h.2.2.1
    · exact eq_of_cell (by simp [Place.next]) (by simp [Place.next]) h.2.2.2

/-- A halfword in a window that `read16` does not know takes the places of the word
backend, which are not the window's. -/
theorem word_backend_cell {pa : U32} {p q : Place} {ps : List Place}
    (hp : (∃ lane, p = .data lane) ∨ (∃ off, p = .ap off) ∨ ∃ off, p = .io off)
    (h : (if pa &&& ~~~3#32 = kConfigAddr then [Place.latch (pa &&& 2#32), .latch ((pa &&& 2#32) + 1#32)]
      else [.nothing, .nothing]) = q :: ps) (hcell : q.cell = p.cell) : False := by
  have hq : q = .nothing ∨ ∃ lane, q = .latch lane := by
    split_ifs at h <;> simp only [List.cons.injEq] at h
    · exact Or.inr ⟨_, h.1.symm⟩
    · exact Or.inl h.1.symm
  have hpq : p = q := by
    rcases hq with rfl | ⟨lane, rfl⟩ <;> exact eq_of_cell (by simp) (by simp) hcell
  rcases hp with ⟨x, rfl⟩ | ⟨x, rfl⟩ | ⟨x, rfl⟩ <;> rcases hq with rfl | ⟨lane, rfl⟩ <;> cases hpq

theorem straight16_of_cells {s : GossamerBus μ α} {pa : U32}
    (h : (spread16 s.ramMask pa (s.place pa)).map Place.cell = ((addrs pa 2).map s.place).map Place.cell) :
    s.Straight .half pa ∨ ∃ lane, s.place pa = .latch lane := by
  have hat := place_at s pa
  rw [addrs_two] at h
  simp only [List.map_cons, List.map_nil] at h
  have hrun : s.place (pa + 1#32) = (s.place pa).next s.ramMask 1#32 → s.Run pa 2 := by
    intro h1 k hk0 hk
    interval_cases k
    exact h1
  -- a half word at a backend reaches the address latch or nothing, never the backend's own cell
  have hrest : (∃ lane, s.place pa = .data lane) ∨ (∃ off, s.place pa = .ap off) ∨
      (∃ off, s.place pa = .io off) → False := by
    intro hp
    have hsp : ∃ q r, spread16 s.ramMask pa (s.place pa) = [q, r] ∧
        (if pa &&& ~~~3#32 = kConfigAddr then [Place.latch (pa &&& 2#32), .latch ((pa &&& 2#32) + 1#32)]
          else [.nothing, .nothing]) = [q, r] := by
      rcases hp with ⟨x, hx⟩ | ⟨x, hx⟩ | ⟨x, hx⟩ <;> rw [hx] <;> simp only [spread16] <;> split_ifs <;>
        exact ⟨_, _, rfl, rfl⟩
    obtain ⟨q, r, hq, hword⟩ := hsp
    rw [hq] at h
    simp only [List.map_cons, List.map_nil, List.cons.injEq, and_true] at h
    exact word_backend_cell hp hword h.1
  cases hpl : s.place pa with
  | latch lane => exact Or.inr ⟨lane, rfl⟩
  | data lane => exact (hrest (Or.inl ⟨lane, hpl⟩)).elim
  | ap off => exact (hrest (Or.inr (Or.inl ⟨off, hpl⟩))).elim
  | io off => exact (hrest (Or.inr (Or.inr ⟨off, hpl⟩))).elim
  | rom i =>
    rw [hpl] at hat
    exact Or.inl (Or.inr (Or.inl hat.1))
  | nothing =>
    rw [hpl] at h hat
    have hsp : spread16 s.ramMask pa .nothing = [.nothing, .nothing] := if_neg hat
    rw [hsp] at h
    simp only [List.map_cons, List.map_nil, List.cons.injEq, and_true] at h
    refine Or.inl (Or.inr (Or.inr ⟨by rw [hpl]; trivial, hrun ?_⟩))
    rw [hpl]
    exact eq_of_cell (by simp [Place.next]) (by simp [Place.next]) h.2
  | _ =>
    rw [hpl] at h
    simp only [spread16, List.map_cons, List.map_nil, List.cons.injEq, and_true] at h
    refine Or.inl (Or.inr (Or.inr ⟨by rw [hpl]; trivial, hrun ?_⟩))
    rw [hpl]
    exact eq_of_cell (by simp [Place.next]) (by simp [Place.next]) h.2

/-! ## Writes to the address latch -/

/-- Writes away from the latch leave it alone. -/
theorem configAddr_writePlace (chips : Chips μ α) {p : Place} (hp : p.Mild) (hl : p.Whole) (v : U8)
    (s : GossamerBus μ α) : (writePlace chips p v s).configAddr = s.configAddr := by
  cases p with
  | macio off => exact hp.elim
  | data lane => exact hp.elim
  | latch lane => exact hl.elim
  | ap off =>
    simp only [writePlace, apWrite8]
    split_ifs <;> rfl
  | _ => rfl

theorem configAddr_writeEach (chips : Chips μ α) {ps : List Place} (hp : ∀ p ∈ ps, p.Mild ∧ p.Whole)
    (vs : List U8) (s : GossamerBus μ α) :
    (writeEach (writePlace chips) (ps.zip vs) s).configAddr = s.configAddr := by
  induction ps generalizing s vs with
  | nil => rfl
  | cons p ps ih =>
    cases vs with
    | nil => rfl
    | cons v vs =>
      have hhead := configAddr_writePlace chips (hp p List.mem_cons_self).1 (hp p List.mem_cons_self).2 v s
      have htail := ih (fun q hq => hp q (List.mem_cons_of_mem p hq)) vs (writePlace chips p v s)
      rw [hhead] at htail
      exact htail

/-- The last byte written to the latch is all that it keeps. -/
theorem configAddr_latch_bytes (chips : Chips μ α) {s : GossamerBus μ α} {l : List U32} {lane : U32}
    (hst : s.Steady l) {ps : List Place} (hl : l.map s.place = ps ++ [.latch lane]) (vs : List U8) (v : U8)
    (hlen : vs.length = ps.length) :
    (writeEach (write8 chips) (l.zip (vs ++ [v])) s).configAddr =
      v.setWidth 32 <<< (8 * (3 - lane.toNat)) := by
  rw [writeEach_write8 chips hst, hl, List.zip_append hlen.symm, writeEach_append]
  simp only [List.zip_cons_cons, List.zip_nil_right, writeEach, List.foldl_cons, List.foldl_nil,
    writePlace, writeWord, if_true]

/-- A byte of the latch is behind no other window. -/
theorem windows_of_latch {s : GossamerBus μ α} {pa lane : U32} (h : s.place pa = .latch lane) :
    s.placeBeyond pa = .latch lane ∧ s.atiWindow pa = none ∧ s.atiIoWindow pa = none ∧
      pa.toNat / 4 * 4 = 0xFEC00000 := by
  have hat : pa &&& ~~~3#32 = kConfigAddr := (PlaceAt.of_eq h).1
  have hnat : pa.toNat / 4 * 4 = 0xFEC00000 := by
    rw [← and_not_three_toNat, hat]
    rfl
  have hlow : ¬ pa < kMemSpace := by
    rw [BitVec.lt_def]
    change ¬ pa.toNat < 0x40000000
    omega
  rw [place, if_neg hlow] at h
  refine ⟨h, ?_, ?_, hnat⟩
  · unfold placeBeyond at h
    split_ifs at h
    cases hw : s.atiWindow pa with
    | none => rfl
    | some off => simp [hw] at h
  · unfold placeBeyond at h
    split_ifs at h
    cases hw : s.atiWindow pa with
    | some off => simp [hw] at h
    | none =>
      cases hi : s.atiIoWindow pa with
      | none => rfl
      | some off => simp [hw, hi] at h

theorem write32_latch (chips : Chips μ α) {s : GossamerBus μ α} {lane : U32}
    (h : s.place kConfigAddr = .latch lane) (v : U32) :
    write32 chips kConfigAddr v s = writeWord kConfigAddr v s := by
  obtain ⟨_, hw, hi, _⟩ := windows_of_latch h
  rw [write32, if_neg (by decide), write32Beyond, if_neg (by decide), if_neg (by decide),
    if_neg (by decide), hw, hi]

theorem write16_latch (chips : Chips μ α) {s : GossamerBus μ α} {pa lane : U32}
    (h : s.place pa = .latch lane) (v : U16) :
    write16 chips pa v s =
      writeWord kConfigAddr (v.setWidth 32 <<< (if pa &&& 2#32 ≠ 0#32 then 0 else 16)) s := by
  obtain ⟨_, _, _, hnat⟩ := windows_of_latch h
  have hlow : ¬ pa < kMemSpace := by
    rw [BitVec.lt_def]
    change ¬ pa.toNat < 0x40000000
    omega
  have hrom : ¬ kRomAlias ≤ pa := by
    rw [BitVec.le_def]
    change ¬ 0xFF800000 ≤ pa.toNat
    omega
  have hmac : ¬ inMacIo pa = true := by
    simp only [inMacIo, Bool.and_eq_true, decide_eq_true_eq, BitVec.lt_def, not_and]
    intro _
    change ¬ pa.toNat < 0xF3100000
    omega
  rw [write16, if_neg hlow, write16Beyond, if_neg hrom, if_neg hmac, (PlaceAt.of_eq h).1]

/-- A word at the latch takes the latch's four bytes or none of them. -/
theorem word_at_latch {s : GossamerBus μ α} {pa lane : U32} (hp : s.place pa = .latch lane)
    (h : (s.wordPlaces pa).map Place.cell = ((addrs pa 4).map s.place).map Place.cell) :
    pa = kConfigAddr ∧
      (addrs pa 4).map s.place = [.latch 0#32, .latch 1#32, .latch 2#32] ++ [.latch 3#32] := by
  obtain ⟨_, _, _, hnat⟩ := windows_of_latch hp
  have hsplit : ¬ (pa < kMemSpace ∧ 28#32 < pa &&& 31#32) := by
    rw [BitVec.lt_def]
    change ¬ (pa.toNat < 0x40000000 ∧ _)
    omega
  rw [wordPlaces, if_neg hsplit, hp, addrs_four] at h
  rw [addrs_four]
  simp only [List.map_cons, List.map_nil] at h ⊢
  by_cases hpa : pa = kConfigAddr
  · have hsp : spread32 s.ramMask pa (.latch lane) =
        [.latch 0#32, .latch 1#32, .latch 2#32, .latch 3#32] := if_pos hpa
    rw [hsp] at h
    simp only [List.map_cons, List.map_nil, List.cons.injEq, and_true] at h
    refine ⟨hpa, ?_⟩
    rw [latch_of_cell h.1, latch_of_cell h.2.1, latch_of_cell h.2.2.1, latch_of_cell h.2.2.2]
    rfl
  · have hsp : spread32 s.ramMask pa (.latch lane) = [.nothing, .nothing, .nothing, .nothing] :=
      if_neg hpa
    rw [hsp] at h
    simp only [List.map_cons, List.map_nil, List.cons.injEq, and_true] at h
    have h0 := h.1
    rw [hp] at h0
    exact absurd (latch_of_cell h0.symm) nofun

/-- All ones, in every cell. -/
def ones (_ : Place) : U8 := 0xFF#8

/-- No write to the latch in one piece is the byte writes it stands for. -/
theorem not_latch_word {s : GossamerBus μ α} {pa lane : U32} (hset : ∀ a ∈ addrs pa 4, s.Settled a)
    (hagree : ∀ c : Place → U8, c .nothing = 0xFF#8 → Agrees plainChips .word pa (s.filled c))
    (hcells : (s.wordPlaces pa).map Place.cell = ((addrs pa 4).map s.place).map Place.cell) :
    s.place pa ≠ .latch lane := by
  intro hp
  obtain ⟨hpa, hpl⟩ := word_at_latch hp hcells
  have hst : (s.filled ones).Steady (addrs pa 4) := by
    left
    intro a ha
    refine ⟨filled_settled (hset a ha) ones, ?_⟩
    have hmem := List.mem_map_of_mem (f := s.place) ha
    rw [hpl] at hmem
    rw [filled_place]
    simp only [List.cons_append, List.nil_append, List.mem_cons, List.not_mem_nil, or_false] at hmem
    rcases hmem with h | h | h | h <;> rw [h] <;> trivial
  have hw := (hagree ones rfl).write (0xFFFFFFFF#32 : BitVec 32)
  have hbytes := configAddr_latch_bytes plainChips hst (by rw [filled_place]; exact hpl)
    [0xFF#8, 0xFF#8, 0xFF#8] 0xFF#8 rfl
  have hsized : (writeSized plainChips .word pa (0xFFFFFFFF#32 : BitVec 32) (s.filled ones)).configAddr =
      0xFFFFFFFF#32 := by
    rw [hpa] at hp ⊢
    change (write32 plainChips kConfigAddr _ _).configAddr = _
    rw [write32_latch plainChips (by rw [filled_place]; exact hp)]
    rfl
  rw [hw] at hsized
  have hbytes' : (writeEach (write8 plainChips)
      ((addrs pa Sized.word.bytes).zip (Sized.word.bytesOf (0xFFFFFFFF#32 : BitVec 32)))
      (s.filled ones)).configAddr = 0xFF#32 := hbytes
  rw [hbytes'] at hsized
  exact absurd hsized (by decide)

/-- No halfword write to the latch is the byte writes it stands for. -/
theorem not_latch_half {s : GossamerBus μ α} {pa lane : U32} (hset : ∀ a ∈ addrs pa 2, s.Settled a)
    (hagree : ∀ c : Place → U8, c .nothing = 0xFF#8 → Agrees plainChips .half pa (s.filled c))
    (hcells : (spread16 s.ramMask pa (s.place pa)).map Place.cell =
      ((addrs pa 2).map s.place).map Place.cell) : s.place pa ≠ .latch lane := by
  intro hp
  have hspread : spread16 s.ramMask pa (s.place pa) =
      [.latch (pa &&& 2#32), .latch ((pa &&& 2#32) + 1#32)] := by
    rw [hp]
    exact if_pos (PlaceAt.of_eq hp).1
  rw [hspread, addrs_two] at hcells
  simp only [List.map_cons, List.map_nil, List.cons.injEq, and_true] at hcells
  have hpl : (addrs pa 2).map s.place = [.latch (pa &&& 2#32)] ++ [.latch ((pa &&& 2#32) + 1#32)] := by
    rw [addrs_two]
    simp only [List.map_cons, List.map_nil]
    rw [latch_of_cell hcells.1, latch_of_cell hcells.2]
    rfl
  have hst : (s.filled ones).Steady (addrs pa 2) := by
    left
    intro a ha
    refine ⟨filled_settled (hset a ha) ones, ?_⟩
    have hmem := List.mem_map_of_mem (f := s.place) ha
    rw [hpl] at hmem
    rw [filled_place]
    rcases List.mem_pair.mp hmem with h | h <;> rw [h] <;> trivial
  have hw := (hagree ones rfl).write (0xFFFF#16 : BitVec 16)
  have hbytes := configAddr_latch_bytes plainChips hst (by rw [filled_place]; exact hpl)
    [0xFF#8] 0xFF#8 rfl
  have hsized : (writeSized plainChips .half pa (0xFFFF#16 : BitVec 16) (s.filled ones)).configAddr =
      0xFFFF#32 <<< (if pa &&& 2#32 ≠ 0#32 then 0 else 16) := by
    change (write16 plainChips pa _ _).configAddr = _
    rw [write16_latch plainChips (by rw [filled_place]; exact hp)]
    rfl
  rw [hw] at hsized
  have hbytes' : (writeEach (write8 plainChips)
      ((addrs pa Sized.half.bytes).zip (Sized.half.bytesOf (0xFFFF#16 : BitVec 16)))
      (s.filled ones)).configAddr = 0xFF#32 <<< (8 * (3 - ((pa &&& 2#32) + 1#32).toNat)) := hbytes
  rw [hbytes'] at hsized
  rcases and_two_eq pa with h | h <;> rw [h] at hsized <;> exact absurd hsized (by decide)

/-- The bytes of a doubleword of ones. -/
theorem dword_bytes (pa : U32) : (addrs pa 8).zip (Sized.dword.bytesOf (BitVec.allOnes 64)) =
    (addrs pa 4).zip ([0xFF#8, 0xFF#8, 0xFF#8] ++ [0xFF#8]) ++
      (addrs (pa + 4#32) 4).zip ([0xFF#8, 0xFF#8, 0xFF#8] ++ [0xFF#8]) := by
  rw [addrs_eight]
  exact List.zip_append (length_addrs pa 4)

/-- What an access needs is a matter of the places alone. -/
theorem straight32_congr {μ' α' : Type} {s : GossamerBus μ α} {s' : GossamerBus μ' α'}
    (hp : s'.place = s.place) (hm : s'.ramMask = s.ramMask) {pa : U32} (h : s.Straight32 pa) :
    s'.Straight32 pa := by
  unfold Straight32 Run at h ⊢
  rwa [hp, hm]

theorem straight_congr {μ' α' : Type} {s : GossamerBus μ α} {s' : GossamerBus μ' α'}
    (hp : s'.place = s.place) (hm : s'.ramMask = s.ramMask) {w : Sized} {pa : U32}
    (h : s.Straight w pa) : s'.Straight w pa := by
  cases w with
  | half =>
    unfold Straight Run at h ⊢
    rwa [hp, hm]
  | word => exact straight32_congr hp hm h
  | dword => exact ⟨straight32_congr hp hm h.1, straight32_congr hp hm h.2⟩

/-- Around the latch there is neither a mac-io register nor `CONFIG_DATA`. -/
theorem mild_near_latch {s : GossamerBus μ α} {a : U32} (hlo : 0xF3100000 ≤ a.toNat)
    (hhi : a.toNat < 0xFEE00000) : (s.place a).Mild := by
  have hat := place_at s a
  cases hpl : s.place a with
  | macio off =>
    rw [hpl] at hat
    have h1 := hat.1
    simp only [inMacIo, Bool.and_eq_true, decide_eq_true_eq, BitVec.lt_def] at h1
    have h2 : a.toNat < 0xF3100000 := h1.2
    omega
  | data lane =>
    rw [hpl] at hat
    have h1 := data_toNat hat.1
    omega
  | _ => trivial

/-- Byte writes to a word beside the latch. -/
theorem steady_near_latch {s : GossamerBus μ α} {pa : U32} (hset : ∀ a ∈ addrs pa 4, s.Settled a)
    (hlo : 0xF3100000 ≤ pa.toNat) (hhi : pa.toNat + 4 ≤ 0xFEE00000) :
    s.Steady (addrs pa 4) ∧ ∀ p ∈ (addrs pa 4).map s.place, p.Mild := by
  have hmild : ∀ a ∈ addrs pa 4, (s.place a).Mild := by
    intro a ha
    obtain ⟨h1, h2⟩ := toNat_of_mem_addrs (by omega) ha
    exact mild_near_latch (by omega) (by omega)
  refine ⟨Or.inl fun a ha => ⟨hset a ha, hmild a ha⟩, ?_⟩
  intro p hp
  obtain ⟨a, ha, rfl⟩ := List.mem_map.mp hp
  exact hmild a ha

theorem write8s_near_latch (chips : Chips μ α) {s : GossamerBus μ α} {pa : U32}
    (hset : ∀ a ∈ addrs pa 4, s.Settled a) (hlo : 0xF3100000 ≤ pa.toNat)
    (hhi : pa.toNat + 4 ≤ 0xFEE00000) (vs : List U8) :
    SameMap s (writeEach (write8 chips) ((addrs pa 4).zip vs) s) := by
  obtain ⟨hst, hall⟩ := steady_near_latch hset hlo hhi
  rw [writeEach_write8 chips hst]
  exact sameMap_writeEach chips hall vs

/-- The word after the latch is none of its bytes. -/
theorem write8s_after_latch (chips : Chips μ α) {s : GossamerBus μ α}
    (hset : ∀ a ∈ addrs (kConfigAddr + 4#32) 4, s.Settled a) (vs : List U8) :
    (writeEach (write8 chips) ((addrs (kConfigAddr + 4#32) 4).zip vs) s).configAddr =
      s.configAddr := by
  obtain ⟨hst, hall⟩ := steady_near_latch hset (by decide) (by decide)
  rw [writeEach_write8 chips hst]
  apply configAddr_writeEach chips
  intro p hp
  refine ⟨hall p hp, ?_⟩
  obtain ⟨a, ha, rfl⟩ := List.mem_map.mp hp
  cases hpl : s.place a with
  | latch lane =>
    have hnat := (windows_of_latch hpl).2.2.2
    have hmem := toNat_of_mem_addrs (by decide) ha
    change 0xFEC00004 ≤ a.toNat ∧ _ at hmem
    omega
  | _ => trivial

/-- A doubleword of ones, as the two word writes of its access and as its eight byte writes. -/
theorem configAddr_ones {s : GossamerBus μ α} {pa : U32}
    (hagree : Agrees plainChips .dword pa (s.filled ones)) :
    (write32 plainChips (pa + 4#32) 0xFFFFFFFF#32
      (write32 plainChips pa 0xFFFFFFFF#32 (s.filled ones))).configAddr =
      (writeEach (write8 plainChips) ((addrs (pa + 4#32) 4).zip ([0xFF#8, 0xFF#8, 0xFF#8] ++ [0xFF#8]))
        (writeEach (write8 plainChips) ((addrs pa 4).zip ([0xFF#8, 0xFF#8, 0xFF#8] ++ [0xFF#8]))
          (s.filled ones))).configAddr := by
  have h := hagree.write (BitVec.allOnes 64)
  change write64 plainChips pa (BitVec.allOnes 64) (s.filled ones) =
    writeEach (write8 plainChips) ((addrs pa 8).zip (Sized.dword.bytesOf (BitVec.allOnes 64))) _ at h
  rw [dword_bytes, writeEach_append] at h
  exact congrArg GossamerBus.configAddr h

section Dword

variable {s : GossamerBus μ α} {pa : U32}
  (hagree : Agrees plainChips .dword pa (s.filled ones))
include hagree

/-- With the latch in the second word, the first word is written alike, and then the latch is not. -/
theorem not_latch_second (hfit : pa.toNat + 8 ≤ 2 ^ 32)
    (hset1 : ∀ a ∈ addrs pa 4, (s.filled ones).Settled a)
    (hset2 : ∀ a ∈ addrs (pa + 4#32) 4, (s.filled ones).Settled a) (hs1 : s.Straight32 pa)
    {lane : U32} (hp2 : s.place (pa + 4#32) = .latch lane)
    (h2 : (s.wordPlaces (pa + 4#32)).map Place.cell =
      ((addrs (pa + 4#32) 4).map s.place).map Place.cell) : False := by
  have hnat : (pa + 4#32).toNat = pa.toNat + 4 := by
    rw [BitVec.toNat_add]
    change (pa.toNat + 4) % 2 ^ 32 = _
    omega
  have hplace : (s.filled ones).place = s.place := filled_place s ones
  have hw := configAddr_ones hagree
  obtain ⟨hpa, hpl⟩ := word_at_latch hp2 h2
  have hpan : pa.toNat = 0xFEBFFFFC := by
    rw [hpa] at hnat
    change 0xFEC00000 = _ at hnat
    omega
  have hfirst : write32 plainChips pa 0xFFFFFFFF#32 (s.filled ones) =
      writeEach (write8 plainChips) ((addrs pa 4).zip ([0xFF#8, 0xFF#8, 0xFF#8] ++ [0xFF#8]))
        (s.filled ones) := by
    refine write32_straight plainChips ?_ (by omega) 0xFFFFFFFF#32
    rw [(hset1 pa (mem_addrs.mpr ⟨0, by decide, by simp⟩)).enter]
    exact straight32_congr hplace rfl hs1
  have hmap := write8s_near_latch plainChips hset1 (by omega) (by omega)
    ([0xFF#8, 0xFF#8, 0xFF#8] ++ [0xFF#8])
  rw [hfirst] at hw
  generalize writeEach (write8 plainChips)
    ((addrs pa 4).zip ([0xFF#8, 0xFF#8, 0xFF#8] ++ [0xFF#8])) (s.filled ones) = x at hw hmap
  have hplx : x.place = s.place := hmap.place.trans hplace
  have hst := (steady_near_latch (s := x) (fun a ha => hmap.settled (hset2 a ha)) (by omega)
    (by omega)).1
  have hbytes := configAddr_latch_bytes plainChips hst (by rw [hplx]; exact hpl)
    [0xFF#8, 0xFF#8, 0xFF#8] 0xFF#8 rfl
  have hsized : (write32 plainChips (pa + 4#32) 0xFFFFFFFF#32 x).configAddr = 0xFFFFFFFF#32 := by
    rw [hpa] at hp2 ⊢
    rw [write32_latch plainChips (by rw [hplx]; exact hp2)]
    rfl
  rw [hbytes, hsized] at hw
  exact absurd hw (by decide)

/-- With the latch in the first word, the second word leaves it alone. -/
theorem not_latch_first (hset1 : ∀ a ∈ addrs pa 4, (s.filled ones).Settled a)
    (hset2 : ∀ a ∈ addrs (pa + 4#32) 4, (s.filled ones).Settled a)
    {lane : U32} (hp1 : s.place pa = .latch lane)
    (h1 : (s.wordPlaces pa).map Place.cell = ((addrs pa 4).map s.place).map Place.cell)
    (h2 : (s.wordPlaces (pa + 4#32)).map Place.cell =
      ((addrs (pa + 4#32) 4).map s.place).map Place.cell) : False := by
  have hplace : (s.filled ones).place = s.place := filled_place s ones
  have hw := configAddr_ones hagree
  obtain ⟨rfl, hpl⟩ := word_at_latch hp1 h1
  have hst := (steady_near_latch hset1 (by decide) (by decide)).1
  have hbytes := configAddr_latch_bytes plainChips hst (by rw [hplace]; exact hpl)
    [0xFF#8, 0xFF#8, 0xFF#8] 0xFF#8 rfl
  have hmapy := write8s_near_latch plainChips hset1 (by decide) (by decide)
    ([0xFF#8, 0xFF#8, 0xFF#8] ++ [0xFF#8])
  have hmapx := sameMap_writeWord kConfigAddr 0xFFFFFFFF#32 (s.filled ones)
  rw [write32_latch plainChips (by rw [hplace]; exact hp1)] at hw
  rw [write8s_after_latch plainChips (fun a ha => hmapy.settled (hset2 a ha)), hbytes] at hw
  rcases straight32_of_cells h2 with hs2 | ⟨lane2, hp2⟩
  · have hsecond : write32 plainChips (kConfigAddr + 4#32) 0xFFFFFFFF#32
        (writeWord kConfigAddr 0xFFFFFFFF#32 (s.filled ones)) =
        writeEach (write8 plainChips)
          ((addrs (kConfigAddr + 4#32) 4).zip (bytes32 0xFFFFFFFF#32))
          (writeWord kConfigAddr 0xFFFFFFFF#32 (s.filled ones)) := by
      refine write32_straight plainChips ?_ (by decide) 0xFFFFFFFF#32
      rw [(hmapx.settled (hset2 _ (mem_addrs.mpr ⟨0, by decide, by simp⟩))).enter]
      exact hmapx.straight32 (straight32_congr hplace rfl hs2)
    rw [hsecond, write8s_after_latch plainChips (fun a ha => hmapx.settled (hset2 a ha))] at hw
    change (0xFFFFFFFF#32 : U32) = _ at hw
    exact absurd hw (by decide)
  · have hbad := (windows_of_latch hp2).2.2.2
    change 0xFEC00004 / 4 * 4 = 0xFEC00000 at hbad
    omega

end Dword

/-- Nor is any doubleword write that has the latch in one of its words. -/
theorem not_latch_dword {s : GossamerBus μ α} {pa : U32} (hfit : pa.toNat + 8 ≤ 2 ^ 32)
    (hset : ∀ a, pa ≤ a → s.Settled a)
    (hagree : ∀ c : Place → U8, c .nothing = 0xFF#8 → Agrees plainChips .dword pa (s.filled c))
    (h1 : (s.wordPlaces pa).map Place.cell = ((addrs pa 4).map s.place).map Place.cell)
    (h2 : (s.wordPlaces (pa + 4#32)).map Place.cell =
      ((addrs (pa + 4#32) 4).map s.place).map Place.cell) :
    s.Straight32 pa ∧ s.Straight32 (pa + 4#32) := by
  have hnat : (pa + 4#32).toNat = pa.toNat + 4 := by
    rw [BitVec.toNat_add]
    change (pa.toNat + 4) % 2 ^ 32 = _
    omega
  have hle : pa ≤ pa + 4#32 := by
    rw [BitVec.le_def, hnat]
    omega
  have hset1 : ∀ a ∈ addrs pa 4, (s.filled ones).Settled a := fun a ha =>
    filled_settled (hset a (le_of_mem_addrs (by omega) ha)) ones
  have hset2 : ∀ a ∈ addrs (pa + 4#32) 4, (s.filled ones).Settled a := fun a ha =>
    filled_settled (hset a (BitVec.le_trans hle (le_of_mem_addrs (by omega) ha))) ones
  rcases straight32_of_cells h1 with hs1 | ⟨lane, hp1⟩
  · rcases straight32_of_cells h2 with hs2 | ⟨lane, hp2⟩
    · exact ⟨hs1, hs2⟩
    · exact (not_latch_second (hagree ones rfl) hfit hset1 hset2 hs1 hp2 h2).elim
  · exact (not_latch_first (hagree ones rfl) hset1 hset2 hp1 h1 h2).elim

/-! ## When sized accesses are byte accesses -/

/-- An access that agrees with its bytes whatever the cells hold takes their cells. -/
theorem cells_of_agrees {s : GossamerBus μ α} {pa : U32} {w : Sized} (ps : List Place)
    (hset : ∀ a ∈ addrs pa w.bytes, s.Settled a) (hlen : ps.length = w.bytes)
    (hread : ∀ c : Place → U8, c .nothing = 0xFF#8 →
      (readSized plainChips w pa (s.filled c)).1 = ofBytes w.bits ((ps.map Place.cell).map c))
    (hagree : ∀ c : Place → U8, c .nothing = 0xFF#8 → Agrees plainChips w pa (s.filled c)) :
    ps.map Place.cell = ((addrs pa w.bytes).map s.place).map Place.cell := by
  apply eq_of_contents
  · rw [List.length_map, List.length_map, List.length_map, length_addrs, hlen]
  · intro c hc
    have h := congrArg Prod.fst (hagree c hc).read
    rw [hread c hc, readEach_read8_filled hc hset] at h
    refine ofBytes_inj ?_ ?_ ?_ h
    · simp only [List.length_map, length_addrs, hlen]
    · rw [List.length_map, List.length_map, hlen]
      cases w <;> decide
    · rw [List.length_map, List.length_map, hlen]
      cases w <;> decide

theorem straight_of_agrees {s : GossamerBus μ α} {pa : U32} {w : Sized}
    (hfit : pa.toNat + w.bytes ≤ 2 ^ 32) (hset : ∀ a, pa ≤ a → s.Settled a)
    (hagree : ∀ c : Place → U8, c .nothing = 0xFF#8 → Agrees plainChips w pa (s.filled c)) :
    s.Straight w pa := by
  have hset' : ∀ a ∈ addrs pa w.bytes, s.Settled a := fun a ha => hset a (le_of_mem_addrs hfit ha)
  have hent : ∀ c, (s.filled c).enter pa = s.filled c := fun c =>
    (filled_settled (hset pa (BitVec.le_refl pa)) c).enter
  cases w with
  | half =>
    by_cases hu : Unsplit16 pa
    · have hcells := cells_of_agrees _ hset' (length_spread16 s.ramMask pa (s.place pa)) (by
        intro c hc
        change ofBytes 16 (read16Bytes plainChips pa (s.filled c)).1 = _
        rw [read16Bytes_eq plainChips hu, hent, filled_mask, filled_place,
          readEach_filled s hc _ (spread16_proper _ _ (place_proper s pa))]
        rfl) hagree
      rcases straight16_of_cells hcells with h | ⟨lane, hlane⟩
      · exact h
      · exact absurd hlane (not_latch_half hset' hagree hcells)
    · exact Or.inl hu
  | word =>
    have hcells := cells_of_agrees _ hset' (length_wordPlaces s pa) (by
      intro c hc
      change ofBytes 32 (read32Bytes plainChips pa (s.filled c)).1 = _
      rw [read32Bytes_filled hc hset']
      rfl) hagree
    rcases straight32_of_cells hcells with h | ⟨lane, hlane⟩
    · exact h
    · exact absurd hlane (not_latch_word hset' hagree hcells)
  | dword =>
    -- a double word is two words, each with its own places
    have hset4 : ∀ a ∈ addrs pa 4, s.Settled a := fun a ha => hset' a (by
      change a ∈ addrs pa 8
      rw [addrs_eight]
      exact List.mem_append_left _ ha)
    have hset4' : ∀ a ∈ addrs (pa + 4#32) 4, s.Settled a := fun a ha => hset' a (by
      change a ∈ addrs pa 8
      rw [addrs_eight]
      exact List.mem_append_right _ ha)
    have hcells := cells_of_agrees (s.wordPlaces pa ++ s.wordPlaces (pa + 4#32)) hset' (by
        rw [List.length_append, length_wordPlaces, length_wordPlaces]
        rfl) (by
      intro c hc
      have h1 := read32Bytes_filled hc hset4
      have h2 := read32Bytes_filled hc hset4'
      change (read64 plainChips pa (s.filled c)).1 = ofBytes 64 _
      rw [List.map_append, List.map_append, ← ofBytes_words (by
        rw [List.length_map, List.length_map, length_wordPlaces]) (by
        rw [List.length_map, List.length_map, length_wordPlaces])]
      simp only [read64, read32_snd, h1, h2]) hagree
    have hsplit : ((addrs pa 8).map s.place).map Place.cell =
        ((addrs pa 4).map s.place).map Place.cell ++
          ((addrs (pa + 4#32) 4).map s.place).map Place.cell := by
      rw [addrs_eight, List.map_append, List.map_append]
    change _ = ((addrs pa 8).map s.place).map Place.cell at hcells
    rw [hsplit, List.map_append] at hcells
    obtain ⟨h1, h2⟩ := List.append_inj hcells (by
      simp only [List.length_map, length_wordPlaces, length_addrs])
    exact not_latch_dword hfit hset hagree h1 h2

end GossamerBus

/-- A machine whose `CONFIG_ADDR` points at the identification of the bridge. -/
def pointedAtBridge : GossamerBus Unit Unit where
  ramLog := 26
  ram := fun _ => 0#8
  rom := fun _ => 0xFF#8
  macio := ()
  pci :=
    { devs := fun n => if n = 0#32 then
        some ⟨fun r => if r = 0#8 then 0x57#8 else if r = 1#8 then 0x10#8 else 0#8, fun _ => 0#32⟩
        else none
      addr := 0x80000000#32
      memGen := 0#32 }
  ati := ⟨fun _ => 0#8, ()⟩
  configAddr := 0x80#32

/-- A halfword read of `CONFIG_DATA` gives all ones, and its bytes are the bridge's. -/
theorem configData_half_differs : ¬ GossamerBus.Agrees quietChips .half kConfigData pointedAtBridge := by
  intro h
  have hread : (GossamerBus.read16 quietChips kConfigData pointedAtBridge).1 =
      ofBytes 16 (readEach (GossamerBus.read8 quietChips) (GossamerBus.addrs kConfigData 2)
        pointedAtBridge).1 := congrArg Prod.fst h.read
  have hsized : (GossamerBus.read16 quietChips kConfigData pointedAtBridge).1 = 0xFFFF#16 := by
    decide +kernel
  have hbytes : ofBytes 16 (readEach (GossamerBus.read8 quietChips) (GossamerBus.addrs kConfigData 2)
      pointedAtBridge).1 = 0x5710#16 := by
    decide +kernel
  rw [hsized, hbytes] at hread
  exact absurd hread (by decide)

open GossamerBus in
/-- Sized accesses at an address agree with the byte accesses, whatever the memories and
the devices behind the same decode hold and do, exactly when they lie in one piece in
windows their width knows. -/
theorem sized_agrees_iff {μ α : Type} (w : Sized) (s : GossamerBus μ α) (pa : U32)
    (hfit : pa.toNat + w.bytes ≤ 2 ^ 32) :
    (∀ (μ' α' : Type) (chips : Chips μ' α') (s' : GossamerBus μ' α'),
      (s'.enter pa).place = (s.enter pa).place → (s'.enter pa).ramMask = (s.enter pa).ramMask →
      Agrees chips w pa s') ↔ (s.enter pa).Straight w pa := by
  constructor
  · intro h
    have hset : ∀ a, pa ≤ a → (s.enter pa).Settled a := fun a ha => settled_enter ha s
    apply straight_of_agrees hfit hset
    intro c _
    have hent : ((s.enter pa).filled c).enter pa = (s.enter pa).filled c :=
      (filled_settled (hset pa (BitVec.le_refl pa)) c).enter
    apply h
    · rw [hent, filled_place]
    · rw [hent, filled_mask]
  · intro h μ' α' chips s' hp hm
    exact agrees_of_straight chips hfit (straight_congr hp hm h)

/-- The reset vector's word is in the image of the ROM. -/
theorem resetVector_agrees : GossamerBus.Agrees quietChips .word 0xFFF00100#32 pointedAtBridge := by
  refine (sized_agrees_iff .word pointedAtBridge 0xFFF00100#32 (by decide)).mpr ?_ Unit Unit quietChips
    pointedAtBridge rfl rfl
  refine Or.inr ⟨?_, ?_⟩
  · rw [GossamerBus.place_rom _ (by decide)]
    trivial
  · intro k _ hk
    interval_cases k
    · rw [GossamerBus.place_rom _ (by decide), GossamerBus.place_rom _ (by decide)]
      decide
    · rw [GossamerBus.place_rom _ (by decide), GossamerBus.place_rom _ (by decide)]
      decide
    · rw [GossamerBus.place_rom _ (by decide), GossamerBus.place_rom _ (by decide)]
      decide

end Gossamer

end OpenPowerMac
