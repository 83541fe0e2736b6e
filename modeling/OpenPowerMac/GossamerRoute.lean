/-
Sized accesses of the Gossamer's bus as accesses to places.

`place` is where one byte of an access goes: the chain of tests of `read8` and `write8`,
which is one chain. The wider accessors look at the first byte's place and take the
others to be beside it (`places16`, `places32`). An access is the byte accesses it stands
for exactly when the places it takes are the places its bytes have.
-/
import OpenPowerMac.Gossamer
import Mathlib.Tactic.IntervalCases

set_option autoImplicit false

namespace OpenPowerMac

namespace Gossamer

/-! ## Sequences of byte accesses -/

section Sequences

variable {σ κ : Type} (f : κ → σ → U8 × σ) (g : κ → U8 → σ → σ)

theorem readEach_append (as bs : List κ) (s : σ) :
    readEach f (as ++ bs) s =
      ((readEach f as s).1 ++ (readEach f bs (readEach f as s).2).1,
        (readEach f bs (readEach f as s).2).2) := by
  induction as generalizing s with
  | nil => rfl
  | cons a as ih => simp only [List.cons_append, readEach, ih]

theorem length_readEach (as : List κ) (s : σ) : (readEach f as s).1.length = as.length := by
  induction as generalizing s with
  | nil => rfl
  | cons a as ih => simp only [readEach, List.length_cons, ih]

theorem writeEach_append (as bs : List (κ × U8)) (s : σ) :
    writeEach g (as ++ bs) s = writeEach g bs (writeEach g as s) := List.foldl_append

/-- Two ways to read that agree on every element, in every state an invariant holds in. -/
theorem readEach_congr {κ' : Type} {f' : κ' → σ → U8 × σ} {p : κ → κ'} {I : σ → Prop} {as : List κ}
    (h : ∀ a ∈ as, ∀ s, I s → f a s = f' (p a) s ∧ I (f' (p a) s).2) {s : σ} (hs : I s) :
    readEach f as s = readEach f' (as.map p) s := by
  induction as generalizing s with
  | nil => rfl
  | cons a as ih =>
    have ha := h a List.mem_cons_self s hs
    have hrest := ih (fun b hb => h b (List.mem_cons_of_mem a hb)) ha.2
    simp only [List.map_cons, readEach, ha.1, hrest]

theorem writeEach_congr {κ' : Type} {g' : κ' → U8 → σ → σ} {p : κ → κ'} {I : σ → Prop} {as : List κ}
    (h : ∀ a ∈ as, ∀ v s, I s → g a v s = g' (p a) v s ∧ I (g' (p a) v s)) {s : σ} (hs : I s)
    (vs : List U8) : writeEach g (as.zip vs) s = writeEach g' ((as.map p).zip vs) s := by
  induction as generalizing s vs with
  | nil => rfl
  | cons a as ih =>
    cases vs with
    | nil => rfl
    | cons v vs =>
      have ha := h a List.mem_cons_self v s hs
      have hrest := ih (fun b hb => h b (List.mem_cons_of_mem a hb)) ha.2 vs
      simp only [writeEach, List.map_cons, List.zip_cons_cons, List.foldl_cons, ha.1] at hrest ⊢
      exact hrest

end Sequences

/-! ## Places -/

/-- Where one byte of an access goes. -/
inductive Place where
  | line (i : U32) (o : BitVec 5)
  | ram (off : U32)
  | rom (i : ℕ)
  | macio (off : U32)
  | data (lane : U32)
  | ap (off : U32)
  | io (off : U32)
  | latch (lane : U32)
  | nothing
  deriving DecidableEq

/-- The place of the byte `k` further on in the same memory or device. -/
def Place.next (m k : U32) : Place → Place
  | .line i o => .line i (o + k.setWidth 5)
  | .ram off => .ram ((off + k) &&& m)
  | .rom i => .rom (i + k.toNat)
  | .macio off => .macio (off + k)
  | .data lane => .data (lane + k)
  | .ap off => .ap (off + k)
  | .io off => .io (off + k)
  | .latch lane => .latch (lane + k)
  | .nothing => .nothing

namespace GossamerBus

variable {μ α : Type} (chips : Chips μ α)

/-- The place of an address, from the ROM's test on. -/
def placeBeyond (s : GossamerBus μ α) (pa : U32) : Place :=
  if kRomAlias ≤ pa then .rom (pa &&& kRomMask).toNat
  else if inMacIo pa then .macio (pa - kMacIoBase)
  else if pa &&& ~~~3#32 = kConfigData then .data (pa &&& 3#32)
  else
    match s.atiWindow pa with
    | some off => .ap off
    | none =>
      match s.atiIoWindow pa with
      | some off => .io off
      | none => if pa &&& ~~~3#32 = kConfigAddr then .latch (pa &&& 3#32) else .nothing

/-- The place of an address. -/
def place (s : GossamerBus μ α) (pa : U32) : Place :=
  if pa < kMemSpace then
    match s.ml2Lookup pa with
    | some i => .line i (lineOff pa)
    | none =>
      match s.ramClaim pa with
      | some ro => .ram ro
      | none => s.placeBeyond pa
  else s.placeBeyond pa

/-- The state an access decodes in: memory accesses refresh the decode first. -/
def enter (pa : U32) (s : GossamerBus μ α) : GossamerBus μ α :=
  if pa < kMemSpace then s.memCfgRefresh else s

/-- A byte read at a place. -/
def readPlace (p : Place) (s : GossamerBus μ α) : U8 × GossamerBus μ α :=
  match p with
  | .line i o => ((s.ml2 i).b o, s)
  | .ram off => (s.ram off, s)
  | .rom i => (s.rom i, s)
  | .macio off => chips.macRead8 off s
  | .data lane => dataRead8 lane s
  | .ap off => apRead8 chips off s
  | .io off => ioRead8 chips off s
  | .latch lane => ((s.configAddr >>> (8 * (3 - lane.toNat))).setWidth 8, s)
  | .nothing => (0xFF#8, s)

/-- A byte written at a place. -/
def writePlace (p : Place) (v : U8) (s : GossamerBus μ α) : GossamerBus μ α :=
  match p with
  | .line i o => ml2Write i o v s
  | .ram off => ramWrite off v s
  | .rom _ => s
  | .macio off => chips.macWrite8 off v s
  | .data lane => dataWrite8 lane v s
  | .ap off => apWrite8 chips off v s
  | .io off => ioWrite8 chips off v s
  | .latch lane => writeWord kConfigAddr (v.setWidth 32 <<< (8 * (3 - lane.toNat))) s
  | .nothing => s

theorem allOnes_byte (k : ℕ) (hk : k < 4) : ((0xFFFFFFFF#32 >>> (8 * (3 - k))).setWidth 8 : U8) = 0xFF#8 := by
  interval_cases k <;> rfl

theorem and_three_lt (pa : U32) : (pa &&& 3#32).toNat < 4 := by
  rw [BitVec.toNat_and]
  exact Nat.and_lt_two_pow _ (by decide : (3#32).toNat < 2 ^ 2)

theorem read8Beyond_eq (pa : U32) (s : GossamerBus μ α) :
    read8Beyond chips pa s = readPlace chips (s.placeBeyond pa) s := by
  unfold read8Beyond placeBeyond
  by_cases hrom : kRomAlias ≤ pa
  · rw [if_pos hrom, if_pos hrom]
    rfl
  rw [if_neg hrom, if_neg hrom]
  by_cases hmac : inMacIo pa
  · rw [if_pos hmac, if_pos hmac]
    rfl
  rw [if_neg hmac, if_neg hmac]
  by_cases hdata : pa &&& ~~~3#32 = kConfigData
  · rw [if_pos hdata, if_pos hdata]
    rfl
  rw [if_neg hdata, if_neg hdata]
  cases s.atiWindow pa with
  | some off => rfl
  | none =>
    cases s.atiIoWindow pa with
    | some off => rfl
    | none =>
      by_cases hlatch : pa &&& ~~~3#32 = kConfigAddr
      · simp only [readWord, if_pos hlatch]
        rfl
      · simp only [readWord, if_neg hlatch]
        rw [allOnes_byte _ (and_three_lt pa)]
        rfl

theorem write8Beyond_eq (pa : U32) (v : U8) (s : GossamerBus μ α) :
    write8Beyond chips pa v s = writePlace chips (s.placeBeyond pa) v s := by
  unfold write8Beyond placeBeyond
  by_cases hrom : kRomAlias ≤ pa
  · rw [if_pos hrom, if_pos hrom]
    rfl
  rw [if_neg hrom, if_neg hrom]
  by_cases hmac : inMacIo pa
  · rw [if_pos hmac, if_pos hmac]
    rfl
  rw [if_neg hmac, if_neg hmac]
  by_cases hdata : pa &&& ~~~3#32 = kConfigData
  · rw [if_pos hdata, if_pos hdata]
    rfl
  rw [if_neg hdata, if_neg hdata]
  cases s.atiWindow pa with
  | some off => rfl
  | none =>
    cases s.atiIoWindow pa with
    | some off => rfl
    | none =>
      by_cases hlatch : pa &&& ~~~3#32 = kConfigAddr
      · simp only [hlatch]
        rfl
      · simp only [if_neg hlatch, writeWord]
        rfl

/-- A byte read is a read at the byte's place. -/
theorem read8_eq (pa : U32) (s : GossamerBus μ α) :
    read8 chips pa s = readPlace chips ((s.enter pa).place pa) (s.enter pa) := by
  unfold read8 place enter
  by_cases hlow : pa < kMemSpace
  · simp only [if_pos hlow]
    cases s.memCfgRefresh.ml2Lookup pa with
    | some i => rfl
    | none =>
      cases s.memCfgRefresh.ramClaim pa with
      | some ro => rfl
      | none => exact read8Beyond_eq chips pa _
  · simp only [if_neg hlow]
    exact read8Beyond_eq chips pa s

/-- A byte write is a write at the byte's place. -/
theorem write8_eq (pa : U32) (v : U8) (s : GossamerBus μ α) :
    write8 chips pa v s = writePlace chips ((s.enter pa).place pa) v (s.enter pa) := by
  unfold write8 place enter
  by_cases hlow : pa < kMemSpace
  · simp only [if_pos hlow]
    cases s.memCfgRefresh.ml2Lookup pa with
    | some i => rfl
    | none =>
      cases s.memCfgRefresh.ramClaim pa with
      | some ro => rfl
      | none => exact write8Beyond_eq chips pa v _
  · simp only [if_neg hlow]
    exact write8Beyond_eq chips pa v s

/-! ## The places of the wider accesses -/

/-- The places `read16` and `write16` take when the first byte is at `p`. -/
def spread16 (m pa : U32) (p : Place) : List Place :=
  match p with
  | .line i o => [.line i o, .line i (o + 1#5)]
  | .ram ro => [.ram ro, .ram ((ro + 1#32) &&& m)]
  | .rom i => [.rom i, .rom ((pa + 1#32) &&& kRomMask).toNat]
  | .macio off => [.macio off, .macio (off + 1#32)]
  | _ =>
    if pa &&& ~~~3#32 = kConfigAddr then [.latch (pa &&& 2#32), .latch ((pa &&& 2#32) + 1#32)]
    else [.nothing, .nothing]

/-- The places `read32` and `write32` take when the first byte is at `p`. -/
def spread32 (m pa : U32) (p : Place) : List Place :=
  match p with
  | .line i o => [.line i o, .line i (o + 1#5), .line i (o + 2#5), .line i (o + 3#5)]
  | .ram ro =>
    [.ram ro, .ram ((ro + 1#32) &&& m), .ram ((ro + 2#32) &&& m), .ram ((ro + 3#32) &&& m)]
  | .rom i => [.rom i, .rom (i + 1), .rom (i + 2), .rom (i + 3)]
  | .macio off => [.macio off, .macio (off + 1#32), .macio (off + 2#32), .macio (off + 3#32)]
  | .data _ => [.data 0#32, .data 1#32, .data 2#32, .data 3#32]
  | .ap off => [.ap off, .ap (off + 1#32), .ap (off + 2#32), .ap (off + 3#32)]
  | .io off => [.io off, .io (off + 1#32), .io (off + 2#32), .io (off + 3#32)]
  | _ =>
    if pa = kConfigAddr then [.latch 0#32, .latch 1#32, .latch 2#32, .latch 3#32]
    else [.nothing, .nothing, .nothing, .nothing]

theorem and_two_eq (pa : U32) : pa &&& 2#32 = 0#32 ∨ pa &&& 2#32 = 2#32 := by
  have h : (pa &&& 2#32).toNat = 0 ∨ (pa &&& 2#32).toNat = 2 := by
    rw [BitVec.toNat_and, show (2#32).toNat = 2 ^ 1 from rfl, Nat.and_two_pow]
    cases pa.toNat.testBit 1 <;> simp
  rcases h with h | h
  · exact Or.inl (BitVec.eq_of_toNat_eq h)
  · exact Or.inr (BitVec.eq_of_toNat_eq h)

/-- The halfword of a word that an access to it in one piece asks for. -/
theorem bytes16_half (w pa : U32) :
    bytes16 ((w >>> (if pa &&& 2#32 ≠ 0#32 then 0 else 16)).setWidth 16) =
      [(w >>> (8 * (3 - (pa &&& 2#32).toNat))).setWidth 8,
        (w >>> (8 * (3 - ((pa &&& 2#32) + 1#32).toNat))).setWidth 8] := by
  rcases and_two_eq pa with h | h
  · rw [h]
    simp only [bytes16, ne_eq, not_true_eq_false, if_false]
    congr 1
    · ext i hi
      have hi16 : 8 + i < 16 := by omega
      simp [hi16, ← Nat.add_assoc]
    · congr 1
      ext i hi
      simp
  · rw [h]
    simp only [bytes16]
    congr 1
    · ext i hi
      have hi16 : 8 + i < 16 := by omega
      simp [hi16]
    · congr 1
      ext i hi
      simp

theorem read16Beyond_eq (pa : U32) (s : GossamerBus μ α) (m : U32) :
    read16Beyond chips pa s = readEach (readPlace chips) (spread16 m pa (s.placeBeyond pa)) s := by
  unfold read16Beyond placeBeyond
  by_cases hrom : kRomAlias ≤ pa
  · rw [if_pos hrom, if_pos hrom]
    rfl
  rw [if_neg hrom, if_neg hrom]
  by_cases hmac : inMacIo pa
  · rw [if_pos hmac, if_pos hmac]
    rfl
  rw [if_neg hmac, if_neg hmac]
  -- every window that is left is taken for the word backend
  have hword : (bytes16 ((s.readWord (pa &&& ~~~3#32) >>>
        (if pa &&& 2#32 ≠ 0#32 then 0 else 16)).setWidth 16), s) =
      readEach (readPlace chips)
        (if pa &&& ~~~3#32 = kConfigAddr then [.latch (pa &&& 2#32), .latch ((pa &&& 2#32) + 1#32)]
          else [.nothing, .nothing]) s := by
    rw [bytes16_half]
    by_cases hlatch : pa &&& ~~~3#32 = kConfigAddr
    · simp only [readWord, if_pos hlatch]
      rfl
    · simp only [readWord, if_neg hlatch]
      rcases and_two_eq pa with h | h <;> rw [h] <;> rfl
  rw [hword]
  by_cases hdata : pa &&& ~~~3#32 = kConfigData
  · rw [if_pos hdata]
    rfl
  rw [if_neg hdata]
  cases s.atiWindow pa with
  | some off => rfl
  | none =>
    cases s.atiIoWindow pa with
    | some off => rfl
    | none =>
      by_cases hlatch : pa &&& ~~~3#32 = kConfigAddr
      · simp only [if_pos hlatch, spread16]
      · simp only [if_neg hlatch, spread16]

theorem read32Beyond_eq (pa : U32) (s : GossamerBus μ α) (m : U32) :
    read32Beyond chips pa s = readEach (readPlace chips) (spread32 m pa (s.placeBeyond pa)) s := by
  unfold read32Beyond placeBeyond
  by_cases hrom : kRomAlias ≤ pa
  · rw [if_pos hrom, if_pos hrom]
    rfl
  rw [if_neg hrom, if_neg hrom]
  by_cases hmac : inMacIo pa
  · rw [if_pos hmac, if_pos hmac]
    rfl
  rw [if_neg hmac, if_neg hmac]
  by_cases hdata : pa &&& ~~~3#32 = kConfigData
  · rw [if_pos hdata, if_pos hdata]
    rfl
  rw [if_neg hdata, if_neg hdata]
  cases s.atiWindow pa with
  | some off => rfl
  | none =>
    cases s.atiIoWindow pa with
    | some off => rfl
    | none =>
      have hspread : ∀ p, p = .nothing ∨ (∃ lane, p = .latch lane) →
          spread32 m pa p = if pa = kConfigAddr then [.latch 0#32, .latch 1#32, .latch 2#32, .latch 3#32]
            else [.nothing, .nothing, .nothing, .nothing] := by
        rintro p (rfl | ⟨lane, rfl⟩) <;> rfl
      rw [hspread]
      · by_cases hlatch : pa = kConfigAddr
        · simp only [readWord, if_pos hlatch]
          rfl
        · simp only [readWord, if_neg hlatch]
          rfl
      · by_cases hlatch : pa &&& ~~~3#32 = kConfigAddr
        · exact Or.inr ⟨_, if_pos hlatch⟩
        · exact Or.inl (if_neg hlatch)

/-- An access that stays inside its line, or lies above the memory space. -/
def Unsplit16 (pa : U32) : Prop := pa < kMemSpace → pa &&& 31#32 ≤ 30#32
def Unsplit32 (pa : U32) : Prop := pa < kMemSpace → pa &&& 31#32 ≤ 28#32

theorem read16Bytes_eq {pa : U32} (h : Unsplit16 pa) (s : GossamerBus μ α) :
    read16Bytes chips pa s =
      readEach (readPlace chips)
        (spread16 (s.enter pa).ramMask pa ((s.enter pa).place pa)) (s.enter pa) := by
  unfold read16Bytes place enter
  by_cases hlow : pa < kMemSpace
  · simp only [if_pos hlow, if_neg (BitVec.not_lt.mpr (h hlow))]
    cases s.memCfgRefresh.ml2Lookup pa with
    | some i => rfl
    | none =>
      cases s.memCfgRefresh.ramClaim pa with
      | some ro => rfl
      | none => exact read16Beyond_eq chips pa _ _
  · simp only [if_neg hlow]
    exact read16Beyond_eq chips pa s _

theorem read32Bytes_eq {pa : U32} (h : Unsplit32 pa) (s : GossamerBus μ α) :
    read32Bytes chips pa s =
      readEach (readPlace chips)
        (spread32 (s.enter pa).ramMask pa ((s.enter pa).place pa)) (s.enter pa) := by
  unfold read32Bytes place enter
  by_cases hlow : pa < kMemSpace
  · simp only [if_pos hlow, if_neg (BitVec.not_lt.mpr (h hlow))]
    cases s.memCfgRefresh.ml2Lookup pa with
    | some i => rfl
    | none =>
      cases s.memCfgRefresh.ramClaim pa with
      | some ro => rfl
      | none => exact read32Beyond_eq chips pa _ _
  · simp only [if_neg hlow]
    exact read32Beyond_eq chips pa s _

/-! ## What keeps the routing -/

/-- `s'` sends every byte where `s` does, and its decode is as fresh. -/
structure SameMap (s s' : GossamerBus μ α) : Prop where
  place : s'.place = s.place
  mask : s'.ramMask = s.ramMask
  fresh : s.bankGen = s.pci.memGen → s'.bankGen = s'.pci.memGen

theorem SameMap.refl (s : GossamerBus μ α) : SameMap s s := ⟨rfl, rfl, id⟩

theorem SameMap.trans {s₁ s₂ s₃ : GossamerBus μ α} (h : SameMap s₁ s₂) (h' : SameMap s₂ s₃) :
    SameMap s₁ s₃ :=
  ⟨h'.place.trans h.place, h'.mask.trans h.mask, fun hf => h'.fresh (h.fresh hf)⟩

theorem memCfgRefresh_of_fresh {s : GossamerBus μ α} (h : s.bankGen = s.pci.memGen) :
    s.memCfgRefresh = s := if_pos h

theorem memCfgRefresh_fresh (s : GossamerBus μ α) :
    s.memCfgRefresh.bankGen = s.memCfgRefresh.pci.memGen := by
  unfold memCfgRefresh
  split_ifs with h
  · exact h
  · cases s.pci.devs 0#32 with
    | none => rfl
    | some d =>
      dsimp only
      split_ifs <;> rfl

theorem low_of_le {pa a : U32} (h : pa ≤ a) (ha : a < kMemSpace) : pa < kMemSpace := by
  rw [BitVec.lt_def] at ha ⊢
  exact lt_of_le_of_lt h ha

/-- Once a byte has been decoded, a byte after it finds the decode fresh. -/
theorem enter_enter {pa a : U32} (h : pa ≤ a) (s : GossamerBus μ α) :
    enter a (enter pa s) = enter pa s := by
  unfold enter
  by_cases ha : a < kMemSpace
  · rw [if_pos ha, if_pos (low_of_le h ha)]
    exact memCfgRefresh_of_fresh (memCfgRefresh_fresh s)
  · rw [if_neg ha]

/-- A state in which the address needs no refresh. -/
def Settled (a : U32) (s : GossamerBus μ α) : Prop := a < kMemSpace → s.bankGen = s.pci.memGen

theorem Settled.enter {a : U32} {s : GossamerBus μ α} (h : s.Settled a) : s.enter a = s := by
  unfold GossamerBus.enter
  by_cases ha : a < kMemSpace
  · rw [if_pos ha, memCfgRefresh_of_fresh (h ha)]
  · rw [if_neg ha]

theorem settled_enter {pa a : U32} (h : pa ≤ a) (s : GossamerBus μ α) : (s.enter pa).Settled a := by
  intro ha
  rw [GossamerBus.enter, if_pos (low_of_le h ha)]
  exact memCfgRefresh_fresh s

theorem SameMap.settled {s s' : GossamerBus μ α} (h : SameMap s s') {a : U32} (hs : s.Settled a) :
    s'.Settled a := fun ha => h.fresh (hs ha)

theorem sameMap_ati (s : GossamerBus μ α) (x : AtiRage α) : SameMap s { s with ati := x } :=
  ⟨rfl, rfl, id⟩

theorem sameMap_ramWrite (off : U32) (v : U8) (s : GossamerBus μ α) : SameMap s (ramWrite off v s) :=
  ⟨rfl, rfl, id⟩

theorem sameMap_ml2Write (i : U32) (o : BitVec 5) (v : U8) (s : GossamerBus μ α) :
    SameMap s (ml2Write i o v s) := by
  refine ⟨?_, rfl, id⟩
  have hl : (ml2Write i o v s).ml2Lookup = s.ml2Lookup := by
    funext a
    have he : ∀ j, ((ml2Write i o v s).ml2 j).v = (s.ml2 j).v ∧
        ((ml2Write i o v s).ml2 j).tag = (s.ml2 j).tag := by
      intro j
      by_cases hj : j = i
      · simp [ml2Write, hj]
      · simp [ml2Write, hj]
    have hi : (ml2Write i o v s).ml2Index a = s.ml2Index a := rfl
    simp only [ml2Lookup, hi, (he _).1, (he _).2]
    rfl
  funext a
  simp only [place, hl]
  rfl

theorem sameMap_writeWord (pa v : U32) (s : GossamerBus μ α) : SameMap s (writeWord pa v s) := by
  unfold writeWord
  split_ifs
  · exact ⟨rfl, rfl, id⟩
  · exact SameMap.refl s

end GossamerBus

/-- An access to the place leaves the windows where they are. A mac-io register may start
a transfer, and a configuration write may move a window. -/
def Place.Mild : Place → Prop
  | .macio _ => False
  | .data _ => False
  | _ => True

/-- The place is the same in every state. -/
def Place.Fixed : Place → Prop
  | .macio _ => True
  | .data _ => True
  | .rom _ => True
  | _ => False

namespace GossamerBus

variable {μ α : Type} (chips : Chips μ α)

theorem SameMap.readPlace {p : Place} (hp : p.Mild) (s : GossamerBus μ α) :
    SameMap s (readPlace chips p s).2 := by
  cases p with
  | macio off => exact hp.elim
  | ap off =>
    simp only [GossamerBus.readPlace, apRead8]
    split_ifs
    · exact sameMap_ati s _
    · exact SameMap.refl s
  | io off => exact sameMap_ati s _
  | _ => exact SameMap.refl s

theorem SameMap.writePlace {p : Place} (hp : p.Mild) (v : U8) (s : GossamerBus μ α) :
    SameMap s (writePlace chips p v s) := by
  cases p with
  | macio off => exact hp.elim
  | data lane => exact hp.elim
  | line i o => exact sameMap_ml2Write i o v s
  | ram off => exact sameMap_ramWrite off v s
  | rom i => exact SameMap.refl s
  | nothing => exact SameMap.refl s
  | latch lane => exact sameMap_writeWord _ _ s
  | ap off =>
    simp only [GossamerBus.writePlace, apWrite8]
    split_ifs <;> exact sameMap_ati s _
  | io off => exact sameMap_ati s _

theorem inMacIo_high {pa : U32} (h : inMacIo pa = true) : ¬ pa < kMemSpace := by
  simp only [inMacIo, Bool.and_eq_true, decide_eq_true_eq] at h
  have h1 := h.1
  simp only [BitVec.le_def, BitVec.lt_def, kMacIoBase, kMemSpace] at h1 ⊢
  change 0xF3000000 ≤ pa.toNat at h1
  change ¬ pa.toNat < 0x40000000
  omega

theorem rom_high {pa : U32} (h : kRomAlias ≤ pa) : ¬ pa < kMemSpace := by
  simp only [BitVec.le_def, BitVec.lt_def, kRomAlias, kMemSpace] at h ⊢
  change 0xFF800000 ≤ pa.toNat at h
  change ¬ pa.toNat < 0x40000000
  omega

theorem and_not_three_toNat (pa : U32) : (pa &&& ~~~3#32).toNat = pa.toNat / 4 * 4 := by
  have h := pa.isLt
  have hshift : pa &&& ~~~3#32 = pa >>> 2 <<< 2 := by
    rw [BitVec.shiftLeft_ushiftRight, show BitVec.allOnes 32 <<< 2 = ~~~3#32 by decide]
  rw [hshift, BitVec.toNat_shiftLeft, BitVec.toNat_ushiftRight, Nat.shiftLeft_eq,
    Nat.shiftRight_eq_div_pow]
  omega

theorem and_line_toNat (pa : U32) : (pa &&& 31#32).toNat = pa.toNat % 32 := by
  rw [BitVec.toNat_and]
  exact Nat.and_two_pow_sub_one_eq_mod pa.toNat 5

theorem and_rom_toNat (pa : U32) : (pa &&& kRomMask).toNat = pa.toNat % 2 ^ 22 := by
  rw [BitVec.toNat_and]
  exact Nat.and_two_pow_sub_one_eq_mod pa.toNat 22

/-! ## What a place says about its address -/

/-- The test an address has passed to get its place. -/
def PlaceAt (s : GossamerBus μ α) (a : U32) : Place → Prop
  | .line i o => a < kMemSpace ∧ s.ml2Lookup a = some i ∧ o = lineOff a
  | .ram ro => a < kMemSpace ∧ s.ml2Lookup a = none ∧ s.ramClaim a = some ro
  | .rom i => kRomAlias ≤ a ∧ i = (a &&& kRomMask).toNat
  | .macio off => inMacIo a = true ∧ off = a - kMacIoBase
  | .data lane => a &&& ~~~3#32 = kConfigData ∧ lane = a &&& 3#32
  | .ap off => s.atiWindow a = some off
  | .io off => s.atiIoWindow a = some off
  | .latch lane => a &&& ~~~3#32 = kConfigAddr ∧ lane = a &&& 3#32
  | .nothing => a &&& ~~~3#32 ≠ kConfigAddr

theorem placeBeyond_at (s : GossamerBus μ α) (a : U32) : s.PlaceAt a (s.placeBeyond a) := by
  unfold placeBeyond
  by_cases hrom : kRomAlias ≤ a
  · rw [if_pos hrom]
    exact ⟨hrom, rfl⟩
  rw [if_neg hrom]
  by_cases hmac : inMacIo a = true
  · rw [if_pos hmac]
    exact ⟨hmac, rfl⟩
  rw [if_neg hmac]
  by_cases hdata : a &&& ~~~3#32 = kConfigData
  · rw [if_pos hdata]
    exact ⟨hdata, rfl⟩
  rw [if_neg hdata]
  cases hw : s.atiWindow a with
  | some off => exact hw
  | none =>
    cases hi : s.atiIoWindow a with
    | some off => exact hi
    | none =>
      by_cases hlatch : a &&& ~~~3#32 = kConfigAddr
      · simp only [if_pos hlatch]
        exact ⟨hlatch, rfl⟩
      · simp only [if_neg hlatch]
        exact hlatch

theorem place_at (s : GossamerBus μ α) (a : U32) : s.PlaceAt a (s.place a) := by
  unfold place
  by_cases hlow : a < kMemSpace
  · rw [if_pos hlow]
    cases hl : s.ml2Lookup a with
    | some i => exact ⟨hlow, hl, rfl⟩
    | none =>
      cases hr : s.ramClaim a with
      | some ro => exact ⟨hlow, hl, hr⟩
      | none => exact placeBeyond_at s a
  · rw [if_neg hlow]
    exact placeBeyond_at s a

theorem PlaceAt.of_eq {s : GossamerBus μ α} {a : U32} {p : Place} (h : s.place a = p) :
    s.PlaceAt a p := h ▸ place_at s a

theorem place_rom (s : GossamerBus μ α) {a : U32} (h : kRomAlias ≤ a) :
    s.place a = .rom (a &&& kRomMask).toNat := by
  rw [place, if_neg (rom_high h), placeBeyond, if_pos h]

theorem place_macio (s : GossamerBus μ α) {a : U32} (h : inMacIo a = true) :
    s.place a = .macio (a - kMacIoBase) := by
  have hrom : ¬ kRomAlias ≤ a := by
    simp only [inMacIo, Bool.and_eq_true, decide_eq_true_eq, BitVec.lt_def] at h
    have h2 : a.toNat < 0xF3100000 := h.2
    rw [BitVec.le_def]
    change ¬ 0xFF800000 ≤ a.toNat
    omega
  rw [place, if_neg (inMacIo_high h), placeBeyond, if_neg hrom, if_pos h]

theorem data_toNat {a : U32} (h : a &&& ~~~3#32 = kConfigData) : a.toNat / 4 * 4 = 0xFEE00000 := by
  rw [← and_not_three_toNat, h]
  rfl

theorem place_data (s : GossamerBus μ α) {a : U32} (h : a &&& ~~~3#32 = kConfigData) :
    s.place a = .data (a &&& 3#32) := by
  have ha := data_toNat h
  have hlow : ¬ a < kMemSpace := by
    rw [BitVec.lt_def]
    change ¬ a.toNat < 0x40000000
    omega
  have hrom : ¬ kRomAlias ≤ a := by
    rw [BitVec.le_def]
    change ¬ 0xFF800000 ≤ a.toNat
    omega
  have hmac : ¬ inMacIo a = true := by
    simp only [inMacIo, Bool.and_eq_true, decide_eq_true_eq, BitVec.lt_def, not_and]
    intro _
    change ¬ a.toNat < 0xF3100000
    omega
  rw [place, if_neg hlow, placeBeyond, if_neg hrom, if_neg hmac, if_pos h]

/-- A fixed place is the address's place in every state, and needs no refresh. -/
theorem place_fixed {s : GossamerBus μ α} {a : U32} (h : (s.place a).Fixed)
    (s' : GossamerBus μ α) : s'.place a = s.place a ∧ s'.enter a = s' := by
  have hat := place_at s a
  cases hp : s.place a with
  | rom i =>
    rw [hp] at hat
    exact ⟨by rw [place_rom s' hat.1, hat.2], if_neg (rom_high hat.1)⟩
  | macio off =>
    rw [hp] at hat
    exact ⟨by rw [place_macio s' hat.1, hat.2], if_neg (inMacIo_high hat.1)⟩
  | data lane =>
    rw [hp] at hat
    refine ⟨by rw [place_data s' hat.1, hat.2], if_neg ?_⟩
    have ha := data_toNat hat.1
    rw [BitVec.lt_def]
    change ¬ a.toNat < 0x40000000
    omega
  | _ =>
    rw [hp] at h
    exact h.elim

/-! ## Byte accesses, one after the other -/

/-- The bytes of an access. -/
def addrs (pa : U32) (n : ℕ) : List U32 := (List.range n).map fun k => pa + BitVec.ofNat 32 k

/-- Either no access to the bytes moves a window, or no window that moves is among them. -/
def Steady (s : GossamerBus μ α) (l : List U32) : Prop :=
  (∀ a ∈ l, s.Settled a ∧ (s.place a).Mild) ∨ ∀ a ∈ l, (s.place a).Fixed

theorem readEach_read8 {s : GossamerBus μ α} {l : List U32} (h : s.Steady l) :
    readEach (read8 chips) l s = readEach (readPlace chips) (l.map s.place) s := by
  rcases h with h | h
  · refine readEach_congr (I := SameMap s) _ ?_ (SameMap.refl s)
    intro a ha t ht
    have hent := (ht.settled (h a ha).1).enter
    rw [read8_eq, hent, ht.place]
    exact ⟨rfl, ht.trans (SameMap.readPlace chips (h a ha).2 t)⟩
  · refine readEach_congr (I := fun _ => True) _ ?_ trivial
    intro a ha t _
    obtain ⟨hpl, hent⟩ := place_fixed (h a ha) t
    rw [read8_eq, hent, hpl]
    exact ⟨rfl, trivial⟩

theorem writeEach_write8 {s : GossamerBus μ α} {l : List U32} (h : s.Steady l) (vs : List U8) :
    writeEach (write8 chips) (l.zip vs) s = writeEach (writePlace chips) ((l.map s.place).zip vs) s := by
  rcases h with h | h
  · refine writeEach_congr (I := SameMap s) _ ?_ (SameMap.refl s) vs
    intro a ha v t ht
    have hent := (ht.settled (h a ha).1).enter
    rw [write8_eq, hent, ht.place]
    exact ⟨rfl, ht.trans (SameMap.writePlace chips (h a ha).2 v t)⟩
  · refine writeEach_congr (I := fun _ => True) _ ?_ trivial vs
    intro a ha v t _
    obtain ⟨hpl, hent⟩ := place_fixed (h a ha) t
    rw [write8_eq, hent, hpl]
    exact ⟨rfl, trivial⟩

end GossamerBus

end Gossamer

end OpenPowerMac
