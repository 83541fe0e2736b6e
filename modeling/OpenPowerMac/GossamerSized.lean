/-
When a sized access of the Gossamer's bus is the byte accesses it stands for.

The wider accessors decode the first byte and take the rest to lie beside it. That is
right for an access that lies in one piece (`Run`) in a window the accessor knows
(`Place.Half`, `Place.Whole`). The halfword accessors know neither `CONFIG_DATA` nor the
two windows of the ATI, the word accessors do not mask the index of a ROM image they run
over the end of, and a write to a part of `CONFIG_ADDR` clears the other parts.
-/
import OpenPowerMac.GossamerRoute
import Mathlib.Tactic.SplitIfs

set_option autoImplicit false

namespace OpenPowerMac

namespace Gossamer

/-- The widths above a byte. -/
inductive Sized where
  | half | word | dword
  deriving DecidableEq

namespace Sized

def bytes : Sized → ℕ
  | half => 2
  | word => 4
  | dword => 8

def bits : Sized → ℕ
  | half => 16
  | word => 32
  | dword => 64

/-- The bytes of a value, most significant first. -/
def bytesOf : (w : Sized) → BitVec w.bits → List U8
  | half, v => bytes16 v
  | word, v => bytes32 v
  | dword, v => bytes32 (BitVec.setWidth 32 (v >>> 32)) ++ bytes32 (BitVec.setWidth 32 v)

end Sized

/-- A place `read16` and `write16` know. -/
def Place.Half : Place → Prop
  | .data _ => False
  | .ap _ => False
  | .io _ => False
  | .latch _ => False
  | _ => True

/-- A place `write32` handles as `write8` does. -/
def Place.Whole : Place → Prop
  | .latch _ => False
  | _ => True

namespace GossamerBus

variable {μ α : Type} (chips : Chips μ α)

/-- A read of a width. -/
def readSized : (w : Sized) → U32 → GossamerBus μ α → BitVec w.bits × GossamerBus μ α
  | .half => read16 chips
  | .word => read32 chips
  | .dword => read64 chips

/-- A write of a width. -/
def writeSized : (w : Sized) → U32 → BitVec w.bits → GossamerBus μ α → GossamerBus μ α
  | .half => write16 chips
  | .word => write32 chips
  | .dword => write64 chips

/-- The indices at which `read32` reads the image of the ROM. -/
def romIndices32 (pa : U32) : List ℕ :=
  if kRomAlias ≤ pa then
    let off := (pa &&& kRomMask).toNat
    [off, off + 1, off + 2, off + 3]
  else []

/-- The indices at which a sized read reads the image of the ROM. -/
def romIndices : Sized → U32 → List ℕ
  | .half, pa =>
    if kRomAlias ≤ pa then [(pa &&& kRomMask).toNat, ((pa + 1#32) &&& kRomMask).toNat] else []
  | .word, pa => romIndices32 pa
  | .dword, pa => romIndices32 pa ++ romIndices32 (pa + 4#32)

/-- The sized accesses at an address agree with the byte accesses, taken in increasing
order of address, and keep inside the image of the ROM. -/
structure Agrees (w : Sized) (pa : U32) (s : GossamerBus μ α) : Prop where
  read : readSized chips w pa s =
    (ofBytes w.bits (readEach (read8 chips) (addrs pa w.bytes) s).1,
      (readEach (read8 chips) (addrs pa w.bytes) s).2)
  write : ∀ v, writeSized chips w pa v s =
    writeEach (write8 chips) ((addrs pa w.bytes).zip (w.bytesOf v)) s
  rom : ∀ i ∈ romIndices w pa, i < kRomSize

/-- The bytes after the first are beside it, in the same memory or device. -/
def Run (s : GossamerBus μ α) (pa : U32) (n : ℕ) : Prop :=
  ∀ k, 0 < k → k < n →
    s.place (pa + BitVec.ofNat 32 k) = (s.place pa).next s.ramMask (BitVec.ofNat 32 k)

/-- What a word access needs: one that leaves its line goes byte by byte anyway. -/
def Straight32 (s : GossamerBus μ α) (pa : U32) : Prop :=
  ¬ Unsplit32 pa ∨ ((s.place pa).Whole ∧ s.Run pa 4)

/-- What an access needs, in the state it decodes in. A halfword of the ROM is masked byte
by byte. -/
def Straight (s : GossamerBus μ α) : Sized → U32 → Prop
  | .half, pa => ¬ Unsplit16 pa ∨ kRomAlias ≤ pa ∨ ((s.place pa).Half ∧ s.Run pa 2)
  | .word, pa => s.Straight32 pa
  | .dword, pa => s.Straight32 pa ∧ s.Straight32 (pa + 4#32)

/-! ## The places of an access in one piece -/

theorem addrs_two (pa : U32) : addrs pa 2 = [pa, pa + 1#32] := by
  simp [addrs, List.range_succ]

theorem addrs_four (pa : U32) : addrs pa 4 = [pa, pa + 1#32, pa + 2#32, pa + 3#32] := by
  simp [addrs, List.range_succ]

theorem addrs_eight (pa : U32) : addrs pa 8 = addrs pa 4 ++ addrs (pa + 4#32) 4 := by
  simp [addrs, List.range_succ, BitVec.add_assoc]

theorem Run.two {s : GossamerBus μ α} {pa : U32} (h : s.Run pa 2) :
    s.place (pa + 1#32) = (s.place pa).next s.ramMask 1#32 := h 1 (by decide) (by decide)

theorem Run.four {s : GossamerBus μ α} {pa : U32} (h : s.Run pa 4) :
    s.place (pa + 1#32) = (s.place pa).next s.ramMask 1#32 ∧
      s.place (pa + 2#32) = (s.place pa).next s.ramMask 2#32 ∧
      s.place (pa + 3#32) = (s.place pa).next s.ramMask 3#32 :=
  ⟨h 1 (by decide) (by decide), h 2 (by decide) (by decide), h 3 (by decide) (by decide)⟩

theorem word_ne_addr {pa : U32} (h : pa &&& ~~~3#32 ≠ kConfigAddr) : pa ≠ kConfigAddr := by
  rintro rfl
  exact h (by decide)

/-- In one piece, the places `read16` takes are the places of the bytes. -/
theorem spread16_eq {s : GossamerBus μ α} {pa : U32} (hp : (s.place pa).Half) (hrom : ¬ kRomAlias ≤ pa)
    (hrun : s.Run pa 2) :
    spread16 s.ramMask pa (s.place pa) = (addrs pa 2).map s.place := by
  have hat := place_at s pa
  rw [addrs_two, List.map_cons, List.map_cons, List.map_nil, hrun.two]
  cases hpl : s.place pa with
  | rom i =>
    rw [hpl] at hat
    exact absurd hat.1 hrom
  | nothing =>
    rw [hpl] at hat
    exact if_neg hat
  | data lane => exact (hpl ▸ hp : (Place.data lane).Half).elim
  | ap off => exact (hpl ▸ hp : (Place.ap off).Half).elim
  | io off => exact (hpl ▸ hp : (Place.io off).Half).elim
  | latch lane => exact (hpl ▸ hp : (Place.latch lane).Half).elim
  | _ => rfl

/-- In one piece, the places `read32` takes are the places of the bytes. -/
theorem spread32_eq {s : GossamerBus μ α} {pa : U32} (hp : (s.place pa).Whole) (hrun : s.Run pa 4) :
    spread32 s.ramMask pa (s.place pa) = (addrs pa 4).map s.place := by
  have hat := place_at s pa
  obtain ⟨h1, h2, h3⟩ := hrun.four
  have hat3 := place_at s (pa + 3#32)
  rw [addrs_four]
  simp only [List.map_cons, List.map_nil, h1, h2, h3]
  rw [h3] at hat3
  cases hpl : s.place pa with
  | nothing =>
    rw [hpl] at hat
    exact if_neg (word_ne_addr hat)
  | latch lane => exact (hpl ▸ hp : (Place.latch lane).Whole).elim
  | data lane =>
    -- the last lane is below four, so the first is zero
    rw [hpl] at hat hat3
    have hlane : lane.toNat < 4 := by
      rw [hat.2]
      exact and_three_lt pa
    have hlast : (lane + 3#32).toNat < 4 := by
      rw [hat3.2]
      exact and_three_lt _
    have hzero : lane = 0#32 := by
      apply BitVec.eq_of_toNat_eq
      rw [BitVec.toNat_add] at hlast
      change (lane.toNat + 3) % 2 ^ 32 < 4 at hlast
      change lane.toNat = 0
      omega
    rw [hzero]
    rfl
  | _ => rfl

/-! ## Sized writes as writes at places -/

/-- `write16` writes at the places `read16` reads, where it knows the window. -/
theorem write16Beyond_eq {pa : U32} {s : GossamerBus μ α} (hp : (s.placeBeyond pa).Half) (v : U16)
    (m : U32) :
    write16Beyond chips pa v s =
      writeEach (writePlace chips) ((spread16 m pa (s.placeBeyond pa)).zip (bytes16 v)) s := by
  unfold write16Beyond placeBeyond at *
  by_cases hrom : kRomAlias ≤ pa
  · rw [if_pos hrom, if_pos hrom]
    rfl
  rw [if_neg hrom] at hp ⊢
  rw [if_neg hrom]
  by_cases hmac : inMacIo pa
  · rw [if_pos hmac, if_pos hmac]
    rfl
  rw [if_neg hmac] at hp ⊢
  rw [if_neg hmac]
  by_cases hdata : pa &&& ~~~3#32 = kConfigData
  · rw [if_pos hdata] at hp
    exact hp.elim
  rw [if_neg hdata] at hp ⊢
  cases hw : s.atiWindow pa with
  | some off =>
    rw [hw] at hp
    exact hp.elim
  | none =>
    cases hi : s.atiIoWindow pa with
    | some off =>
      rw [hw, hi] at hp
      exact hp.elim
    | none =>
      by_cases hlatch : pa &&& ~~~3#32 = kConfigAddr
      · simp only [hw, hi, if_pos hlatch] at hp
        exact hp.elim
      · simp only [if_neg hlatch, spread16, writeWord]
        rfl

theorem write16_eq {pa : U32} (h : Unsplit16 pa) {s : GossamerBus μ α}
    (hp : ((s.enter pa).place pa).Half) (v : U16) :
    write16 chips pa v s =
      writeEach (writePlace chips)
        ((spread16 (s.enter pa).ramMask pa ((s.enter pa).place pa)).zip (bytes16 v)) (s.enter pa) := by
  unfold write16 place enter at *
  by_cases hlow : pa < kMemSpace
  · simp only [if_pos hlow, if_neg (BitVec.not_lt.mpr (h hlow))] at hp ⊢
    cases hl : s.memCfgRefresh.ml2Lookup pa with
    | some i => rfl
    | none =>
      cases hr : s.memCfgRefresh.ramClaim pa with
      | some ro => rfl
      | none =>
        simp only [hl, hr] at hp
        exact write16Beyond_eq chips hp v _
  · simp only [if_neg hlow] at hp ⊢
    exact write16Beyond_eq chips hp v _

/-- `write32` writes at the places `read32` reads, the address latch apart. -/
theorem write32Beyond_eq {pa : U32} {s : GossamerBus μ α} (hp : (s.placeBeyond pa).Whole) (v m : U32) :
    write32Beyond chips pa v s =
      writeEach (writePlace chips) ((spread32 m pa (s.placeBeyond pa)).zip (bytes32 v)) s := by
  unfold write32Beyond placeBeyond at *
  by_cases hrom : kRomAlias ≤ pa
  · rw [if_pos hrom, if_pos hrom]
    rfl
  rw [if_neg hrom] at hp ⊢
  rw [if_neg hrom]
  by_cases hmac : inMacIo pa
  · rw [if_pos hmac, if_pos hmac]
    rfl
  rw [if_neg hmac] at hp ⊢
  rw [if_neg hmac]
  by_cases hdata : pa &&& ~~~3#32 = kConfigData
  · rw [if_pos hdata, if_pos hdata]
    rfl
  rw [if_neg hdata] at hp ⊢
  rw [if_neg hdata]
  cases hw : s.atiWindow pa with
  | some off => rfl
  | none =>
    cases hi : s.atiIoWindow pa with
    | some off => rfl
    | none =>
      by_cases hlatch : pa &&& ~~~3#32 = kConfigAddr
      · simp only [hw, hi, if_pos hlatch] at hp
        exact hp.elim
      · simp only [if_neg hlatch, spread32, writeWord, if_neg (word_ne_addr hlatch)]
        rfl

theorem write32_eq {pa : U32} (h : Unsplit32 pa) {s : GossamerBus μ α}
    (hp : ((s.enter pa).place pa).Whole) (v : U32) :
    write32 chips pa v s =
      writeEach (writePlace chips)
        ((spread32 (s.enter pa).ramMask pa ((s.enter pa).place pa)).zip (bytes32 v)) (s.enter pa) := by
  unfold write32 place enter at *
  by_cases hlow : pa < kMemSpace
  · simp only [if_pos hlow, if_neg (BitVec.not_lt.mpr (h hlow))] at hp ⊢
    cases hl : s.memCfgRefresh.ml2Lookup pa with
    | some i => rfl
    | none =>
      cases hr : s.memCfgRefresh.ramClaim pa with
      | some ro => rfl
      | none =>
        simp only [hl, hr] at hp
        exact write32Beyond_eq chips hp v _
  · simp only [if_neg hlow] at hp ⊢
    exact write32Beyond_eq chips hp v _

/-! ## An access in one piece is its byte accesses -/

theorem Place.next_mild {p : Place} (h : p.Mild) (m k : U32) : (p.next m k).Mild := by
  cases p <;> first | exact trivial | exact h.elim

theorem Place.next_fixed {p : Place} (h : p.Fixed) (m k : U32) : (p.next m k).Fixed := by
  cases p <;> first | exact trivial | exact h.elim

theorem Place.mild_or_fixed (p : Place) : p.Mild ∨ p.Fixed := by
  cases p <;> first | exact Or.inl trivial | exact Or.inr trivial

theorem mem_addrs {pa a : U32} {n : ℕ} : a ∈ addrs pa n ↔ ∃ k, k < n ∧ a = pa + BitVec.ofNat 32 k := by
  simp only [addrs, List.mem_map, List.mem_range]
  constructor
  · rintro ⟨k, hk, rfl⟩
    exact ⟨k, hk, rfl⟩
  · rintro ⟨k, hk, rfl⟩
    exact ⟨k, hk, rfl⟩

/-- No byte of an access that does not wrap comes before its first. -/
theorem le_of_mem_addrs {pa a : U32} {n : ℕ} (hfit : pa.toNat + n ≤ 2 ^ 32) (h : a ∈ addrs pa n) :
    pa ≤ a := by
  obtain ⟨k, hk, rfl⟩ := mem_addrs.mp h
  rw [BitVec.le_def, BitVec.toNat_add, BitVec.toNat_ofNat]
  omega

theorem toNat_of_mem_addrs {pa a : U32} {n : ℕ} (hfit : pa.toNat + n ≤ 2 ^ 32) (h : a ∈ addrs pa n) :
    pa.toNat ≤ a.toNat ∧ a.toNat < pa.toNat + n := by
  obtain ⟨k, hk, rfl⟩ := mem_addrs.mp h
  rw [BitVec.toNat_add, BitVec.toNat_ofNat]
  omega

/-- A run has the place of its first byte moved on. -/
theorem Run.place {s : GossamerBus μ α} {pa a : U32} {n : ℕ} (h : s.Run pa n) (ha : a ∈ addrs pa n) :
    s.place a = s.place pa ∨ ∃ k, s.place a = (s.place pa).next s.ramMask k := by
  obtain ⟨k, hk, rfl⟩ := mem_addrs.mp ha
  by_cases hk0 : k = 0
  · subst hk0
    exact Or.inl (by simp)
  · exact Or.inr ⟨_, h k (Nat.pos_of_ne_zero hk0) hk⟩

theorem Run.steady {s : GossamerBus μ α} {pa : U32} {n : ℕ} (h : (s.enter pa).Run pa n)
    (hfit : pa.toNat + n ≤ 2 ^ 32) : (s.enter pa).Steady (addrs pa n) := by
  rcases Place.mild_or_fixed ((s.enter pa).place pa) with hp | hp
  · left
    intro a ha
    refine ⟨settled_enter (le_of_mem_addrs hfit ha) s, ?_⟩
    rcases h.place ha with heq | ⟨k, heq⟩
    · rwa [heq]
    · rw [heq]
      exact Place.next_mild hp _ k
  · right
    intro a ha
    rcases h.place ha with heq | ⟨k, heq⟩
    · rwa [heq]
    · rw [heq]
      exact Place.next_fixed hp _ k

theorem addrs_succ (pa : U32) (n : ℕ) : addrs pa (n + 1) = pa :: addrs (pa + 1#32) n := by
  simp only [addrs, List.range_succ_eq_map, List.map_cons, List.map_map]
  congr 1
  · simp
  · apply List.map_congr_left
    intro k _
    simp only [Function.comp_apply]
    rw [BitVec.add_assoc]
    congr 1
    rw [Nat.succ_eq_one_add]
    simp [BitVec.ofNat_add]

/-- Byte accesses may as well begin with the decode fresh. -/
theorem readEach_enter (pa : U32) (n : ℕ) (s : GossamerBus μ α) :
    readEach (read8 chips) (addrs pa (n + 1)) s =
      readEach (read8 chips) (addrs pa (n + 1)) (s.enter pa) := by
  have h : read8 chips pa s = read8 chips pa (s.enter pa) := by
    rw [read8_eq, read8_eq, enter_enter (BitVec.le_refl pa)]
  simp only [addrs_succ, readEach, h]

theorem writeEach_enter (pa : U32) (n : ℕ) (v : U8) (vs : List U8) (s : GossamerBus μ α) :
    writeEach (write8 chips) ((addrs pa (n + 1)).zip (v :: vs)) s =
      writeEach (write8 chips) ((addrs pa (n + 1)).zip (v :: vs)) (s.enter pa) := by
  have h : write8 chips pa v s = write8 chips pa v (s.enter pa) := by
    rw [write8_eq, write8_eq, enter_enter (BitVec.le_refl pa)]
  simp only [addrs_succ, writeEach, List.zip_cons_cons, List.foldl_cons, h]

/-- The two bytes of a halfword of the ROM. -/
theorem spread16_rom (s : GossamerBus μ α) {pa : U32} (hrom : kRomAlias ≤ pa)
    (hfit : pa.toNat + 2 ≤ 2 ^ 32) :
    spread16 s.ramMask pa (s.place pa) = (addrs pa 2).map s.place ∧ s.Steady (addrs pa 2) := by
  have hrom1 : kRomAlias ≤ pa + 1#32 := by
    rw [BitVec.le_def] at hrom ⊢
    rw [BitVec.toNat_add]
    change _ ≤ (pa.toNat + 1) % 2 ^ 32
    omega
  rw [addrs_two]
  simp only [List.map_cons, List.map_nil, place_rom s hrom, place_rom s hrom1]
  refine ⟨rfl, Or.inr ?_⟩
  intro a ha
  rcases List.mem_pair.mp ha with rfl | rfl
  · rw [place_rom s hrom]
    trivial
  · rw [place_rom s hrom1]
    trivial

/-- What `Straight` gives a halfword that is decoded in one piece. -/
theorem Straight.half_places {s : GossamerBus μ α} {pa : U32} (hs : (s.enter pa).Straight .half pa)
    (hfit : pa.toNat + 2 ≤ 2 ^ 32) (hu : Unsplit16 pa) :
    spread16 (s.enter pa).ramMask pa ((s.enter pa).place pa) = (addrs pa 2).map (s.enter pa).place ∧
      (s.enter pa).Steady (addrs pa 2) ∧ ((s.enter pa).place pa).Half := by
  rcases hs with hs | hrom | ⟨hp, hrun⟩
  · exact absurd hu hs
  · refine ⟨(spread16_rom _ hrom hfit).1, (spread16_rom _ hrom hfit).2, ?_⟩
    rw [place_rom _ hrom]
    trivial
  · by_cases hrom : kRomAlias ≤ pa
    · exact ⟨(spread16_rom _ hrom hfit).1, (spread16_rom _ hrom hfit).2, hp⟩
    · exact ⟨spread16_eq hp hrom hrun, hrun.steady hfit, hp⟩

theorem read16_straight {s : GossamerBus μ α} {pa : U32} (hs : (s.enter pa).Straight .half pa)
    (hfit : pa.toNat + 2 ≤ 2 ^ 32) :
    read16Bytes chips pa s = readEach (read8 chips) (addrs pa 2) s := by
  by_cases hu : Unsplit16 pa
  · obtain ⟨hpl, hst, _⟩ := hs.half_places hfit hu
    rw [read16Bytes_eq chips hu, hpl, readEach_enter, readEach_read8 chips hst]
  · simp only [Unsplit16, Classical.not_imp, BitVec.not_le] at hu
    rw [addrs_two, read16Bytes, if_pos hu.1, if_pos hu.2]

theorem write16_straight {s : GossamerBus μ α} {pa : U32} (hs : (s.enter pa).Straight .half pa)
    (hfit : pa.toNat + 2 ≤ 2 ^ 32) (v : U16) :
    write16 chips pa v s = writeEach (write8 chips) ((addrs pa 2).zip (bytes16 v)) s := by
  by_cases hu : Unsplit16 pa
  · obtain ⟨hpl, hst, hp⟩ := hs.half_places hfit hu
    rw [write16_eq chips hu hp, hpl, bytes16, writeEach_enter, writeEach_write8 chips hst]
  · simp only [Unsplit16, Classical.not_imp, BitVec.not_le] at hu
    rw [addrs_two, write16, if_pos hu.1, if_pos hu.2]

theorem read32_straight {s : GossamerBus μ α} {pa : U32} (hs : (s.enter pa).Straight32 pa)
    (hfit : pa.toNat + 4 ≤ 2 ^ 32) :
    read32Bytes chips pa s = readEach (read8 chips) (addrs pa 4) s := by
  by_cases hu : Unsplit32 pa
  · obtain ⟨hp, hrun⟩ := hs.resolve_left (not_not.mpr hu)
    rw [read32Bytes_eq chips hu, spread32_eq hp hrun, readEach_enter,
      readEach_read8 chips (hrun.steady hfit)]
  · simp only [Unsplit32, Classical.not_imp, BitVec.not_le] at hu
    rw [addrs_four, read32Bytes, if_pos hu.1, if_pos hu.2]

theorem write32_straight {s : GossamerBus μ α} {pa : U32} (hs : (s.enter pa).Straight32 pa)
    (hfit : pa.toNat + 4 ≤ 2 ^ 32) (v : U32) :
    write32 chips pa v s = writeEach (write8 chips) ((addrs pa 4).zip (bytes32 v)) s := by
  by_cases hu : Unsplit32 pa
  · obtain ⟨hp, hrun⟩ := hs.resolve_left (not_not.mpr hu)
    rw [write32_eq chips hu hp, spread32_eq hp hrun, bytes32, writeEach_enter,
      writeEach_write8 chips (hrun.steady hfit)]
  · simp only [Unsplit32, Classical.not_imp, BitVec.not_le] at hu
    rw [addrs_four, write32, if_pos hu.1, if_pos hu.2]

/-! ## The second word of a doubleword -/

theorem sameMap_readEach {s : GossamerBus μ α} {ps : List Place} (h : ∀ p ∈ ps, p.Mild) :
    SameMap s (readEach (readPlace chips) ps s).2 := by
  induction ps generalizing s with
  | nil => exact SameMap.refl s
  | cons p ps ih =>
    have hp := SameMap.readPlace chips (h p List.mem_cons_self) s
    exact hp.trans (ih fun q hq => h q (List.mem_cons_of_mem p hq))

theorem sameMap_writeEach {s : GossamerBus μ α} {ps : List Place} (h : ∀ p ∈ ps, p.Mild)
    (vs : List U8) : SameMap s (writeEach (writePlace chips) (ps.zip vs) s) := by
  induction ps generalizing s vs with
  | nil => exact SameMap.refl s
  | cons p ps ih =>
    cases vs with
    | nil => exact SameMap.refl s
    | cons v vs =>
      have hp := SameMap.writePlace chips (h p List.mem_cons_self) v s
      exact hp.trans (ih (fun q hq => h q (List.mem_cons_of_mem p hq)) vs)

theorem SameMap.straight32 {s s' : GossamerBus μ α} (h : SameMap s s') {pa : U32}
    (hs : s.Straight32 pa) : s'.Straight32 pa := by
  unfold Straight32 Run at hs ⊢
  rwa [h.place, h.mask]

/-- A mask without low bits leaves a multiple of a power of two. -/
theorem and_aligned (x M : U32) {n : ℕ} (hn : n ≤ 32) (h : M &&& BitVec.ofNat 32 (2 ^ n - 1) = 0#32) :
    (x &&& M).toNat % 2 ^ n = 0 := by
  have hlow : (BitVec.ofNat 32 (2 ^ n - 1)).toNat = 2 ^ n - 1 := by
    have hle : 2 ^ n ≤ 2 ^ 32 := Nat.pow_le_pow_right (by decide) hn
    rw [BitVec.toNat_ofNat]
    omega
  have hz : (x &&& M &&& BitVec.ofNat 32 (2 ^ n - 1)).toNat = 0 := by
    rw [BitVec.and_assoc, h, BitVec.and_zero]
    rfl
  rw [← Nat.and_two_pow_sub_one_eq_mod, ← hlow, ← BitVec.toNat_and]
  exact hz

theorem atiBase_aligned (p : PciConfig) : p.atiBase.toNat % 2 ^ 23 = 0 := by
  unfold PciConfig.atiBase
  cases p.devs 0x12#32 with
  | none => rfl
  | some d => exact and_aligned _ _ (by decide) (by decide)

theorem atiIoBase_aligned (p : PciConfig) : p.atiIoBase.toNat % 2 ^ 8 = 0 := by
  unfold PciConfig.atiIoBase
  cases p.devs 0x12#32 with
  | none => rfl
  | some d => exact and_aligned _ _ (by decide) (by decide)

/-- A distance of whole words, and the bytes of the word it leads to. -/
theorem sub_add_toNat {a b : U32} (ha : a.toNat % 4 = 0) (hb : b.toNat % 4 = 0) {k : ℕ} (hk : k < 4) :
    (a + BitVec.ofNat 32 k - b).toNat = (a - b).toNat + k ∧ (a - b).toNat % 4 = 0 := by
  have h1 := a.isLt
  have h2 := b.isLt
  simp only [BitVec.toNat_sub, BitVec.toNat_add, BitVec.toNat_ofNat]
  omega

theorem atiWindow_word (s : GossamerBus μ α) {a : U32} (ha : a.toNat % 4 = 0) {k : ℕ} (hk : k < 4) :
    s.atiWindow (a + BitVec.ofNat 32 k) = (s.atiWindow a).map (· + BitVec.ofNat 32 k) := by
  -- a window of whole words holds the whole word or none of it
  have hwin : ∀ b : U32, b.toNat % 4 = 0 →
      (a + BitVec.ofNat 32 k - b < kAtiAperture ↔ a - b < kAtiAperture) ∧
        a + BitVec.ofNat 32 k - b = a - b + BitVec.ofNat 32 k := by
    intro b hb
    obtain ⟨h1, h2⟩ := sub_add_toNat ha hb hk
    constructor
    · rw [BitVec.lt_def, BitVec.lt_def, h1]
      change (_ < 0x800000 ↔ _ < 0x800000)
      omega
    · rw [BitVec.sub_eq_add_neg, BitVec.sub_eq_add_neg, BitVec.add_assoc, BitVec.add_assoc,
        BitVec.add_comm (BitVec.ofNat 32 k)]
  obtain ⟨hb1, hb2⟩ := hwin s.pci.atiBase (by have := atiBase_aligned s.pci; omega)
  obtain ⟨hc1, hc2⟩ := hwin 0x8F800000#32 (by decide)
  unfold atiWindow
  by_cases hbar : s.pci.atiBase ≠ 0#32 ∧ a - s.pci.atiBase < kAtiAperture
  · rw [if_pos hbar, if_pos ⟨hbar.1, hb1.mpr hbar.2⟩, hb2]
    rfl
  rw [if_neg hbar, if_neg fun h => hbar ⟨h.1, hb1.mp h.2⟩]
  by_cases halias : a - 0x8F800000#32 < kAtiAperture
  · rw [if_pos halias, if_pos (hc1.mpr halias), hc2]
    rfl
  · rw [if_neg halias, if_neg fun h => halias (hc1.mp h)]
    rfl

theorem atiIoWindow_word (s : GossamerBus μ α) {a : U32} (ha : a.toNat % 4 = 0) {k : ℕ} (hk : k < 4) :
    s.atiIoWindow (a + BitVec.ofNat 32 k) = (s.atiIoWindow a).map (· + BitVec.ofNat 32 k) := by
  have hio := atiIoBase_aligned s.pci
  have hbase : (0xFE000000#32 + s.pci.atiIoBase).toNat % 4 = 0 := by
    rw [BitVec.toNat_add]
    change (0xFE000000 + s.pci.atiIoBase.toNat) % 2 ^ 32 % 4 = 0
    omega
  obtain ⟨h1, h2⟩ := sub_add_toNat ha hbase hk
  have hlt : (a + BitVec.ofNat 32 k < 0xFE000000#32 + s.pci.atiIoBase ↔
      a < 0xFE000000#32 + s.pci.atiIoBase) := by
    rw [BitVec.lt_def, BitVec.lt_def, BitVec.toNat_add, BitVec.toNat_ofNat]
    have := a.isLt
    omega
  have hle : (0x100#32 ≤ a + BitVec.ofNat 32 k - (0xFE000000#32 + s.pci.atiIoBase) ↔
      0x100#32 ≤ a - (0xFE000000#32 + s.pci.atiIoBase)) := by
    rw [BitVec.le_def, BitVec.le_def, h1]
    change (0x100 ≤ _ ↔ 0x100 ≤ _)
    omega
  have hsub : a + BitVec.ofNat 32 k - (0xFE000000#32 + s.pci.atiIoBase) =
      a - (0xFE000000#32 + s.pci.atiIoBase) + BitVec.ofNat 32 k := by
    rw [BitVec.sub_eq_add_neg, BitVec.sub_eq_add_neg, BitVec.add_assoc, BitVec.add_assoc,
      BitVec.add_comm (BitVec.ofNat 32 k)]
  unfold atiIoWindow
  simp only [hlt, hle]
  by_cases hout : s.pci.atiIoBase = 0#32 ∨ a < 0xFE000000#32 + s.pci.atiIoBase ∨
      0x100#32 ≤ a - (0xFE000000#32 + s.pci.atiIoBase)
  · rw [if_pos hout, if_pos hout]
    rfl
  · rw [if_neg hout, if_neg hout, hsub]
    rfl

/-- A whole word that only the ATI's windows can hold. -/
theorem straight32_word (s : GossamerBus μ α) {a : U32} (ha : a.toNat % 4 = 0)
    (hplain : ∀ k, k < 4 → s.place (a + BitVec.ofNat 32 k) =
      match s.atiWindow (a + BitVec.ofNat 32 k) with
      | some off => .ap off
      | none =>
        match s.atiIoWindow (a + BitVec.ofNat 32 k) with
        | some off => .io off
        | none => .nothing) : s.Straight32 a := by
  have h0 := hplain 0 (by decide)
  rw [show a + BitVec.ofNat 32 0 = a by simp] at h0
  refine Or.inr ⟨?_, ?_⟩
  · rw [h0]
    cases s.atiWindow a with
    | some off => trivial
    | none => cases s.atiIoWindow a <;> trivial
  · intro k _ hk
    rw [hplain k hk, h0, atiWindow_word s ha hk, atiIoWindow_word s ha hk]
    cases s.atiWindow a with
    | some off => rfl
    | none => cases s.atiIoWindow a <;> rfl

/-- The words that follow the mac-io window and `CONFIG_DATA`. -/
theorem straight32_after (s : GossamerBus μ α) {a : U32} (ha : a = 0xF3100000#32 ∨ a = 0xFEE00004#32) :
    s.Straight32 a := by
  apply straight32_word
  · rcases ha with rfl | rfl <;> rfl
  · intro k hk
    have hlow : ¬ a + BitVec.ofNat 32 k < kMemSpace := by
      rcases ha with rfl | rfl <;> interval_cases k <;> decide
    have hrom : ¬ kRomAlias ≤ a + BitVec.ofNat 32 k := by
      rcases ha with rfl | rfl <;> interval_cases k <;> decide
    have hmac : ¬ inMacIo (a + BitVec.ofNat 32 k) = true := by
      rcases ha with rfl | rfl <;> interval_cases k <;> decide
    have hdata : ¬ (a + BitVec.ofNat 32 k) &&& ~~~3#32 = kConfigData := by
      rcases ha with rfl | rfl <;> interval_cases k <;> decide
    have hlatch : ¬ (a + BitVec.ofNat 32 k) &&& ~~~3#32 = kConfigAddr := by
      rcases ha with rfl | rfl <;> interval_cases k <;> decide
    rw [place, if_neg hlow, placeBeyond, if_neg hrom, if_neg hmac, if_neg hdata]
    cases s.atiWindow (a + BitVec.ofNat 32 k) with
    | some off => rfl
    | none =>
        cases s.atiIoWindow (a + BitVec.ofNat 32 k) with
        | some off => rfl
        | none => exact if_neg hlatch

/-- A run in a fixed window is a run in every state. -/
theorem Run.of_fixed {s : GossamerBus μ α} {pa : U32} {n : ℕ} (h : s.Run pa n)
    (hp : (s.place pa).Fixed) (s' : GossamerBus μ α) : s'.Run pa n := by
  intro k hk hn
  have hnext : ∀ m k, (s.place pa).next m k = (s.place pa).next s.ramMask k := by
    intro m k
    cases hpl : s.place pa <;> first | rfl | (rw [hpl] at hp; exact hp.elim)
  have hk' := h k hk hn
  have hfix : (s.place (pa + BitVec.ofNat 32 k)).Fixed := by
    rw [hk']
    exact Place.next_fixed hp _ _
  rw [(place_fixed hfix s').1, (place_fixed hp s').1, hk']
  exact (hnext _ _).symm

/-- Where the first word moves a window, the second was not behind it. -/
theorem straight32_next {s : GossamerBus μ α} {pa : U32} (hrun : s.Run pa 4) (hp : ¬ (s.place pa).Mild) (hs : s.Straight32 (pa + 4#32))
    (s' : GossamerBus μ α) : s'.Straight32 (pa + 4#32) := by
  have hat := place_at s pa
  have hat3 := place_at s (pa + 3#32)
  rw [hrun.four.2.2] at hat3
  cases hpl : s.place pa with
  | data lane =>
    rw [hpl] at hat hat3
    -- all four lanes are there, so the access begins at the first
    have h0 := data_toNat hat.1
    have h3 := data_toNat hat3.1
    rw [BitVec.toNat_add] at h3
    change (pa.toNat + 3) % 2 ^ 32 / 4 * 4 = 0xFEE00000 at h3
    apply straight32_after
    right
    apply BitVec.eq_of_toNat_eq
    rw [BitVec.toNat_add]
    change (pa.toNat + 4) % 2 ^ 32 = 0xFEE00004
    omega
  | macio off =>
    rw [hpl] at hat hat3
    by_cases hmac : inMacIo (pa + 4#32) = true
    · have hfix : (s.place (pa + 4#32)).Fixed := by
        rw [place_macio s hmac]
        trivial
      rcases hs with hs | ⟨hw, hrun'⟩
      · exact absurd (fun hlow => absurd hlow (inMacIo_high hmac)) hs
      · refine Or.inr ⟨?_, hrun'.of_fixed hfix s'⟩
        rwa [(place_fixed hfix s').1]
    · apply straight32_after
      left
      have h3 := hat3.1
      simp only [inMacIo, Bool.and_eq_true, decide_eq_true_eq, not_and, BitVec.le_def, BitVec.lt_def,
        BitVec.toNat_add] at h3 hmac
      change 0xF3000000 ≤ (pa.toNat + 3) % 2 ^ 32 ∧ (pa.toNat + 3) % 2 ^ 32 < 0xF3100000 at h3
      change 0xF3000000 ≤ (pa.toNat + 4) % 2 ^ 32 → ¬ (pa.toNat + 4) % 2 ^ 32 < 0xF3100000 at hmac
      apply BitVec.eq_of_toNat_eq
      rw [BitVec.toNat_add]
      change (pa.toNat + 4) % 2 ^ 32 = 0xF3100000
      omega
  | _ =>
    rw [hpl] at hp
    exact absurd trivial hp

theorem mild_below {s : GossamerBus μ α} {a : U32} (h : a.toNat < 0xF3000000) : (s.place a).Mild := by
  have hat := place_at s a
  cases hpl : s.place a with
  | macio off =>
    rw [hpl] at hat
    have h1 := hat.1
    simp only [inMacIo, Bool.and_eq_true, decide_eq_true_eq, BitVec.le_def] at h1
    have h2 : 0xF3000000 ≤ a.toNat := h1.1
    omega
  | data lane =>
    rw [hpl] at hat
    have h1 := data_toNat hat.1
    omega
  | _ => trivial

/-- The second word of an access is straight in any state the first word leads to. -/
theorem straight32_second {s s' : GossamerBus μ α} {pa : U32} (hfit : pa.toNat + 8 ≤ 2 ^ 32)
    (hs : (s.enter pa).Straight .dword pa)
    (hnext : (∀ a ∈ addrs pa 4, ((s.enter pa).place a).Mild) → SameMap (s.enter pa) s') :
    (s'.enter (pa + 4#32)).Straight32 (pa + 4#32) := by
  have hle : pa ≤ pa + 4#32 := by
    rw [BitVec.le_def, BitVec.toNat_add]
    change _ ≤ (pa.toNat + 4) % 2 ^ 32
    omega
  have hkept : SameMap (s.enter pa) s' → (s'.enter (pa + 4#32)).Straight32 (pa + 4#32) := by
    intro hm
    rw [(hm.settled (settled_enter hle s)).enter]
    exact hm.straight32 hs.2
  rcases hs.1 with hu | ⟨hw, hrun⟩
  · -- a word that leaves its line is below the devices
    simp only [Unsplit32, Classical.not_imp] at hu
    apply hkept
    apply hnext
    intro a ha
    obtain ⟨k, hk, rfl⟩ := mem_addrs.mp ha
    have hlow : pa.toNat < 0x40000000 := hu.1
    apply mild_below
    rw [BitVec.toNat_add, BitVec.toNat_ofNat]
    omega
  · by_cases hp : ((s.enter pa).place pa).Mild
    · apply hkept
      apply hnext
      intro a ha
      rcases hrun.place ha with heq | ⟨k, heq⟩
      · rwa [heq]
      · rw [heq]
        exact Place.next_mild hp _ k
    · exact straight32_next hrun hp hs.2 _

/-! ## Straight accesses agree -/

theorem length_addrs (pa : U32) (n : ℕ) : (addrs pa n).length = n := by
  rw [addrs, List.length_map, List.length_range]

theorem read32_snd (pa : U32) (s : GossamerBus μ α) :
    read32 chips pa s = (ofBytes 32 (read32Bytes chips pa s).1, (read32Bytes chips pa s).2) := rfl

theorem agrees_half {s : GossamerBus μ α} {pa : U32} (hfit : pa.toNat + 2 ≤ 2 ^ 32)
    (hs : (s.enter pa).Straight .half pa) : Agrees chips .half pa s where
  read := by
    change (ofBytes 16 (read16Bytes chips pa s).1, (read16Bytes chips pa s).2) = _
    rw [read16_straight chips hs hfit]
    rfl
  write v := write16_straight chips hs hfit v
  rom i hi := by
    simp only [romIndices] at hi
    split_ifs at hi with hrom
    · rcases List.mem_pair.mp hi with rfl | rfl
      · rw [and_rom_toNat]
        exact Nat.mod_lt _ (by decide)
      · rw [and_rom_toNat]
        exact Nat.mod_lt _ (by decide)
    · exact absurd hi List.not_mem_nil

/-- A word in one piece keeps inside the image of the ROM. -/
theorem romIndices32_lt {s : GossamerBus μ α} {pa : U32} (hs : s.Straight32 pa) {i : ℕ}
    (hi : i ∈ romIndices32 pa) : i < kRomSize := by
  unfold romIndices32 at hi
  split_ifs at hi with hrom
  · have hu : Unsplit32 pa := fun hlow => absurd hlow (rom_high hrom)
    obtain ⟨_, hrun⟩ := hs.resolve_left (not_not.mpr hu)
    -- the place of the last byte is an index below the size
    have hat := place_at s (pa + 3#32)
    rw [hrun.four.2.2, place_rom s hrom] at hat
    have hlast : (pa &&& kRomMask).toNat + 3 = ((pa + 3#32) &&& kRomMask).toNat := hat.2
    rw [and_rom_toNat (pa + 3#32)] at hlast
    have hlt : (pa + 3#32).toNat % 2 ^ 22 < kRomSize := Nat.mod_lt _ (by decide)
    simp only [List.mem_cons, List.not_mem_nil, or_false] at hi
    omega
  · exact absurd hi List.not_mem_nil

theorem agrees_word {s : GossamerBus μ α} {pa : U32} (hfit : pa.toNat + 4 ≤ 2 ^ 32)
    (hs : (s.enter pa).Straight32 pa) : Agrees chips .word pa s where
  read := by
    change (ofBytes 32 (read32Bytes chips pa s).1, (read32Bytes chips pa s).2) = _
    rw [read32_straight chips hs hfit]
    rfl
  write v := write32_straight chips hs hfit v
  rom _ hi := romIndices32_lt hs hi

/-- Bytes that are all at mild places leave the routing alone. -/
theorem mild_steady {s : GossamerBus μ α} {pa : U32} (hfit : pa.toNat + 4 ≤ 2 ^ 32)
    (h : ∀ a ∈ addrs pa 4, ((s.enter pa).place a).Mild) :
    (s.enter pa).Steady (addrs pa 4) ∧ ∀ p ∈ (addrs pa 4).map (s.enter pa).place, p.Mild := by
  refine ⟨Or.inl fun a ha => ⟨settled_enter (le_of_mem_addrs hfit ha) s, h a ha⟩, ?_⟩
  intro p hp
  obtain ⟨a, ha, rfl⟩ := List.mem_map.mp hp
  exact h a ha

theorem agrees_dword {s : GossamerBus μ α} {pa : U32} (hfit : pa.toNat + 8 ≤ 2 ^ 32)
    (hs : (s.enter pa).Straight .dword pa) : Agrees chips .dword pa s := by
  have hfit2 : (pa + 4#32).toNat + 4 ≤ 2 ^ 32 := by
    rw [BitVec.toNat_add]
    change (pa.toNat + 4) % 2 ^ 32 + 4 ≤ 2 ^ 32
    omega
  have hfit1 : pa.toNat + 4 ≤ 2 ^ 32 := by omega
  constructor
  · have hfirst := read32_straight chips hs.1 hfit1
    have hnext : (∀ a ∈ addrs pa 4, ((s.enter pa).place a).Mild) →
        SameMap (s.enter pa) (readEach (read8 chips) (addrs pa 4) s).2 := by
      intro hmild
      obtain ⟨hst, hall⟩ := mild_steady hfit1 hmild
      rw [readEach_enter, readEach_read8 chips hst]
      exact sameMap_readEach chips hall
    -- the second word is read after the first, which left the map as it was
    have hsecond := read32_straight chips (straight32_second hfit hs hnext) hfit2
    change read64 chips pa s = (ofBytes 64 (readEach (read8 chips) (addrs pa 8) s).1,
      (readEach (read8 chips) (addrs pa 8) s).2)
    rw [addrs_eight, readEach_append, ← ofBytes_words (by rw [length_readEach, length_addrs])
      (by rw [length_readEach, length_addrs])]
    simp only [read64, read32_snd, hfirst, hsecond]
  · intro v
    have hfirst := write32_straight chips hs.1 hfit1 (BitVec.setWidth 32 (v >>> 32))
    have hnext : (∀ a ∈ addrs pa 4, ((s.enter pa).place a).Mild) →
        SameMap (s.enter pa) (writeEach (write8 chips)
          ((addrs pa 4).zip (bytes32 (BitVec.setWidth 32 (v >>> 32)))) s) := by
      intro hmild
      obtain ⟨hst, hall⟩ := mild_steady hfit1 hmild
      rw [bytes32, writeEach_enter, writeEach_write8 chips hst]
      exact sameMap_writeEach chips hall _
    have hsecond := write32_straight chips (straight32_second hfit hs hnext) hfit2
      (BitVec.setWidth 32 v)
    have hzip : (addrs pa 8).zip (Sized.dword.bytesOf v) =
        (addrs pa 4).zip (bytes32 (BitVec.setWidth 32 (v >>> 32))) ++
          (addrs (pa + 4#32) 4).zip (bytes32 (BitVec.setWidth 32 v)) := by
      rw [addrs_eight]
      exact List.zip_append (length_addrs pa 4)
    change write64 chips pa v s =
      writeEach (write8 chips) ((addrs pa 8).zip (Sized.dword.bytesOf v)) s
    rw [hzip, writeEach_append, ← hfirst]
    rw [← hfirst] at hsecond
    exact hsecond
  · intro i hi
    rcases List.mem_append.mp hi with hi | hi
    · exact romIndices32_lt hs.1 hi
    · exact romIndices32_lt hs.2 hi

/-- An access in one piece agrees with its byte accesses. -/
theorem agrees_of_straight {w : Sized} {s : GossamerBus μ α} {pa : U32}
    (hfit : pa.toNat + w.bytes ≤ 2 ^ 32) (hs : (s.enter pa).Straight w pa) : Agrees chips w pa s := by
  cases w with
  | half => exact agrees_half chips hfit hs
  | word => exact agrees_word chips hfit hs
  | dword => exact agrees_dword chips hfit hs

end GossamerBus

end Gossamer

end OpenPowerMac
