/-
What may be fetched a block at a time: `SawtoothBus::memoryAt` against `SawtoothBus::read`
(`machine/include/opm/sawtooth.hpp`).

`memoryAt` looks at the sizes of RAM and of the boot ROM and at the flash's mode. The decode
in `read` has the guest's base registers before the ROM, so the two agree exactly as long as no
window has been moved over the addresses asked for (`speculates_iff`).

A read is what it returns and what answered it. The generation and the time that `read` notes
past plain RAM belong to the bus, and are left out.
-/
import OpenPowerMac.SawtoothBounds

set_option autoImplicit false

namespace OpenPowerMac

namespace SawtoothBus

/-- What the arrays hold. -/
abbrev Backing := Region → ℕ → U8

/-- `get`: the bytes from an index on, the most significant first. -/
def get (m : Backing) (r : Region) (i len : ℕ) : U32 :=
  (List.range len).foldl (fun v k => (v <<< 8) ||| (m r (i + k)).setWidth 32) 0#32

/-- `SawtoothBus::read`: the value, and what answered when it was no array. -/
def read (b : SawtoothBus) (m : Backing) (answer : Place → U32) (pa : U32) (len : ℕ) :
    U32 × Option Place :=
  match b.readPlace pa len with
  | .store w i => (get m w.region i len, none)
  | p => (answer p, some p)

/-- `memoryAt`. -/
def memoryAt (b : SawtoothBus) (pa : U32) (len : ℕ) : Bool :=
  b.ramFast pa len ||
    (decide (b.flashMode = .kFlashArray) && decide (kRomBase ≤ pa)
      && decide ((pa - kRomBase).toNat + len ≤ b.romSize))

/-- The storage that `memoryAt` speaks of: RAM where it is plain RAM, else the ROM. -/
def stored (b : SawtoothBus) (m : Backing) (pa : U32) (len k n : ℕ) : U32 :=
  if b.ramFast pa len then get m .ram (pa.toNat + k) n
  else get m .rom ((pa - kRomBase).toNat + k) n

/-- A block that is said to be memory reads as the bytes that are stored there, at every offset
and width, and reaches no device; one that begins at a device is not said to be. -/
structure Speculates (b : SawtoothBus) (pa : U32) (len : ℕ) : Prop where
  storage : b.memoryAt pa len = true → ∀ (k : ℕ) (w : Width), k + w.bytes ≤ len →
    ∀ (m : Backing) (answer : Place → U32),
      b.read m answer (pa + BitVec.ofNat 32 k) w.bytes = (b.stored m pa len k w.bytes, none)
  device : ∀ w : Width, w.bytes ≤ len → (∀ v i, b.readPlace pa w.bytes ≠ .store v i) →
    b.memoryAt pa len = false

/-- Something answers the address before the boot ROM would: the mac-io, one of the base
registers' windows, the sizing window or RAM above the devices. -/
def Covered (b : SawtoothBus) (a : U32) : Prop :=
  b.ramFast a 1 = false ∧
    (b.macioOff a ≠ none ∨ b.ohciAt a ≠ none
      ∨ (1#32 < b.atiRomBar ∧ a - (b.atiRomBar &&& ~~~1#32) < 0x20000#32 ∧ b.atiRomSize ≠ 0)
      ∨ b.inAtiIo a = true ∨ b.inAtiReg a = true ∨ b.inAtiFb a = true ∨ inSizeWin a = true
      ∨ b.inRam a 1 = true)

instance (b : SawtoothBus) (a : U32) : Decidable (b.Covered a) :=
  inferInstanceAs (Decidable (_ ∧ _))

section

variable {b : SawtoothBus} {a pa : U32} {len : ℕ}

/-! ## Plain RAM -/

theorem readPlace_of_ramFast (h : b.ramFast a len = true) :
    b.readPlace a len = .store .ramFast a.toNat := by
  simp only [readPlace, place, h, if_true]

theorem add_toNat {k : ℕ} (h : pa.toNat + k < 2 ^ 32) :
    (pa + BitVec.ofNat 32 k).toNat = pa.toNat + k := by
  rw [BitVec.toNat_add, BitVec.toNat_ofNat]
  omega

theorem ramFast_iff : b.ramFast a len = true ↔ a.toNat < 2 ^ 31 ∧ a.toNat + len ≤ b.ramSize := by
  simp only [ramFast, Bool.and_eq_true, decide_eq_true_eq]
  exact Iff.rfl

/-- Inside plain RAM every access is one to plain RAM. -/
theorem readPlace_ram {k n : ℕ} (h : b.ramFast pa len = true) (hlow : pa.toNat + len ≤ 2 ^ 31)
    (hk : k + n ≤ len) (hn : 0 < n) :
    b.readPlace (pa + BitVec.ofNat 32 k) n = .store .ramFast (pa.toNat + k) := by
  rcases ramFast_iff.mp h with ⟨-, hsize⟩
  have hadd : (pa + BitVec.ofNat 32 k).toNat = pa.toNat + k := add_toNat (by omega)
  rw [← hadd]
  apply readPlace_of_ramFast
  rw [ramFast_iff, hadd]
  omega

/-! ## The boot ROM -/

theorem not_ramFast (h : kRomBase ≤ a) (n : ℕ) : b.ramFast a n = false := by
  have hbase : 0xFFF00000 ≤ a.toNat := h
  rw [← Bool.not_eq_true, ramFast_iff]
  omega

/-- A wider access at the address is no more in RAM than a byte is. -/
theorem inRam_one {n : ℕ} (h : b.inRam a n = true) : b.inRam a 1 = true := by
  simp only [inRam, Bool.and_eq_true, decide_eq_true_eq] at h ⊢
  refine ⟨h.1, ?_⟩
  rw [BitVec.toNat_add, BitVec.toNat_ofNat]
  have := h.1
  have := Nat.mod_le (a.toNat + 1 % 2 ^ 32) (2 ^ 32)
  omega

/-- With nothing in front of it the ROM answers. -/
theorem readPlace_rom {n : ℕ} (hflash : b.flashMode = .kFlashArray) (hfree : ¬ b.Covered a)
    (hbase : kRomBase ≤ a) (hsize : b.romSize ≤ 2 ^ 20)
    (hn : (a - kRomBase).toNat + n ≤ b.romSize) :
    b.readPlace a n = .store .rom (a - kRomBase).toNat := by
  have hfast := not_ramFast (b := b) hbase
  simp only [Covered, hfast, true_and, not_or, ne_eq, Decidable.not_not] at hfree
  rcases hfree with ⟨hmacio, hohci, hatiRom, hio, hreg, hfb, hsz, hram⟩
  have hram' : ¬ b.inRam a n = true := fun h => hram (inRam_one h)
  have hrom : b.inRom a n = true := by
    simp only [inRom, Bool.and_eq_true, decide_eq_true_eq]
    refine ⟨hbase, ?_⟩
    rw [BitVec.toNat_add, BitVec.toNat_ofNat]
    omega
  simp only [readPlace, place, hfast, hmacio, hohci, readBeyond, memoryPlace]
  rw [if_neg Bool.false_ne_true, if_neg hatiRom, if_neg hio, if_neg hreg, if_neg hfb, if_neg hsz,
    if_neg hram', if_pos hrom, if_neg (not_not.mpr hflash)]

/-! ## What covers it -/

theorem macioPlace_store {off : U32} {w : Window} {i : ℕ} (h : b.macioPlace off len = .store w i) :
    w = .kl := by
  unfold macioPlace at h
  obtain ⟨-, h⟩ := ite_store (fun _ _ => Place.noConfusion) h
  obtain ⟨-, h⟩ := ite_store (fun _ _ => Place.noConfusion) h
  obtain ⟨-, h⟩ := ite_store (fun _ _ => Place.noConfusion) h
  obtain ⟨-, h⟩ := ite_store (fun _ _ => Place.noConfusion) h
  split at h
  · exact Place.noConfusion h
  · exact (macioRest_store h).1

/-- A test whose branch is another array is not the one that opened this one. -/
theorem ite_store_ne {p : Prop} [Decidable p] {x y : Place} {w : Window} {i : ℕ}
    (hx : x ≠ .store w i) (h : (if p then x else y) = .store w i) : ¬ p ∧ y = .store w i := by
  by_cases hp : p
  · rw [if_pos hp] at h
    exact absurd h hx
  · rw [if_neg hp] at h
    exact ⟨hp, h⟩

/-- Where the ROM answers, nothing covers it. -/
theorem not_covered {i : ℕ} (h : b.readPlace a 1 = .store .rom i) : ¬ b.Covered a := by
  unfold readPlace place at h
  obtain ⟨-, h⟩ := ite_store_ne (by simp) h
  rcases hmacio : b.macioOff a with - | off
  case some =>
    simp only [hmacio] at h
    exact absurd (macioPlace_store h) (by decide)
  rcases hohci : b.ohciAt a with - | f
  case some =>
    simp only [hmacio, hohci] at h
    exact Place.noConfusion h
  simp only [hmacio, hohci, readBeyond, memoryPlace] at h
  obtain ⟨hatiRom, h⟩ := ite_store_ne (by simp) h
  obtain ⟨hio, h⟩ := ite_store_ne (by simp) h
  obtain ⟨hreg, h⟩ := ite_store_ne (by simp) h
  obtain ⟨hfb, h⟩ := ite_store_ne (by simp) h
  obtain ⟨hsz, h⟩ := ite_store_ne (by simp) h
  obtain ⟨hram, h⟩ := ite_store_ne (by simp) h
  rintro ⟨-, hc | hc | hc | hc | hc | hc | hc | hc⟩
  · exact hc hmacio
  · exact hc hohci
  · exact hatiRom hc
  · exact hio hc
  · exact hreg hc
  · exact hfb hc
  · exact hsz hc
  · exact hram hc

theorem not_covered_ram {i : ℕ} (h : b.readPlace a 1 = .store .ramFast i) : ¬ b.Covered a := by
  intro hc
  cases opens_readPlace h with
  | ramFast hfast => exact absurd hfast (by rw [hc.1]; decide)

/-- The first address of the devices is covered, whatever RAM there is. -/
theorem covered_base : b.Covered 0x80000000#32 :=
  ⟨by simp [ramFast, kDeviceWindowBase],
    Or.inl (by simp [macioOff, kMacIoBase, kMacIoBar, kMacIoSize])⟩

theorem readPlace_base {w : Window} {i : ℕ} (h : b.readPlace 0x80000000#32 1 = .store w i) :
    w = .kl := by
  have hfast : b.ramFast 0x80000000#32 1 = false := covered_base.1
  have hmacio : b.macioOff 0x80000000#32 = some 0#32 := by
    simp [macioOff, kMacIoBase, kMacIoBar, kMacIoSize]
  simp only [readPlace, place, hfast, hmacio, Bool.false_eq_true, if_false] at h
  exact macioPlace_store h

/-! ## Speculation -/

theorem memoryAt_rom (h : b.memoryAt pa len = true) (hfast : ¬ b.ramFast pa len = true) :
    b.flashMode = .kFlashArray ∧ kRomBase ≤ pa ∧ (pa - kRomBase).toNat + len ≤ b.romSize := by
  rw [Bool.not_eq_true] at hfast
  simpa [memoryAt, hfast, and_assoc] using h

/-- An address in the ROM, by its offset from the first one. -/
theorem rom_offset {k : ℕ} (hbase : kRomBase ≤ pa) (hk : (pa - kRomBase).toNat + k < 2 ^ 20) :
    kRomBase ≤ pa + BitVec.ofNat 32 k
      ∧ (pa + BitVec.ofNat 32 k - kRomBase).toNat = (pa - kRomBase).toNat + k := by
  have hle : 0xFFF00000 ≤ pa.toNat := hbase
  have hsub : (pa - kRomBase).toNat = pa.toNat - 0xFFF00000 := BitVec.toNat_sub_of_le hbase
  have hadd : (pa + BitVec.ofNat 32 k).toNat = pa.toNat + k := add_toNat (by omega)
  have hle' : kRomBase ≤ pa + BitVec.ofNat 32 k := by
    rw [BitVec.le_def, hadd]
    exact Nat.le_add_right_of_le hle
  refine ⟨hle', ?_⟩
  rw [BitVec.toNat_sub_of_le hle', hadd, hsub, show kRomBase.toNat = 0xFFF00000 from rfl]
  omega

/-- The plain RAM of a block that nothing covers ends below the devices. -/
theorem low_of_free (h : b.ramFast pa len = true)
    (hfree : ∀ k < len, ¬ b.Covered (pa + BitVec.ofNat 32 k)) : pa.toNat + len ≤ 2 ^ 31 := by
  rcases ramFast_iff.mp h with ⟨hlow, -⟩
  by_contra hlen
  apply hfree (2 ^ 31 - pa.toNat) (by omega)
  have haddr : pa + BitVec.ofNat 32 (2 ^ 31 - pa.toNat) = 0x80000000#32 := by
    apply BitVec.eq_of_toNat_eq
    rw [add_toNat (by omega)]
    show _ = 2 ^ 31
    omega
  rw [haddr]
  exact covered_base

/-- Where nothing covers a block of memory, every access in it is one to that memory. -/
theorem readPlace_block {k n : ℕ} (hrom : b.romSize ≤ 2 ^ 20) (h : b.memoryAt pa len = true)
    (hfree : ∀ k < len, ¬ b.Covered (pa + BitVec.ofNat 32 k)) (hk : k + n ≤ len) (hn : 0 < n) :
    b.readPlace (pa + BitVec.ofNat 32 k) n =
      if b.ramFast pa len = true then .store .ramFast (pa.toNat + k)
      else .store .rom ((pa - kRomBase).toNat + k) := by
  by_cases hfast : b.ramFast pa len = true
  · rw [if_pos hfast]
    exact readPlace_ram hfast (low_of_free hfast hfree) hk hn
  · rw [if_neg hfast]
    rcases memoryAt_rom h hfast with ⟨hflash, hbase, hsize⟩
    rcases rom_offset (k := k) hbase (by omega) with ⟨hbase', hoff⟩
    rw [← hoff]
    exact readPlace_rom hflash (hfree k (by omega)) hbase' hrom (by omega)

/-- What does not read from an array is told from it by some contents. -/
theorem exists_read_ne {r : Region} (j : ℕ)
    (h : ∀ w i, b.readPlace a 1 = .store w i → w.region ≠ r) :
    ∃ m answer, b.read m answer a 1 ≠ (get m r j 1, none) := by
  refine ⟨fun q _ => if q = r then 1#8 else 0#8, fun _ => 0#32, fun heq => ?_⟩
  unfold read at heq
  split at heq
  case h_1 w i hplace =>
    have hne := h w i hplace
    simp [get, hne] at heq
  case h_2 => exact absurd (congrArg Prod.snd heq) (by simp)

/-- **Speculation.** A block fetch is of storage exactly when it is refused or nothing covers
the block. -/
theorem speculates_iff (hrom : b.romSize ≤ 2 ^ 20) :
    b.Speculates pa len ↔
      (b.memoryAt pa len = true → ∀ k < len, ¬ b.Covered (pa + BitVec.ofNat 32 k)) := by
  constructor
  · intro hspec hmem k hk hcov
    have hbyte (k : ℕ) (hk : k < len) := hspec.storage hmem k .byte hk
    by_cases hfast : b.ramFast pa len = true
    · rcases ramFast_iff.mp hfast with ⟨hlow, hsize⟩
      by_cases hlen : pa.toNat + len ≤ 2 ^ 31
      · exact not_covered_ram (readPlace_ram hfast hlen hk Nat.one_pos) hcov
      · -- the block runs into the devices: its first byte there is the mac-io's
        have haddr : pa + BitVec.ofNat 32 (2 ^ 31 - pa.toNat) = 0x80000000#32 := by
          apply BitVec.eq_of_toNat_eq
          rw [add_toNat (by omega)]
          show _ = 2 ^ 31
          omega
        have hbase := hbyte (2 ^ 31 - pa.toNat) (by omega)
        simp only [stored, hfast, if_true, haddr] at hbase
        rcases exists_read_ne (b := b) (a := 0x80000000#32) (r := .ram)
          (pa.toNat + (2 ^ 31 - pa.toNat)) (fun w i h => by rw [readPlace_base h]; decide)
          with ⟨m, answer, hne⟩
        exact hne (hbase m answer)
    · have hrest := hbyte k hk
      simp only [stored, if_neg hfast] at hrest
      rcases exists_read_ne (b := b) (a := pa + BitVec.ofNat 32 k) (r := .rom)
        ((pa - kRomBase).toNat + k) (fun w i h hw => by
          cases w <;> first | exact Region.noConfusion hw | exact not_covered h hcov)
        with ⟨m, answer, hne⟩
      exact hne (hrest m answer)
  · intro hfree
    refine ⟨fun hmem k w hk m answer => ?_, fun w hw hdevice => ?_⟩
    · have hplace := readPlace_block hrom hmem (hfree hmem) hk (bytes_pos w)
      unfold read stored
      rw [hplace]
      split_ifs <;> rfl
    · rw [← Bool.not_eq_true]
      intro hmem
      have hplace := readPlace_block (k := 0) hrom hmem (hfree hmem) (by omega) (bytes_pos w)
      rw [show BitVec.ofNat 32 0 = 0#32 from rfl, BitVec.add_zero] at hplace
      split_ifs at hplace
      · exact hdevice _ _ hplace
      · exact hdevice _ _ hplace

end

/-! ## A window over the ROM -/

/-- The guest gives the first OHCI function an address: the latch, and the data. -/
def moveOhci (b : SawtoothBus) (v : U32) : SawtoothBus :=
  (b.write 0xF2800000#32 0x10400100#32 4).write 0xF2C00000#32 v 4

theorem Reachable.moveOhci {b : SawtoothBus} (h : Reachable b) (v : U32) :
    Reachable (b.moveOhci v) := (h.write _ _ _).write _ _ _

/-- A machine of 64 MB and the ROM, with the function at an address of its own. -/
theorem speculates_iff_moved :
    let b := moveOhci { ramSize := 2 ^ 26, romSize := 2 ^ 20 } 0x00000081#32
    b.Speculates 0xFFF00100#32 32 ↔
      (b.memoryAt 0xFFF00100#32 32 = true →
        ∀ k < 32, ¬ b.Covered (0xFFF00100#32 + BitVec.ofNat 32 k)) :=
  speculates_iff (by decide)

/-- The function over the reset vector: the block at it is said to be memory, and reads the
controller's registers. -/
theorem speculates_over_rom :
    ¬ ∀ b : SawtoothBus, Reachable b → b.romSize ≤ 2 ^ 20 → ∀ (pa : U32) (len : ℕ),
      b.Speculates pa len := by
  intro h
  have hspec := h _ ((Reachable.powerOn (2 ^ 26) (2 ^ 20)).moveOhci 0x0000F0FF#32) (by decide)
    0xFFF00100#32 32
  have hmem := (speculates_iff (by decide)).mp hspec (by decide) 0 (by decide)
  revert hmem
  decide

end SawtoothBus

end OpenPowerMac
