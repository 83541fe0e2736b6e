/-
Where an access can leave the array behind it.

Most windows are bounded by their own test. Two are not: the frame buffer and the
sizing window mask the address and then touch `len` bytes from there on, and the
last RAM test adds in 32 bits. `Fits` is what each of the three needs, and
`inside_iff` says that this is all any access needs.
-/
import OpenPowerMac.Sawtooth
import Mathlib.Data.List.TakeWhile

set_option autoImplicit false

namespace OpenPowerMac

namespace SawtoothBus

variable (b : SawtoothBus) (pa v : U32) (len : ℕ)

/-! ## The modules -/

/-- The size of the module under test, which the sizing window wraps at. -/
def moduleBytes : ℕ := b.dimms.mb * 2 ^ 20

theorem mem_shapes {d : Dimms} (h : d ∈ [1, 2, 3].flatMap fun n => kShapes.map fun s =>
    { s with count := n }) : (d.count = 1 ∨ d.count = 2 ∨ d.count = 3)
      ∧ (d.mb = 64 ∨ d.mb = 128 ∨ d.mb = 256 ∨ d.mb = 512) := by
  simp only [kShapes, List.flatMap_cons, List.flatMap_nil, List.map_cons, List.map_nil,
    List.mem_append, List.mem_cons, List.not_mem_nil, or_false] at h
  rcases h with (h | h | h | h) | (h | h | h | h) | (h | h | h | h) <;> rw [h] <;> simp

/-- What `dimms` answers: modules that carry the allocation exactly, to the
megabyte, or one 64 MB module. -/
theorem dimms_cases :
    (b.dimms.count * b.dimms.mb = b.ramSize / 2 ^ 20 % 2 ^ 32
      ∧ (b.dimms.count = 1 ∨ b.dimms.count = 2 ∨ b.dimms.count = 3)
      ∧ (b.dimms.mb = 64 ∨ b.dimms.mb = 128 ∨ b.dimms.mb = 256 ∨ b.dimms.mb = 512))
    ∨ (b.dimms.count = 1 ∧ b.dimms.mb = 64) := by
  rw [dimms]
  rcases hf : List.find? (fun d : Dimms => d.mb * d.count == b.ramSize / 2 ^ 20 % 2 ^ 32)
      ([1, 2, 3].flatMap fun n => kShapes.map fun s => { s with count := n }) with _ | d
  · right
    simp only [hf, Option.getD_none, and_self]
  · left
    simp only [hf, Option.getD_some]
    have hmb := List.find?_some hf
    rw [beq_iff_eq] at hmb
    obtain ⟨hc, hm⟩ := mem_shapes (List.mem_of_find?_eq_some hf)
    exact ⟨by rw [Nat.mul_comm]; exact hmb, hc, hm⟩

/-- A module is a power of two of bytes, 64 MB at the least. -/
theorem moduleBytes_eq : ∃ k, 26 ≤ k ∧ k ≤ 29 ∧ b.moduleBytes = 2 ^ k := by
  have hmb : b.dimms.mb = 64 ∨ b.dimms.mb = 128 ∨ b.dimms.mb = 256 ∨ b.dimms.mb = 512 := by
    rcases b.dimms_cases with ⟨-, -, h⟩ | ⟨-, h⟩
    · exact h
    · exact .inl h
  rw [moduleBytes]
  rcases hmb with h | h | h | h <;> rw [h]
  · exact ⟨26, by norm_num⟩
  · exact ⟨27, by norm_num⟩
  · exact ⟨28, by norm_num⟩
  · exact ⟨29, by norm_num⟩

/-- **The SPD never advertises more than the allocation, from 64 MB on.** -/
theorem advertised_le_iff : b.advertised ≤ b.ramSize ↔ 2 ^ 26 ≤ b.ramSize := by
  have hdiv := Nat.div_mul_le_self b.ramSize (2 ^ 20)
  have hmod := Nat.mod_le (b.ramSize / 2 ^ 20) (2 ^ 32)
  rw [advertised]
  rcases b.dimms_cases with ⟨heq, hc, hm⟩ | ⟨hc, hm⟩
  · have hmul : b.dimms.count * (b.dimms.mb * 2 ^ 20)
        = b.ramSize / 2 ^ 20 % 2 ^ 32 * 2 ^ 20 := by rw [← Nat.mul_assoc, heq]
    have hle : b.ramSize / 2 ^ 20 % 2 ^ 32 * 2 ^ 20 ≤ b.ramSize :=
      (Nat.mul_le_mul_right _ hmod).trans hdiv
    have hone : 1 * 64 ≤ b.dimms.count * b.dimms.mb :=
      Nat.mul_le_mul (by omega) (by omega)
    constructor
    · intro _
      omega
    · intro _
      omega
  · rw [hc, hm]
    norm_num

/-! ## The three windows that are not bounded by their test -/

/-- What an access through a window needs beyond the window's own test. -/
def Fits : Window → Prop
  | .fb => (pa - b.atiFbBar).toNat % 2 ^ 25 + len ≤ 2 ^ 25
  | .sizeWin => (pa - kSizeWin).toNat % b.moduleBytes + len ≤ b.ramSize
  | .ram => pa.toNat + len < 2 ^ 32 ∨ pa.toNat + len ≤ b.ramSize
  | _ => True

instance (w : Window) : Decidable (b.Fits pa len w) := by
  cases w <;> unfold Fits <;> infer_instance

/-- What a window tests before it opens, and the index it opens at. -/
inductive Opens : Window → ℕ → Prop
  | ramFast (h : b.ramFast pa len = true) : Opens .ramFast pa.toNat
  | kl (off : U32) (hoff : b.macioOff pa = some off) (hpic : ¬ off - 0x40000#32 < 0x40000#32) :
      Opens .kl off.toNat
  | fb (h : b.inAtiFb pa = true) : Opens .fb (b.vramOff pa).toNat
  | sizeWin (h : inSizeWin pa = true) : Opens .sizeWin (b.sizeWinOff pa).toNat
  | ram (h : b.inRam pa len = true) : Opens .ram pa.toNat
  | rom (h : b.inRom pa len = true) : Opens .rom (pa - kRomBase).toNat
  | unin (hi2c : ¬ inI2c pa len = true) (h : inUniN pa len = true) :
      Opens .unin (pa - kUniNBase).toNat

variable {b pa v len} {w : Window} {i : ℕ}

/-- A test whose branch is a device is not the one that opened an array. -/
theorem ite_store {p : Prop} [Decidable p] {x y : Place} (hx : ∀ w i, x ≠ .store w i)
    (h : (if p then x else y) = .store w i) : ¬ p ∧ y = .store w i := by
  by_cases hp : p
  · rw [if_pos hp] at h
    exact absurd h (hx w i)
  · rw [if_neg hp] at h
    exact ⟨hp, h⟩

theorem macioRest_store {off : U32} (h : b.macioRest off len = .store w i) :
    w = .kl ∧ i = off.toNat := by
  unfold macioRest at h
  obtain ⟨-, h⟩ := ite_store (fun _ _ => Place.noConfusion) h
  obtain ⟨-, h⟩ := ite_store (fun _ _ => Place.noConfusion) h
  obtain ⟨-, h⟩ := ite_store (fun _ _ => Place.noConfusion) h
  obtain ⟨rfl, rfl⟩ := Place.store.inj h
  exact ⟨rfl, rfl⟩

theorem opens_macio {off : U32} (hoff : b.macioOff pa = some off)
    (h : b.macioPlace off len = .store w i) : b.Opens pa len w i := by
  unfold macioPlace at h
  obtain ⟨-, h⟩ := ite_store (fun _ _ => Place.noConfusion) h
  obtain ⟨-, h⟩ := ite_store (fun _ _ => Place.noConfusion) h
  obtain ⟨-, h⟩ := ite_store (fun _ _ => Place.noConfusion) h
  obtain ⟨hpic, h⟩ := ite_store (fun _ _ => Place.noConfusion) h
  split at h
  · exact Place.noConfusion h
  · obtain ⟨rfl, rfl⟩ := macioRest_store h
    exact .kl off hoff hpic

theorem opens_bridge {p : Place} (hp : p = .store w i → b.Opens pa len w i)
    (h : bridgePlace pa len p = .store w i) : b.Opens pa len w i := by
  unfold bridgePlace at h
  obtain ⟨hi2c, h⟩ := ite_store (fun _ _ => Place.noConfusion) h
  by_cases hunin : inUniN pa len = true
  · rw [if_pos hunin] at h
    obtain ⟨rfl, rfl⟩ := Place.store.inj h
    exact .unin hi2c hunin
  · rw [if_neg hunin] at h
    split at h
    · exact Place.noConfusion h
    · exact hp h

theorem opens_memory {p : Place} (hp : p = .store w i → b.Opens pa len w i)
    (h : b.memoryPlace pa len p = .store w i) : b.Opens pa len w i := by
  unfold memoryPlace at h
  obtain ⟨-, h⟩ := ite_store (fun _ _ => Place.noConfusion) h
  obtain ⟨-, h⟩ := ite_store (fun _ _ => Place.noConfusion) h
  split_ifs at h with hfb hsize hram
  · obtain ⟨rfl, rfl⟩ := Place.store.inj h
    exact .fb hfb
  · obtain ⟨rfl, rfl⟩ := Place.store.inj h
    exact .sizeWin hsize
  · obtain ⟨rfl, rfl⟩ := Place.store.inj h
    exact .ram hram
  · exact hp h

theorem opens_place {p : Place} (hp : p = .store w i → b.Opens pa len w i)
    (h : b.place p pa len = .store w i) : b.Opens pa len w i := by
  unfold place at h
  by_cases hfast : b.ramFast pa len = true
  · rw [if_pos hfast] at h
    obtain ⟨rfl, rfl⟩ := Place.store.inj h
    exact .ramFast hfast
  · rw [if_neg hfast] at h
    split at h
    · next hoff => exact opens_macio hoff h
    · split at h
      · exact Place.noConfusion h
      · exact hp h

theorem opens_readPlace (h : b.readPlace pa len = .store w i) : b.Opens pa len w i := by
  refine opens_place (fun h => ?_) h
  obtain ⟨-, h⟩ := ite_store (fun _ _ => Place.noConfusion) h
  refine opens_memory (fun h => ?_) h
  by_cases hrom : b.inRom pa len = true
  · rw [if_pos hrom] at h
    obtain ⟨-, h⟩ := ite_store (fun _ _ => Place.noConfusion) h
    obtain ⟨rfl, rfl⟩ := Place.store.inj h
    exact .rom hrom
  · rw [if_neg hrom] at h
    exact opens_bridge (fun h => Place.noConfusion h) h

theorem opens_writePlace (h : b.writePlace pa len = .store w i) : b.Opens pa len w i := by
  refine opens_place (fun h => opens_memory (fun h => opens_bridge (fun h => ?_) h) h) h
  obtain ⟨-, h⟩ := ite_store (fun _ _ => Place.noConfusion) h
  exact Place.noConfusion h

/-! ## Index safety -/

theorem span_inside_iff (r : Region) (hlen : 0 < len) :
    (∀ x ∈ span r i len, x.2 < b.size x.1) ↔ i + len ≤ b.size r := by
  simp only [span, List.mem_map, List.mem_range, forall_exists_index, and_imp]
  constructor
  · intro h
    have := h (r, i + (len - 1)) (len - 1) (by omega) rfl
    simp only at this
    omega
  · rintro h x k hk rfl
    simp only
    omega

/-- A mask of low ones is a remainder. -/
theorem and_ones (x : U32) {k : ℕ} (hk : k ≤ 29) :
    (x &&& (BitVec.ofNat 32 (2 ^ k) - 1#32)).toNat = x.toNat % 2 ^ k := by
  have hpos : 0 < 2 ^ k := Nat.two_pow_pos k
  have hle : 2 ^ k ≤ 2 ^ 29 := Nat.pow_le_pow_right (by norm_num) hk
  have hval : (BitVec.ofNat 32 (2 ^ k) - 1#32).toNat = 2 ^ k - 1 := by
    have h1 : (1#32).toNat = 1 := rfl
    have h2 : (BitVec.ofNat 32 (2 ^ k)).toNat = 2 ^ k := by
      rw [BitVec.toNat_ofNat]
      exact Nat.mod_eq_of_lt (by omega)
    rw [BitVec.toNat_sub_of_le (by rw [BitVec.le_def, h1, h2]; omega), h1, h2]
  rw [BitVec.toNat_and, hval, Nat.and_two_pow_sub_one_eq_mod]

theorem vramOff_toNat : (b.vramOff pa).toNat = (pa - b.atiFbBar).toNat % 2 ^ 25 :=
  and_ones (pa - b.atiFbBar) (k := 25) (by norm_num)

theorem sizeWinOff_toNat :
    (b.sizeWinOff pa).toNat = (pa - kSizeWin).toNat % b.moduleBytes := by
  obtain ⟨k, hk, hk', heq⟩ := b.moduleBytes_eq
  have hshift : BitVec.ofNat 32 b.dimms.mb <<< 20 = BitVec.ofNat 32 (2 ^ k) := by
    rw [← heq, moduleBytes]
    apply BitVec.eq_of_toNat_eq
    simp only [BitVec.toNat_shiftLeft, BitVec.toNat_ofNat, Nat.shiftLeft_eq]
    omega
  rw [sizeWinOff, hshift, heq]
  exact and_ones _ hk'

theorem macioOff_lt {off : U32} (h : b.macioOff pa = some off) : off.toNat < kMacIoSize := by
  unfold macioOff at h
  split_ifs at h with h₁ h₂ h₃
  · obtain rfl := Option.some.inj h
    exact h₁
  · obtain rfl := Option.some.inj h
    exact h₂
  · obtain rfl := Option.some.inj h
    exact h₃.2

/-- The mac-io registers that fall through to the store lie below the interrupt
controller. -/
theorem kl_inside {off : U32} (hoff : b.macioOff pa = some off)
    (hpic : ¬ off - 0x40000#32 < 0x40000#32) (hlen : len ≤ 4) :
    off.toNat + len ≤ kMacIoSize := by
  have hlt := macioOff_lt hoff
  have hlow : off.toNat < 0x40000 := by
    simp only [kMacIoSize] at hlt
    rw [BitVec.lt_def, BitVec.toNat_sub] at hpic
    simp only [BitVec.toNat_ofNat] at hpic
    omega
  simp only [kMacIoSize]
  omega

/-- The flash window's offset does not wrap: the flash ends with the address
space. -/
theorem rom_inside (h : b.inRom pa len = true) (hlen : len ≤ 4) :
    (pa - kRomBase).toNat + len ≤ b.romSize := by
  rw [inRom, Bool.and_eq_true, decide_eq_true_iff, decide_eq_true_iff] at h
  obtain ⟨hge, hle⟩ := h
  have hpa := pa.isLt
  rw [kRomBase, BitVec.le_def] at hge
  have hoff : (pa - kRomBase).toNat = pa.toNat - 0xFFF00000 := by
    rw [kRomBase, BitVec.toNat_sub_of_le (by rwa [BitVec.le_def])]
    rfl
  simp only [BitVec.toNat_ofNat] at hge
  rw [BitVec.toNat_add, hoff, BitVec.toNat_ofNat] at hle
  omega

/-- An access that runs over the top of the address space is taken by the I2C
test, which has the same wrap. -/
theorem unin_inside (hi2c : ¬ inI2c pa len = true) (h : inUniN pa len = true) (hlen : len ≤ 4) :
    (pa - kUniNBase).toNat + len ≤ kUniNSize := by
  rw [inI2c, Bool.and_eq_true, decide_eq_true_iff, decide_eq_true_iff, BitVec.le_def,
    BitVec.le_def] at hi2c
  rw [inUniN, Bool.and_eq_true, decide_eq_true_iff, decide_eq_true_iff, BitVec.le_def,
    BitVec.le_def] at h
  obtain ⟨hge, hle⟩ := h
  have hpa := pa.isLt
  have hoff : (pa - kUniNBase).toNat = pa.toNat - 0xF8000000 := by
    rw [BitVec.toNat_sub_of_le (by rwa [BitVec.le_def])]
    rfl
  have hbase : kUniNBase.toNat = 0xF8000000 := rfl
  have htop : (kUniNBase + BitVec.ofNat 32 kUniNSize).toNat = 0xF8003000 := rfl
  have hi2c₀ : kI2cBase.toNat = 0xF8001000 := rfl
  have hi2c₁ : (kI2cBase + 0x100#32).toNat = 0xF8001100 := rfl
  rw [BitVec.toNat_add, BitVec.toNat_ofNat] at hle hi2c
  rw [hoff, kUniNSize]
  omega

theorem ram_inside_iff (h : b.inRam pa len = true) :
    pa.toNat + len ≤ b.ramSize ↔ pa.toNat + len < 2 ^ 32 ∨ pa.toNat + len ≤ b.ramSize := by
  rw [inRam, Bool.and_eq_true, decide_eq_true_iff, decide_eq_true_iff, BitVec.toNat_add,
    BitVec.toNat_ofNat] at h
  have hpa := pa.isLt
  omega

/-- **Every window but three is bounded by its own test**, and the three by
`Fits`. -/
theorem Opens.inside_iff (h : b.Opens pa len w i) (hlen : len ≤ 4) :
    i + len ≤ b.size w.region ↔ b.Fits pa len w := by
  cases h with
  | ramFast h =>
      rw [SawtoothBus.ramFast, Bool.and_eq_true, decide_eq_true_iff, decide_eq_true_iff] at h
      exact iff_of_true h.2 trivial
  | kl off hoff hpic => exact iff_of_true (kl_inside hoff hpic hlen) trivial
  | fb h => rw [vramOff_toNat]; exact Iff.rfl
  | sizeWin h => rw [sizeWinOff_toNat]; exact Iff.rfl
  | ram h => exact ram_inside_iff h
  | rom h => exact iff_of_true (rom_inside h hlen) trivial
  | unin hi2c h => exact iff_of_true (unin_inside hi2c h hlen) trivial

/-- The flash's own loops test every index. -/
theorem flashIndices_inside {off : U32} : ∀ x ∈ b.flashIndices off v len, x.2 < b.size x.1 := by
  intro x hx
  unfold flashIndices at hx
  split_ifs at hx
  · obtain ⟨k, hk, rfl⟩ := List.mem_map.mp hx
    have hlt := List.mem_takeWhile_imp hk
    exact of_decide_eq_true hlt
  · obtain ⟨k, hk, rfl⟩ := List.mem_map.mp hx
    have hlt := List.mem_takeWhile_imp hk
    exact of_decide_eq_true hlt
  · exact absurd hx (List.not_mem_nil)

variable (b pa v len)

/-- What a place needs: its window's `Fits`. -/
def PlaceFits : Place → Prop
  | .store w _ => b.Fits pa len w
  | _ => True

variable {b pa v len}

theorem readIndices_inside_iff (h₀ : 0 < len) (hlen : len ≤ 4) :
    (∀ x ∈ b.readIndices pa len, x.2 < b.size x.1) ↔ b.PlaceFits pa len (b.readPlace pa len) := by
  unfold readIndices
  rcases hp : b.readPlace pa len with ⟨w, i⟩ | _
  case store =>
    rw [span_inside_iff _ h₀]
    exact (opens_readPlace hp).inside_iff hlen
  all_goals simp [PlaceFits]

theorem writeIndices_inside_iff (h₀ : 0 < len) (hlen : len ≤ 4) :
    (∀ x ∈ b.writeIndices pa v len, x.2 < b.size x.1)
      ↔ b.PlaceFits pa len (b.writePlace pa len) := by
  unfold writeIndices
  rcases hp : b.writePlace pa len with ⟨w, i⟩ | _
  case store =>
    rw [span_inside_iff _ h₀]
    exact (opens_writePlace hp).inside_iff hlen
  case flash off => exact iff_of_true flashIndices_inside trivial
  all_goals simp [PlaceFits]

theorem bytes_pos (w : Width) : 0 < w.bytes := by cases w <;> decide

theorem bytes_le (w : Width) : w.bytes ≤ 4 := by cases w <;> decide

/-- **Index safety.** An access and the SPD stay within the allocation exactly
when there are 64 MB of it and the windows that answer have room. -/
theorem access_inside_iff (b : SawtoothBus) (pa v : U32) (w : Width) :
    ((∀ x ∈ b.readIndices pa w.bytes, x.2 < b.size x.1)
        ∧ (∀ x ∈ b.writeIndices pa v w.bytes, x.2 < b.size x.1)
        ∧ b.advertised ≤ b.ramSize)
      ↔ b.PlaceFits pa w.bytes (b.readPlace pa w.bytes)
        ∧ b.PlaceFits pa w.bytes (b.writePlace pa w.bytes)
        ∧ 2 ^ 26 ≤ b.ramSize := by
  rw [readIndices_inside_iff (bytes_pos w) (bytes_le w),
    writeIndices_inside_iff (bytes_pos w) (bytes_le w), advertised_le_iff]

/-- A word read by a bus master at the last two bytes of the module, through the
sizing window of a 64 MB machine at power-on. -/
theorem access_outside : ¬ ∀ b : SawtoothBus, Reachable b → ∀ (pa v : U32) (w : Width),
    (∀ x ∈ b.readIndices pa w.bytes, x.2 < b.size x.1)
      ∧ (∀ x ∈ b.writeIndices pa v w.bytes, x.2 < b.size x.1)
      ∧ b.advertised ≤ b.ramSize := by
  intro h
  have hsafe := (h _ (.powerOn (2 ^ 26) (2 ^ 20)) 0x7BFFFFFE#32 0#32 .word).1
  exact absurd hsafe (by decide +kernel)

/-! ## Accesses that stay in a page -/

/-- The frame buffer's base only moves to a multiple of its 64 MB. -/
theorem latchBars_atiFbBar (f : Fin 3) (sel reg word : U32) :
    (b.latchBars f sel reg word).1.atiFbBar = b.atiFbBar
      ∨ (b.latchBars f sel reg word).1.atiFbBar = word &&& 0xFC000000#32 := by
  unfold latchBars
  dsimp only
  split_ifs <;> first | exact .inl rfl | exact .inr rfl

theorem write_atiFbBar (b : SawtoothBus) (pa v : U32) (len : ℕ) :
    (b.write pa v len).atiFbBar = b.atiFbBar
      ∨ ∃ word, (b.write pa v len).atiFbBar = word &&& 0xFC000000#32 := by
  unfold write
  split
  · unfold cfgWrite
    split_ifs
    · exact .inl rfl
    · exact .inl rfl
    · rcases latchBars_atiFbBar _ _ _ _ with h | h
      · exact .inl h
      · exact .inr ⟨_, h⟩
  · unfold flashWrite
    dsimp only
    split_ifs <;> exact .inl rfl
  · exact .inl rfl

theorem Reachable.atiFbBar_aligned (h : Reachable b) : b.atiFbBar.toNat % 2 ^ 26 = 0 := by
  induction h with
  | powerOn => rfl
  | write pa v len _ ih =>
      rcases write_atiFbBar _ pa v len with heq | ⟨word, heq⟩
      · rw [heq]
        exact ih
      · rw [heq, ← and_ones _ (k := 26) (by norm_num), BitVec.and_assoc]
        exact congrArg BitVec.toNat (BitVec.and_zero)
  | host _ _ _ _ _ _ ih => exact ih

/-- What ends in a page ends in any larger power of two. -/
theorem page_room {x k : ℕ} (hk : 12 ≤ k) (h : x % 2 ^ 12 + len ≤ 2 ^ 12) :
    x % 2 ^ k + len ≤ 2 ^ k := by
  obtain ⟨j, rfl⟩ := Nat.exists_eq_add_of_le hk
  have hq : x / 2 ^ 12 % 2 ^ j < 2 ^ j := Nat.mod_lt _ (Nat.two_pow_pos j)
  have hpow : 2 ^ (12 + j) = 2 ^ 12 * 2 ^ j := Nat.pow_add 2 12 j
  rw [hpow, Nat.mod_mul]
  calc x % 2 ^ 12 + 2 ^ 12 * (x / 2 ^ 12 % 2 ^ j) + len
      ≤ 2 ^ 12 * (x / 2 ^ 12 % 2 ^ j + 1) := by omega
    _ ≤ 2 ^ 12 * 2 ^ j := Nat.mul_le_mul_left _ hq

/-- A page-aligned base does not move an address in its page. -/
theorem sub_page {x : U32} (hx : x.toNat % 2 ^ 12 = 0) (h : pa.toNat % 2 ^ 12 + len ≤ 2 ^ 12) :
    (pa - x).toNat % 2 ^ 12 + len ≤ 2 ^ 12 := by
  rw [BitVec.toNat_sub]
  omega

theorem moduleBytes_le (h : 2 ^ 26 ≤ b.ramSize) : b.moduleBytes ≤ b.ramSize := by
  have hadv : b.advertised ≤ b.ramSize := b.advertised_le_iff.mpr h
  have hcount : 1 ≤ b.dimms.count := by
    rcases b.dimms_cases with ⟨-, h, -⟩ | ⟨h, -⟩ <;> omega
  exact (Nat.le_mul_of_pos_left _ hcount).trans hadv

/-- An access that stays in its page has room in every window that opens. -/
theorem Opens.fits_of_page (hb : Reachable b) (hram : 2 ^ 26 ≤ b.ramSize)
    (hpages : b.ramSize % 2 ^ 12 = 0) (hpage : pa.toNat % 2 ^ 12 + len ≤ 2 ^ 12)
    (h : b.Opens pa len w i) : b.Fits pa len w := by
  cases h with
  | ramFast h => trivial
  | kl off hoff hpic => trivial
  | rom h => trivial
  | unin hi2c h => trivial
  | fb h =>
      have hbar := hb.atiFbBar_aligned
      exact page_room (by norm_num) (sub_page (by omega) hpage)
  | sizeWin h =>
      obtain ⟨k, hk, -, heq⟩ := b.moduleBytes_eq
      have hle := moduleBytes_le hram
      have hroom := page_room (k := k) (by omega) (sub_page (x := kSizeWin) rfl hpage)
      rw [heq] at hle
      rw [Fits, heq]
      exact hroom.trans hle
  | ram h =>
      rw [inRam, Bool.and_eq_true, decide_eq_true_iff, decide_eq_true_iff] at h
      have hpa := pa.isLt
      rw [Fits]
      omega

theorem PlaceFits_of_opens {p : Place} (h : ∀ w i, p = .store w i → b.Fits pa len w) :
    b.PlaceFits pa len p := by
  cases p with
  | store w i => exact h w i rfl
  | _ => trivial

/-- **The processor's accesses never leave the arrays.** On a machine whose RAM is
whole pages, 64 MB or more, an access that stays in its page is inside, whatever
the guest has done to the base registers. -/
theorem access_in_page_inside (hb : Reachable b) (hram : 2 ^ 26 ≤ b.ramSize)
    (hpages : b.ramSize % 2 ^ 12 = 0) (pa v : U32) (w : Width)
    (hpage : pa.toNat % 2 ^ 12 + w.bytes ≤ 2 ^ 12) :
    (∀ x ∈ b.readIndices pa w.bytes, x.2 < b.size x.1)
      ∧ (∀ x ∈ b.writeIndices pa v w.bytes, x.2 < b.size x.1) := by
  rw [readIndices_inside_iff (bytes_pos w) (bytes_le w),
    writeIndices_inside_iff (bytes_pos w) (bytes_le w)]
  constructor
  · exact PlaceFits_of_opens fun w i h => (opens_readPlace h).fits_of_page hb hram hpages hpage
  · exact PlaceFits_of_opens fun w i h => (opens_writePlace h).fits_of_page hb hram hpages hpage

end SawtoothBus

end OpenPowerMac
