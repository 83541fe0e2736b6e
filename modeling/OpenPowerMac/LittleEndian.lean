/-
Little-endian mode.

With MSR[LE] set the low bits of an address are turned by the width of the access
over storage that stays big-endian, so a byte of the little-endian memory is the
byte at the turned address (`leSeen`). Bytes, halfwords and words then load and
store that memory. A doubleword is made of two word accesses, each of which does;
but the word of the lower address is taken for the upper half, so the two halves
are exchanged: `readV_le`, `writeV_le`, and what follows for runs of accesses in
`littleEndian_iff`. The claim holds of a doubleword exactly when its halves are
equal.
-/
import OpenPowerMac.Identity
import OpenPowerMac.WriteThrough

set_option autoImplicit false

namespace OpenPowerMac

open ByteOrder

/-! ## The two orders -/

theorem ofBytesBE_reverse (bs : List U8) : ofBytesBE bs.reverse = ofBytesLE bs := by
  induction bs with
  | nil => rfl
  | cons b bs ih => rw [List.reverse_cons, ofBytesBE_concat, ih, ofBytesLE]

/-- A big-endian load at the turned address is a little-endian load of the memory turned. -/
theorem loadBytes_turned (m : U32 → U8) {k : ℕ} (hk : k ≤ 3) {a : U32} (ha : Multiple k a) :
    loadBytes m (a ^^^ BitVec.ofNat 32 (8 - 2 ^ k)) (2 ^ k) = loadLE (turned m) a (2 ^ k) := by
  have hrange : (List.range (2 ^ k)).reverse = (List.range (2 ^ k)).map (2 ^ k - 1 - ·) := by
    have hback := List.reverse_range' (s := 0) (n := 2 ^ k)
    rw [← List.range_eq_range', Nat.zero_add] at hback
    exact hback
  have hbytes : (List.range (2 ^ k)).map
        (fun i => m ((a ^^^ BitVec.ofNat 32 (8 - 2 ^ k)) + BitVec.ofNat 32 i))
      = ((List.range (2 ^ k)).map fun i => turned m (a + BitVec.ofNat 32 i)).reverse := by
    rw [← List.map_reverse, hrange, List.map_map]
    apply List.map_congr_left
    intro i hi
    rw [ha.turn_add hk (List.mem_range.mp hi)]
    rfl
  rw [loadBytes, hbytes, ofBytesBE_reverse, loadLE]

/-- So is a store. -/
theorem storeBytes_turned (m : U32 → U8) {k : ℕ} (hk : k ≤ 3) {a : U32} (ha : Multiple k a)
    (v : U64) : turned (storeBytes m (a ^^^ BitVec.ofNat 32 (8 - 2 ^ k)) (2 ^ k) v)
      = storeLE (turned m) a (2 ^ k) v := by
  have h8 : 2 ^ k ≤ 8 := calc
    2 ^ k ≤ 2 ^ 3 := Nat.pow_le_pow_right (by decide) hk
    _ = 8 := rfl
  have hturn : ∀ i < 2 ^ k, (a + BitVec.ofNat 32 i) ^^^ 7#32
      = (a ^^^ BitVec.ofNat 32 (8 - 2 ^ k)) + BitVec.ofNat 32 (2 ^ k - 1 - i) := by
    intro i hi
    rw [ha.turn_add hk (show 2 ^ k - 1 - i < 2 ^ k by omega),
      show 2 ^ k - 1 - (2 ^ k - 1 - i) = i by omega]
  apply eq_storeLE (by omega)
  · intro i hi
    rw [turned, hturn i hi, Cpu.storeBytes_at _ _ (by omega) _ (by omega), byteBE, byteLE]
    congr 2
    omega
  · intro b hb
    rw [turned, turned]
    apply Cpu.storeBytes_off
    intro i hi heq
    apply hb (2 ^ k - 1 - i) (by omega)
    rw [ha.turn_add hk hi] at heq
    have hback := congrArg (fun x => x ^^^ 7#32) heq
    simpa [BitVec.xor_assoc] using hback

/-- The halves of a doubleword exchanged. -/
def swapWords (v : U64) : U64 := (v <<< 32) ||| (v >>> 32)

/-- What an access of `n` bytes exchanges. -/
def leValue (n : ℕ) (v : U64) : U64 := if n = 8 then swapWords v else v

theorem getLsbD_swapWords (v : U64) {j : ℕ} (hj : j < 64) :
    (swapWords v).getLsbD j = if j < 32 then v.getLsbD (j + 32) else v.getLsbD (j - 32) := by
  rw [swapWords, BitVec.getLsbD_or, BitVec.getLsbD_shiftLeft, BitVec.getLsbD_ushiftRight,
    Nat.add_comm]
  by_cases hlow : j < 32
  · simp [hlow]
  · simp [hlow, hj, BitVec.getLsbD_of_ge v (j + 32) (by omega)]

/-- The upper half of a value is the lower of the exchanged one. -/
theorem byteLE_upper (v : U64) {i : ℕ} (hi : i < 4) :
    byteLE i (((v >>> 32).setWidth 32).setWidth 64) = byteLE i (swapWords v) := by
  unfold byteLE
  apply BitVec.eq_of_getLsbD_eq
  intro j hj
  have hlow : 8 * i + j < 32 := by omega
  simp only [BitVec.getLsbD_setWidth, BitVec.getLsbD_ushiftRight,
    getLsbD_swapWords v (show 8 * i + j < 64 by omega), hj, hlow, if_true, decide_true,
    Bool.true_and, Nat.add_comm 32]
  rw [decide_eq_true (show 8 * i + j < 64 by omega), Bool.true_and]

/-- The lower half is the upper. -/
theorem byteLE_lower (v : U64) {i : ℕ} (hi : i < 4) :
    byteLE i ((v.setWidth 32).setWidth 64) = byteLE (4 + i) (swapWords v) := by
  unfold byteLE
  apply BitVec.eq_of_getLsbD_eq
  intro j hj
  have hlow : 8 * i + j < 32 := by omega
  have hback : 8 * (4 + i) + j - 32 = 8 * i + j := by omega
  simp only [BitVec.getLsbD_setWidth, BitVec.getLsbD_ushiftRight,
    getLsbD_swapWords v (show 8 * (4 + i) + j < 64 by omega),
    if_neg (show ¬ 8 * (4 + i) + j < 32 by omega), hj, hlow, hback, decide_true, Bool.true_and]
  rw [decide_eq_true (show 8 * i + j < 64 by omega), Bool.true_and]

/-- A word survives in the upper half. -/
theorem shiftRight_shiftLeft {y : U64} (hy : y >>> 32 = 0#64) : (y <<< 32) >>> 32 = y := by
  apply BitVec.eq_of_getLsbD_eq
  intro j hj
  have hhigh := congrArg (fun v => v.getLsbD (j - 32)) hy
  simp only [BitVec.getLsbD_ushiftRight, BitVec.getLsbD_zero] at hhigh
  rw [BitVec.getLsbD_ushiftRight, BitVec.getLsbD_shiftLeft]
  by_cases hlow : j < 32
  · simp [show 32 + j < 64 by omega, show ¬ 32 + j < 32 by omega]
  · rw [Nat.add_sub_cancel' (by omega)] at hhigh
    simp [hhigh, show ¬ 32 + j < 64 by omega]

/-- Two words of a doubleword exchanged. -/
theorem swapWords_words {x y : U64} (hx : x >>> 32 = 0#64) (hy : y >>> 32 = 0#64) :
    swapWords ((y <<< 32) ||| x) = (x <<< 32) ||| y := by
  rw [swapWords, BitVec.shiftLeft_or_distrib, BitVec.ushiftRight_or_distrib,
    shiftRight_shiftLeft hy, hx,
    ← BitVec.shiftLeft_add, BitVec.shiftLeft_eq_zero (by decide), BitVec.zero_or, BitVec.or_zero]

theorem swapWords_eq_iff (v : U64) :
    swapWords v = v ↔ (v >>> 32).setWidth 32 = v.setWidth 32 := by
  constructor
  · intro h
    apply BitVec.eq_of_getLsbD_eq
    intro j hj
    have hbit := getLsbD_swapWords v (show j < 64 by omega)
    rw [h, if_pos hj] at hbit
    rw [BitVec.getLsbD_setWidth, BitVec.getLsbD_setWidth, BitVec.getLsbD_ushiftRight, hbit,
      Nat.add_comm]
  · intro h
    apply BitVec.eq_of_getLsbD_eq
    intro j hj
    rw [getLsbD_swapWords v hj]
    have hword : ∀ i < 32, v.getLsbD (i + 32) = v.getLsbD i := by
      intro i hi
      have hbit := congrArg (fun x => x.getLsbD i) h
      simpa [hi, Nat.add_comm] using hbit
    by_cases hlow : j < 32
    · rw [if_pos hlow, hword j hlow]
    · rw [if_neg hlow, ← hword (j - 32) (by omega), Nat.sub_add_cancel (by omega)]

namespace Cpu

variable {c : Cpu PlainBus} {D : Set U32}

/-- Storage as little-endian mode addresses it. -/
noncomputable def leSeen (c : Cpu PlainBus) : U32 → U8 := turned c.seen

theorem leMunge_eq {k : ℕ} (hk : k < 3) (ea : U32) :
    leMunge ea (2 ^ k) = ea ^^^ BitVec.ofNat 32 (8 - 2 ^ k) := by
  have hcases : k = 0 ∨ k = 1 ∨ k = 2 := by omega
  rcases hcases with rfl | rfl | rfl <;> rfl

theorem leAlignCheck_of_aligned {ea : U32} {n : ℕ} (h : ea &&& (BitVec.ofNat 32 n - 1#32) = 0#32) :
    c.leAlignCheck ea n = (true, c) := by
  rw [leAlignCheck, if_pos (Or.inr h)]

variable {k : ℕ} {ea : U32}

theorem aligned_pow (hk : k ≤ 3) (hea : Multiple k ea) :
    ea &&& (BitVec.ofNat 32 (2 ^ k) - 1#32) = 0#32 := by
  have hmask : ∀ k ≤ 3, BitVec.ofNat 32 (2 ^ k) - 1#32 = BitVec.ofNat 32 (2 ^ k - 1) := by decide
  rw [hmask k hk]
  exact hea

theorem word_turn {a : U32} (h : Multiple 2 a) : Multiple 2 (a ^^^ 4#32) :=
  h.turn (k := 2) (by decide)

/-- The two word addresses of a doubleword. -/
theorem word_addrs (hea : Multiple 3 ea) :
    Multiple 2 ea ∧ Multiple 2 (ea + 4#32) ∧ dwOf (ea ^^^ 4#32) = dwOf ea
      ∧ dwOf ((ea + 4#32) ^^^ 4#32) = dwOf ea := by
  have hword : Multiple 2 ea := hea.mono (by decide)
  have hnext : ea + 4#32 = ea ^^^ 4#32 := hea.add (i := 4) (by decide)
  refine ⟨hword, ?_, dwOf_xor ea (x := 4) (by decide), ?_⟩
  · rw [hnext]
    exact word_turn hword
  · rw [hnext, BitVec.xor_assoc, BitVec.xor_self, BitVec.xor_zero]

/-! ## One access -/

theorem two_pow_ne_eight (hk : k < 3) : 2 ^ k ≠ 8 := by
  have hpow : ∀ k < 3, 2 ^ k ≠ 8 := by decide
  exact hpow k hk

theorem dwOf_turn (k : ℕ) (ea : U32) : dwOf (ea ^^^ BitVec.ofNat 32 (8 - 2 ^ k)) = dwOf ea := by
  have hpow := Nat.two_pow_pos k
  exact dwOf_xor ea (by omega)

/-- The words of a doubleword are loaded from both its halves, the lower address's as the upper
half. -/
theorem readV_dw (h : Identity c D) (hle : c.st.msr &&& msr.LE ≠ 0#32) (hea : Multiple 3 ea)
    (hD : dwOf ea ∈ D) :
    ∃ c', c.readV ea 8 = (some (swapWords (loadLE c.leSeen ea 8)), c') ∧ Leaves D c c' c.seen := by
  have halign : ea &&& (BitVec.ofNat 32 8 - 1#32) = 0#32 := aligned_pow (k := 3) (by decide) hea
  obtain ⟨hlow, hnext, hdw, hdw'⟩ := word_addrs hea
  obtain ⟨c₁, hread, hleaves⟩ : ∃ c', c.readPiece (ea ^^^ 4#32) 4
      = (some (loadBytes c.seen (ea ^^^ 4#32) 4), c') ∧ Leaves D c c' c.seen :=
    h.readPiece (k := 2) (by decide) (by rw [hdw]; exact hD)
  obtain ⟨c₂, hread', hleaves'⟩ : ∃ c', c₁.readPiece ((ea + 4#32) ^^^ 4#32) 4
      = (some (loadBytes c₁.seen ((ea + 4#32) ^^^ 4#32) 4), c') ∧ Leaves D c₁ c' c₁.seen :=
    hleaves.identity.readPiece (k := 2) (by decide) (by rw [hdw']; exact hD)
  have hhi : loadBytes c.seen (ea ^^^ 4#32) 4 = loadLE c.leSeen ea 4 :=
    loadBytes_turned c.seen (k := 2) (by decide) hlow
  have hlo : loadBytes c.seen ((ea + 4#32) ^^^ 4#32) 4 = loadLE c.leSeen (ea + 4#32) 4 :=
    loadBytes_turned c.seen (k := 2) (by decide) hnext
  rw [hleaves.seen, hlo] at hread'
  rw [hleaves.seen] at hleaves'
  rw [hhi] at hread
  have hvalue : swapWords (loadLE c.leSeen ea 8)
      = (loadLE c.leSeen ea 4 <<< 32) ||| loadLE c.leSeen (ea + 4#32) 4 := by
    rw [show 8 = 4 + 4 from rfl, loadLE_add]
    exact swapWords_words (loadLE_shift c.leSeen ea 4) (loadLE_shift c.leSeen (ea + 4#32) 4)
  refine ⟨c₂, ?_, hleaves.trans hleaves'⟩
  unfold readV
  rw [leAlignCheck_of_aligned halign]
  simp only [Bool.not_true, Bool.false_eq_true, if_false, h.unwatched ea hD false, if_pos hle,
    if_true, hread, hread', hvalue]

/-- **A load** of the little-endian memory, but for a doubleword's halves. -/
theorem readV_le (h : Identity c D) (hle : c.st.msr &&& msr.LE ≠ 0#32) (hk : k ≤ 3)
    (hea : Multiple k ea) (hD : dwOf ea ∈ D) :
    ∃ c', c.readV ea (2 ^ k) = (some (leValue (2 ^ k) (loadLE c.leSeen ea (2 ^ k))), c')
      ∧ Leaves D c c' c.seen := by
  rcases Nat.lt_or_eq_of_le hk with hlt | rfl
  · obtain ⟨c', hread, hleaves⟩ := h.readVAt hk (hea.turn hk) (by rw [dwOf_turn k]; exact hD)
    refine ⟨c', ?_, hleaves⟩
    unfold readV
    rw [leAlignCheck_of_aligned (aligned_pow hk hea)]
    simp only [Bool.not_true, Bool.false_eq_true, if_false, h.unwatched ea hD false, if_pos hle,
      if_neg (two_pow_ne_eight hlt), leValue]
    rw [leMunge_eq hlt, hread, loadBytes_turned c.seen hk hea]
    rfl
  · exact readV_dw h hle hea hD

/-- The words of a doubleword are stored to both its halves, the upper half at the lower
address. -/
theorem writeV_dw (h : Identity c D) (hle : c.st.msr &&& msr.LE ≠ 0#32) (hea : Multiple 3 ea)
    (hD : dwOf ea ∈ D) (hspared : Paged c D → SparesTable c.st (dwOf ea)) (v : U64) :
    ∃ c' m, c.writeV ea 8 v = (true, c') ∧ Leaves D c c' m
      ∧ turned m = storeLE c.leSeen ea 8 (swapWords v) := by
  have halign : ea &&& (BitVec.ofNat 32 8 - 1#32) = 0#32 := aligned_pow (k := 3) (by decide) hea
  obtain ⟨hlow, hnext, hdw, hdw'⟩ := word_addrs hea
  obtain ⟨hi, hhi⟩ : ∃ hi : U64, ((v >>> 32).setWidth 32).setWidth 64 = hi := ⟨_, rfl⟩
  obtain ⟨lo, hlo⟩ : ∃ lo : U64, (v.setWidth 32).setWidth 64 = lo := ⟨_, rfl⟩
  obtain ⟨c₁, hwrite, hleaves⟩ : ∃ c', c.writePiece (ea ^^^ 4#32) 4 hi = (true, c')
      ∧ Leaves D c c' (storeBytes c.seen (ea ^^^ 4#32) 4 hi) :=
    h.writePiece (k := 2) (by decide) (word_turn hlow) (by rw [hdw]; exact hD)
      (by rw [hdw]; exact hspared) hi
  obtain ⟨c₂, hwrite', hleaves'⟩ : ∃ c', c₁.writePiece ((ea + 4#32) ^^^ 4#32) 4 lo = (true, c')
      ∧ Leaves D c₁ c' (storeBytes c₁.seen ((ea + 4#32) ^^^ 4#32) 4 lo) :=
    hleaves.identity.writePiece (k := 2) (by decide) (word_turn hnext)
      (by rw [hdw']; exact hD) (by rw [hdw', hleaves.paged, hleaves.st]; exact hspared) lo
  rw [hleaves.seen] at hleaves'
  refine ⟨c₂, _, ?_, hleaves.trans hleaves', ?_⟩
  · unfold writeV
    rw [leAlignCheck_of_aligned halign]
    simp only [Bool.not_true, Bool.false_eq_true, if_false, h.unwatched ea hD true, if_pos hle,
      if_true, hhi, hlo, hwrite, hwrite']
  · have hfirst : turned (storeBytes c.seen (ea ^^^ 4#32) 4 hi) = storeLE c.leSeen ea 4 hi :=
      storeBytes_turned c.seen (k := 2) (by decide) hlow hi
    have hsecond := storeBytes_turned (storeBytes c.seen (ea ^^^ 4#32) 4 hi) (k := 2) (by decide)
      hnext lo
    rw [hfirst] at hsecond
    refine hsecond.trans (storeLE_storeLE c.leSeen ea (n := 4) (k := 4) (by decide) ?_ ?_)
    · rw [← hhi]
      exact fun i hi' => byteLE_upper v hi'
    · rw [← hlo]
      exact fun i hi' => byteLE_lower v hi'

/-- **A store** to the little-endian memory, but for a doubleword's halves. -/
theorem writeV_le (h : Identity c D) (hle : c.st.msr &&& msr.LE ≠ 0#32) (hk : k ≤ 3)
    (hea : Multiple k ea) (hD : dwOf ea ∈ D) (hspared : Paged c D → SparesTable c.st (dwOf ea))
    (v : U64) :
    ∃ c' m, c.writeV ea (2 ^ k) v = (true, c') ∧ Leaves D c c' m
      ∧ turned m = storeLE c.leSeen ea (2 ^ k) (leValue (2 ^ k) v) := by
  rcases Nat.lt_or_eq_of_le hk with hlt | rfl
  · obtain ⟨c', hwrite, hleaves⟩ := h.writeVAt hk (hea.turn hk) (by rw [dwOf_turn k]; exact hD)
      (by rw [dwOf_turn k]; exact hspared) v
    refine ⟨c', _, ?_, hleaves, ?_⟩
    · unfold writeV
      rw [leAlignCheck_of_aligned (aligned_pow hk hea)]
      simp only [Bool.not_true, Bool.false_eq_true, if_false, h.unwatched ea hD true, if_pos hle,
        if_neg (two_pow_ne_eight hlt)]
      rw [leMunge_eq hlt, hwrite]
    · rw [storeBytes_turned c.seen hk hea, leValue, if_neg (two_pow_ne_eight hlt)]
      rfl
  · exact writeV_dw h hle hea hD hspared v

/-! ## Misaligned accesses -/

/-- The alignment exception of a misaligned access. -/
def alignTrap (c : Cpu PlainBus) (ea : U32) : Cpu PlainBus :=
  { c with st := { c.st with dar := ea, dsisr := alignDsisr c.curInsn } }.raiseExc Exc.Alignment
    (c.st.pc - 4#32) 0#32

/-- An access raises the alignment exception and nothing else: storage, the caches, the TLBs and
the one-page caches are as they were. -/
structure Traps (c : Cpu PlainBus) (ea : U32) (n : ℕ) : Prop where
  read : c.readV ea n = (none, c.alignTrap ea)
  write : ∀ v, c.writeV ea n v = (false, c.alignTrap ea)
  raised : (c.alignTrap ea).raisedThisStep = true ∧ (c.alignTrap ea).st.pc &&& 0xFFFFF#32 = 0x600#32
  memory : SameMem c (c.alignTrap ea)
  front : (c.alignTrap ea).tlbDir = c.tlbDir ∧ (c.alignTrap ea).front = c.front
  gpr : (c.alignTrap ea).st.gpr = c.st.gpr

theorem misaligned_traps (hle : c.st.msr &&& msr.LE ≠ 0#32) {n : ℕ}
    (hmis : ea &&& (BitVec.ofNat 32 n - 1#32) ≠ 0#32) : Traps c ea n := by
  have hcheck : c.leAlignCheck ea n = (false, c.alignTrap ea) := by
    rw [leAlignCheck, if_neg (by rintro (h | h); exacts [hle h, hmis h])]
    rfl
  refine ⟨?_, fun v => ?_, ⟨rfl, ?_⟩, ?_, ⟨rfl, rfl⟩, rfl⟩
  · unfold readV
    rw [hcheck]
    rfl
  · unfold writeV
    rw [hcheck]
    rfl
  · have hvector : ∀ m : U32, ((if m &&& msr.IP ≠ 0#32 then 0xFFF00000#32 else 0#32)
        ||| Exc.Alignment.vector) &&& 0xFFFFF#32 = 0x600#32 := by
      intro m
      split <;> decide
    exact hvector _
  · exact ⟨rfl, rfl, rfl, rfl, rfl, rfl, rfl, rfl, rfl⟩

end Cpu

/-! ## Runs -/

/-- An access of a little-endian program. -/
inductive LeAccess where
  | load (ea : U32) (n : ℕ)
  | store (ea : U32) (n : ℕ) (v : U64)

namespace LeAccess

def exec (c : Cpu PlainBus) : LeAccess → Cpu PlainBus
  | load ea n => (c.readV ea n).2
  | store ea n v => (c.writeV ea n v).2

/-- What it does to the little-endian memory. -/
def act (m : U32 → U8) : LeAccess → U32 → U8
  | load _ _ => m
  | store ea n v => ByteOrder.storeLE m ea n (leValue n v)

end LeAccess

/-- The state after a run of them. -/
def runLe (c : Cpu PlainBus) (ops : List LeAccess) : Cpu PlainBus := ops.foldl LeAccess.exec c

namespace Cpu

variable {c : Cpu PlainBus} {D : Set U32}

/-- An aligned access of an access length to one of the doublewords. -/
structure Fits (D : Set U32) (ea : U32) (n : ℕ) : Prop where
  len : AccessLen n
  aligned : ea &&& (BitVec.ofNat 32 n - 1#32) = 0#32
  inside : dwOf ea ∈ D

/-- A store is not to the page table, if the doublewords are mapped by pages. -/
def Spares (c : Cpu PlainBus) (D : Set U32) (ea : U32) : Prop :=
  Paged c D → SparesTable c.st (dwOf ea)

/-- The accesses of a run. -/
def Allows (c : Cpu PlainBus) (D : Set U32) : LeAccess → Prop
  | .load ea n => Fits D ea n
  | .store ea n _ => Fits D ea n ∧ Spares c D ea

theorem Leaves.spares {c' : Cpu PlainBus} {m : U32 → U8} (h : Leaves D c c' m) :
    Spares c' D = Spares c D := by
  funext ea
  rw [Spares, Spares, h.paged, h.st]

theorem Leaves.allows {c' : Cpu PlainBus} {m : U32 → U8} (h : Leaves D c c' m) :
    Allows c' D = Allows c D := by
  funext op
  cases op with
  | load ea n => rfl
  | store ea n v => rw [Allows, Allows, h.spares]

theorem Fits.read {ea : U32} {n : ℕ} (hfits : Fits D ea n) (h : Identity c D)
    (hle : c.st.msr &&& msr.LE ≠ 0#32) :
    (c.readV ea n).1 = some (leValue n (loadLE c.leSeen ea n))
      ∧ Leaves D c (c.readV ea n).2 c.seen := by
  obtain ⟨k, hk, rfl, halign⟩ := hfits.len.log
  obtain ⟨c', hread, hleaves⟩ := readV_le h hle hk ((halign ea).mp hfits.aligned) hfits.inside
  rw [hread]
  exact ⟨rfl, hleaves⟩

theorem Fits.write {ea : U32} {n : ℕ} (hfits : Fits D ea n) (h : Identity c D)
    (hle : c.st.msr &&& msr.LE ≠ 0#32) (hspared : Spares c D ea) (v : U64) :
    (c.writeV ea n v).1 = true ∧ ∃ m, Leaves D c (c.writeV ea n v).2 m
      ∧ turned m = storeLE c.leSeen ea n (leValue n v) := by
  obtain ⟨k, hk, rfl, halign⟩ := hfits.len.log
  obtain ⟨c', m, hwrite, hleaves, hm⟩ := writeV_le h hle hk ((halign ea).mp hfits.aligned)
    hfits.inside hspared v
  rw [hwrite]
  exact ⟨rfl, m, hleaves, hm⟩

/-- **One access** acts on the little-endian memory. -/
theorem exec_act (h : Identity c D) (hle : c.st.msr &&& msr.LE ≠ 0#32) {op : LeAccess}
    (hop : Allows c D op) : ∃ m, Leaves D c (op.exec c) m ∧ turned m = op.act c.leSeen := by
  cases op with
  | load ea n => exact ⟨c.seen, (hop.read h hle).2, rfl⟩
  | store ea n v => exact (hop.1.write h hle hop.2 v).2

/-- **A run** of accesses is one of the little-endian memory, doublewords with their halves
exchanged. -/
theorem run_act (ops : List LeAccess) : ∀ c : Cpu PlainBus, Identity c D →
    c.st.msr &&& msr.LE ≠ 0#32 → (∀ op ∈ ops, Allows c D op) →
    ∃ m, Leaves D c (runLe c ops) m ∧ turned m = ops.foldl LeAccess.act c.leSeen := by
  induction ops with
  | nil => exact fun c h _ _ => ⟨c.seen, ⟨rfl, rfl, rfl, h⟩, rfl⟩
  | cons op ops ih =>
      intro c h hle hops
      obtain ⟨m, hleaves, hm⟩ := exec_act h hle (hops op List.mem_cons_self)
      have hview : (op.exec c).leSeen = op.act c.leSeen := by
        rw [leSeen, hleaves.seen, hm]
      obtain ⟨m', hrest, hm'⟩ := ih (op.exec c) hleaves.identity (by rw [hleaves.st]; exact hle)
        (by rw [hleaves.allows]; exact fun op' hop' => hops op' (List.mem_cons_of_mem _ hop'))
      rw [hview] at hm'
      exact ⟨m', hleaves.trans hrest, hm'⟩

/-! ## The little-endian memory -/

/-- After the store the bytes of the value are found least significant first, and every other byte
is the one it was. -/
structure StoresLE (c : Cpu PlainBus) (D : Set U32) (ea : U32) (n : ℕ) (v : U64) : Prop where
  done : (c.writeV ea n v).1 = true
  bytes : ∀ i < n, ((c.writeV ea n v).2.readV (ea + BitVec.ofNat 32 i) 1).1
    = some ((byteLE i v).setWidth 64)
  others : ∀ a, dwOf a ∈ D → (∀ i < n, a ≠ ea + BitVec.ofNat 32 i) →
    ((c.writeV ea n v).2.readV a 1).1 = (c.readV a 1).1

/-- The load answers the bytes, the first of them the least significant. -/
def LoadsLE (c : Cpu PlainBus) (ea : U32) (n : ℕ) : Prop :=
  ∃ b : ℕ → U8, (∀ i < n, (c.readV (ea + BitVec.ofNat 32 i) 1).1 = some ((b i).setWidth 64))
    ∧ (c.readV ea n).1 = some (ofBytesLE ((List.range n).map b))

theorem loadLE_one (m : U32 → U8) (a : U32) : loadLE m a 1 = (m a).setWidth 64 := by
  simp [loadLE, ofBytesLE]

theorem fits_byte {a : U32} (ha : dwOf a ∈ D) : Fits D a 1 := by
  refine ⟨Or.inl rfl, ?_, ha⟩
  simp

/-- A byte read on its own. -/
theorem Identity.byte (h : Identity c D) (hle : c.st.msr &&& msr.LE ≠ 0#32) {a : U32}
    (ha : dwOf a ∈ D) : (c.readV a 1).1 = some ((c.leSeen a).setWidth 64) := by
  rw [((fits_byte ha).read h hle).1, leValue, if_neg (by decide), loadLE_one]

theorem setWidth_byte_inj {x y : U8} (h : x.setWidth 64 = y.setWidth 64) : x = y := by
  have hback := congrArg (fun v : U64 => v.setWidth 8) h
  simpa using hback

theorem Fits.byte {ea : U32} {n : ℕ} (hfits : Fits D ea n) {i : ℕ} (hi : i < n) :
    dwOf (ea + BitVec.ofNat 32 i) ∈ D := by
  obtain ⟨k, hk, rfl, halign⟩ := hfits.len.log
  rw [dwOf_add hk ((halign ea).mp hfits.aligned) hi]
  exact hfits.inside

/-- The words of a doubleword. -/
theorem Fits.words {ea : U32} (hfits : Fits D ea 8) : Fits D ea 4 ∧ Fits D (ea + 4#32) 4 := by
  have hea : Multiple 3 ea := hfits.aligned
  obtain ⟨hlow, hnext, -, -⟩ := word_addrs hea
  exact ⟨⟨Or.inr (Or.inr (Or.inl rfl)), hlow, hfits.inside⟩,
    ⟨Or.inr (Or.inr (Or.inl rfl)), hnext, hfits.byte (i := 4) (by decide)⟩⟩

theorem AccessLen.le_eight {n : ℕ} (h : AccessLen n) : n ≤ 8 := by
  unfold AccessLen at h
  omega

/-- A store stores its value exactly when its value is the one it exchanges for it. -/
theorem storesLE_iff (h : Identity c D) (hle : c.st.msr &&& msr.LE ≠ 0#32) {ea : U32} {n : ℕ}
    (hfits : Fits D ea n) (hspared : Spares c D ea) (v : U64) :
    StoresLE c D ea n v ↔ (n = 8 → (v >>> 32).setWidth 32 = v.setWidth 32) := by
  obtain ⟨hdone, m, hleaves, hm⟩ := hfits.write h hle hspared v
  have h8 := hfits.len.le_eight
  have hview : (c.writeV ea n v).2.leSeen = storeLE c.leSeen ea n (leValue n v) := by
    rw [leSeen, hleaves.seen, hm]
  have hread : ∀ a, dwOf a ∈ D → ((c.writeV ea n v).2.readV a 1).1
      = some ((storeLE c.leSeen ea n (leValue n v) a).setWidth 64) := by
    intro a ha
    rw [hleaves.identity.byte (by rw [hleaves.st]; exact hle) ha, hview]
  have hat : ∀ i < n, storeLE c.leSeen ea n (leValue n v) (ea + BitVec.ofNat 32 i)
      = byteLE i (leValue n v) := fun i hi => storeLE_at _ _ (by omega) _ hi
  constructor
  · intro hs hn
    rw [← swapWords_eq_iff]
    apply eq_of_byteLE
    intro i hi
    have hbyte := hs.bytes i (by omega)
    rw [hread _ (hfits.byte (by omega)), hat i (by omega), leValue, if_pos hn,
      Option.some.injEq] at hbyte
    exact setWidth_byte_inj hbyte
  · intro hv
    have hvalue : leValue n v = v := by
      rw [leValue]
      split
      · exact (swapWords_eq_iff v).mpr (hv ‹n = 8›)
      · rfl
    refine ⟨hdone, fun i hi => ?_, fun a ha hne => ?_⟩
    · rw [hread _ (hfits.byte hi), hat i hi, hvalue]
    · rw [hread a ha, storeLE_off _ _ _ _ hne, h.byte hle ha]

/-- A doubleword's halves are equal exactly when exchanging them changes nothing. -/
theorem swapWords_load_iff (m : U32 → U8) (a : U32) :
    swapWords (loadLE m a 8) = loadLE m a 8 ↔ loadLE m a 4 = loadLE m (a + 4#32) 4 := by
  have hx := loadLE_shift m a 4
  have hy := loadLE_shift m (a + 4#32) 4
  have hsplit : loadLE m a 8 = (loadLE m (a + 4#32) 4 <<< 32) ||| loadLE m a 4 := loadLE_add m a 4 4
  rw [hsplit, swapWords_words hx hy]
  constructor
  · intro heq
    have hupper := congrArg (fun v : U64 => v >>> 32) heq
    simp only [BitVec.ushiftRight_or_distrib] at hupper
    rw [shiftRight_shiftLeft hx, shiftRight_shiftLeft hy] at hupper
    simpa [hx, hy] using hupper
  · intro heq
    rw [heq]

/-- A load composes its bytes exactly when its value is the one it exchanges for it. -/
theorem loadsLE_iff (h : Identity c D) (hle : c.st.msr &&& msr.LE ≠ 0#32) {ea : U32} {n : ℕ}
    (hfits : Fits D ea n) :
    LoadsLE c ea n ↔ (n = 8 → (c.readV ea 4).1 = (c.readV (ea + 4#32) 4).1) := by
  have h8 := hfits.len.le_eight
  have hwords : n = 8 → ((c.readV ea 4).1 = (c.readV (ea + 4#32) 4).1
      ↔ swapWords (loadLE c.leSeen ea n) = loadLE c.leSeen ea n) := by
    rintro rfl
    obtain ⟨hlow, hnext⟩ := hfits.words
    rw [(hlow.read h hle).1, (hnext.read h hle).1, swapWords_load_iff, leValue,
      if_neg (by decide), leValue, if_neg (by decide), Option.some.injEq]
  have hbytes : LoadsLE c ea n ↔ leValue n (loadLE c.leSeen ea n) = loadLE c.leSeen ea n := by
    constructor
    · rintro ⟨b, hb, hval⟩
      have hmap : (List.range n).map b
          = (List.range n).map fun i => c.leSeen (ea + BitVec.ofNat 32 i) := by
        apply List.map_congr_left
        intro i hi
        have hbyte := hb i (List.mem_range.mp hi)
        rw [h.byte hle (hfits.byte (List.mem_range.mp hi)), Option.some.injEq] at hbyte
        exact (setWidth_byte_inj hbyte).symm
      rw [(hfits.read h hle).1, hmap, Option.some.injEq] at hval
      exact hval
    · intro hvalue
      refine ⟨fun i => c.leSeen (ea + BitVec.ofNat 32 i), fun i hi => ?_, ?_⟩
      · exact h.byte hle (hfits.byte hi)
      · rw [(hfits.read h hle).1, hvalue]
        rfl
  rw [hbytes, leValue]
  split
  · rw [← hwords ‹n = 8›]
    exact ⟨fun heq _ => heq, fun himp => himp ‹n = 8›⟩
  · exact ⟨fun _ hn => absurd hn ‹n ≠ 8›, fun _ => rfl⟩

/-- **Little-endian mode.** After any run of aligned accesses to storage that is mapped to itself,
whatever the caches hold: a store is one of a little-endian memory, and a load composes its bytes,
except for a doubleword whose two words differ. A misaligned access traps and changes nothing. -/
theorem littleEndian_iff (h : Identity c D) (hle : c.st.msr &&& msr.LE ≠ 0#32)
    (ops : List LeAccess) (hops : ∀ op ∈ ops, Allows c D op) :
    (∀ ea n v, Fits D ea n → Spares c D ea →
      (StoresLE (runLe c ops) D ea n v ↔ (n = 8 → (v >>> 32).setWidth 32 = v.setWidth 32)))
    ∧ (∀ ea n, Fits D ea n →
      (LoadsLE (runLe c ops) ea n
        ↔ (n = 8 → ((runLe c ops).readV ea 4).1 = ((runLe c ops).readV (ea + 4#32) 4).1)))
    ∧ ∀ ea n, AccessLen n → ea &&& (BitVec.ofNat 32 n - 1#32) ≠ 0#32 →
      Traps (runLe c ops) ea n := by
  obtain ⟨m, hleaves, -⟩ := run_act ops c h hle hops
  have hle' : (runLe c ops).st.msr &&& msr.LE ≠ 0#32 := by
    rw [hleaves.st]
    exact hle
  refine ⟨fun ea n v hfits hspared => ?_, fun ea n hfits => ?_, fun ea n _ hmis => ?_⟩
  · rw [← hleaves.spares] at hspared
    exact storesLE_iff hleaves.identity hle' hfits hspared v
  · exact loadsLE_iff hleaves.identity hle' hfits
  · exact misaligned_traps hle' hmis

end Cpu

/-! ## Real mode -/

/-- A processor out of reset with the data cache on, in little-endian real mode. -/
def leZeroed : Cpu PlainBus :=
  { bus := { mem := fun _ => 0#8 }, st := { hid0 := 0x00004000#32, msr := msr.LE } }

theorem leZeroed_identity : Cpu.Identity leZeroed Set.univ := by
  refine Cpu.Identity.real (fun _ => ?_) (by decide) (fun a _ hbase => hbase.1 rfl) ?_ ?_
  · exact (Cpu.EmptyCaches.cacheOk ⟨fun _ _ => rfl, fun _ => rfl, rfl⟩).1
  · intro _ a _ write hgen
    have hnew : 0xFFFFFFFFFFFFFFFF#64 = 0#64 := hgen
    exact absurd hnew (by decide)
  · intro a _ write
    cases write <;> rfl

theorem leZeroed_le : leZeroed.st.msr &&& msr.LE ≠ 0#32 := by decide

theorem leZeroed_fits {ea : U32} {n : ℕ} (hn : Cpu.AccessLen n)
    (hea : ea &&& (BitVec.ofNat 32 n - 1#32) = 0#32) : Cpu.Fits Set.univ ea n :=
  ⟨hn, hea, Set.mem_univ _⟩

/-- No address is mapped by a page. -/
theorem leZeroed_spares (ea : U32) : Cpu.Spares leZeroed Set.univ ea := by
  rintro ⟨a, -, write, q, hq⟩
  rw [toPage, if_pos (by decide)] at hq
  exact absurd hq (by simp)

/-- A word stored, a halfword loaded, and then any access. -/
def wordThenHalf : List LeAccess := [.store 0x1000#32 4 0x11223344#64, .load 0x1002#32 2]

theorem littleEndian_zeroed :
    (∀ ea n v, Cpu.Fits Set.univ ea n → Cpu.Spares leZeroed Set.univ ea →
      (Cpu.StoresLE (runLe leZeroed wordThenHalf) Set.univ ea n v
        ↔ (n = 8 → (v >>> 32).setWidth 32 = v.setWidth 32)))
    ∧ (∀ ea n, Cpu.Fits Set.univ ea n →
      (Cpu.LoadsLE (runLe leZeroed wordThenHalf) ea n
        ↔ (n = 8 → ((runLe leZeroed wordThenHalf).readV ea 4).1
          = ((runLe leZeroed wordThenHalf).readV (ea + 4#32) 4).1)))
    ∧ ∀ ea n, Cpu.AccessLen n → ea &&& (BitVec.ofNat 32 n - 1#32) ≠ 0#32 →
      Cpu.Traps (runLe leZeroed wordThenHalf) ea n := by
  refine Cpu.littleEndian_iff leZeroed_identity leZeroed_le wordThenHalf ?_
  intro op hop
  rcases List.mem_cons.mp hop with rfl | hop
  · exact ⟨leZeroed_fits (by unfold Cpu.AccessLen; omega) (by decide), leZeroed_spares _⟩
  · rw [List.mem_singleton.mp hop]
    exact leZeroed_fits (by unfold Cpu.AccessLen; omega) (by decide)

/-- A doubleword whose words differ is found with them exchanged. -/
theorem doubleword_exchanged :
    ¬ ∀ (c : Cpu PlainBus) (D : Set U32), Cpu.Identity c D → c.st.msr &&& msr.LE ≠ 0#32 →
      ∀ ea n v, Cpu.Fits D ea n → Cpu.Spares c D ea → Cpu.StoresLE c D ea n v := by
  intro hall
  have hfits : Cpu.Fits Set.univ 0x1000#32 8 :=
    leZeroed_fits (by unfold Cpu.AccessLen; omega) (by decide)
  have hstores := hall leZeroed Set.univ leZeroed_identity leZeroed_le 0x1000#32 8 1#64 hfits
    (leZeroed_spares _)
  have hwords := (Cpu.storesLE_iff leZeroed_identity leZeroed_le hfits (leZeroed_spares _) 1#64).mp
    hstores rfl
  exact absurd hwords (by decide)

end OpenPowerMac
