/-
Byte storage read and written a word at a time.

The page table is words; storage is bytes. `wordAt` reads four bytes big-endian
and `setWord` stores four, through the same `loadBytes` and `storeBytes` the bus
is made of. A word store at an aligned address changes that word and no other
aligned one, which is all the table's invariants need.
-/
import OpenPowerMac.FetchRun

set_option autoImplicit false

namespace OpenPowerMac

open Cpu (Aligned)

/-- The word at `a`. -/
def wordAt (m : U32 → U8) (a : U32) : U32 := (loadBytes m a 4).setWidth 32

/-- The storage with the word `w` at `a`. -/
def setWord (m : U32 → U8) (a w : U32) : U32 → U8 := storeBytes m a 4 (w.setWidth 64)

/-- The storage with the bits `x` added to the word at `a`. -/
def orWord (m : U32 → U8) (a x : U32) : U32 → U8 := setWord m a (wordAt m a ||| x)

variable {m : U32 → U8} {a b w x : U32}

/-! ## Four bytes -/

theorem wordAt_eq (m : U32 → U8) (a : U32) :
    wordAt m a
      = m a ++ (m (a + 1#32) ++ (m (a + 2#32) ++ m (a + 3#32) : BitVec 16) : BitVec 24) := by
  simp only [wordAt, loadBytes, ofBytesBE, List.range_succ, List.range_zero, List.nil_append,
    List.cons_append, List.map_cons, List.map_nil, List.foldl_cons, List.foldl_nil,
    BitVec.add_zero]
  apply BitVec.eq_of_getLsbD_eq
  intro i hi
  simp only [BitVec.getLsbD_setWidth, BitVec.getLsbD_or, BitVec.getLsbD_shiftLeft,
    BitVec.getLsbD_append, BitVec.getLsbD_zero]
  grind

/-- Two storages with the same four bytes have the same word. -/
theorem wordAt_congr {m' : U32 → U8}
    (h : ∀ j < 4, m' (a + BitVec.ofNat 32 j) = m (a + BitVec.ofNat 32 j)) :
    wordAt m' a = wordAt m a := by
  have h0 := h 0 (by decide)
  rw [BitVec.add_zero] at h0
  rw [wordAt_eq, wordAt_eq, h0, h 1 (by decide), h 2 (by decide), h 3 (by decide)]

theorem setWord_byte (m : U32 → U8) (a w : U32) {i : ℕ} (hi : i < 4) :
    setWord m a w (a + BitVec.ofNat 32 i) = byteBE 4 i (w.setWidth 64) := by
  simp only [setWord, storeBytes, List.range_succ, List.range_zero, List.nil_append,
    List.cons_append, List.foldl_cons, List.foldl_nil]
  have hcases : i = 0 ∨ i = 1 ∨ i = 2 ∨ i = 3 := by omega
  rcases hcases with rfl | rfl | rfl | rfl <;> simp [Function.update]

@[simp] theorem wordAt_setWord_self (m : U32 → U8) (a w : U32) : wordAt (setWord m a w) a = w := by
  have h0 := setWord_byte m a w (show 0 < 4 by decide)
  rw [BitVec.add_zero] at h0
  rw [wordAt_eq, h0, setWord_byte m a w (show 1 < 4 by decide),
    setWord_byte m a w (show 2 < 4 by decide), setWord_byte m a w (show 3 < 4 by decide)]
  unfold byteBE
  apply BitVec.eq_of_getLsbD_eq
  intro i hi
  simp only [BitVec.getLsbD_append, BitVec.getLsbD_setWidth, BitVec.getLsbD_ushiftRight]
  grind

/-- The bytes of two different words are different addresses. -/
theorem byte_ne_of_ne (ha : Aligned a) (hb : Aligned b) (hab : b ≠ a) {i j : ℕ} (hi : i < 4)
    (hj : j < 4) : b + BitVec.ofNat 32 j ≠ a + BitVec.ofNat 32 i := by
  intro h
  apply hab
  have hnat := congrArg BitVec.toNat h
  have ha4 := ha.mod
  have hb4 := hb.mod
  have := a.isLt
  have := b.isLt
  apply BitVec.eq_of_toNat_eq
  simp only [BitVec.toNat_add, BitVec.toNat_ofNat] at hnat
  omega

theorem wordAt_setWord_ne (m : U32 → U8) (w : U32) (ha : Aligned a) (hb : Aligned b)
    (hab : b ≠ a) : wordAt (setWord m a w) b = wordAt m b := by
  apply wordAt_congr
  intro j hj
  exact Cpu.storeBytes_off m a 4 _ fun i hi => byte_ne_of_ne ha hb hab hi hj

/-- Storing the word that is there changes nothing. -/
theorem setWord_wordAt (m : U32 → U8) (a : U32) : setWord m a (wordAt m a) = m := by
  funext y
  by_cases hy : ∃ i < 4, y = a + BitVec.ofNat 32 i
  · obtain ⟨i, hi, rfl⟩ := hy
    rw [setWord_byte m a _ hi, wordAt_eq]
    have hcases : i = 0 ∨ i = 1 ∨ i = 2 ∨ i = 3 := by omega
    unfold byteBE
    apply BitVec.eq_of_getLsbD_eq
    intro k hk
    simp only [BitVec.getLsbD_setWidth, BitVec.getLsbD_ushiftRight, BitVec.getLsbD_append]
    rcases hcases with rfl | rfl | rfl | rfl
    · rw [BitVec.add_zero]
      grind
    · grind
    · grind
    · grind
  · exact Cpu.storeBytes_off m a 4 _ fun i hi h => hy ⟨i, hi, h⟩

/-! ## Added bits -/

theorem orWord_of_mem (h : wordAt m a ||| x = wordAt m a) : orWord m a x = m := by
  rw [orWord, h, setWord_wordAt]

@[simp] theorem orWord_zero (m : U32 → U8) (a : U32) : orWord m a 0#32 = m :=
  orWord_of_mem (BitVec.or_zero)

@[simp] theorem wordAt_orWord_self (m : U32 → U8) (a x : U32) :
    wordAt (orWord m a x) a = wordAt m a ||| x := wordAt_setWord_self _ _ _

theorem wordAt_orWord_ne (x : U32) (ha : Aligned a) (hb : Aligned b) (hab : b ≠ a) :
    wordAt (orWord m a x) b = wordAt m b := wordAt_setWord_ne m _ ha hb hab

end OpenPowerMac
