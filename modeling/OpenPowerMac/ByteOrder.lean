/-
Little-endian memories, and how a big-endian one is read as such.

A memory is a function from addresses to bytes; a value of `n` bytes lies in it
with its least significant byte first. The last section is the other order:
inside an aligned block of eight, turning every address around (`^ 7`) makes the
big-endian bytes of an aligned value, found at its own address with the unused
low bits turned, the little-endian bytes of the same value.
-/
import Mathlib.Data.BitVec
import Mathlib.Tactic.Ring
import Mathlib.Tactic.Linarith

set_option autoImplicit false

namespace ByteOrder

/-! ## Values and bytes -/

/-- A value from its bytes, the least significant first. -/
def ofBytesLE : List (BitVec 8) → BitVec 64
  | [] => 0#64
  | b :: bs => (ofBytesLE bs <<< 8) ||| b.setWidth 64

/-- The byte of weight `8 * i`. -/
def byteLE (i : ℕ) (v : BitVec 64) : BitVec 8 := (v >>> (8 * i)).setWidth 8

theorem ofBytesLE_append (as bs : List (BitVec 8)) :
    ofBytesLE (as ++ bs) = (ofBytesLE bs <<< (8 * as.length)) ||| ofBytesLE as := by
  induction as with
  | nil => simp [ofBytesLE]
  | cons a as ih =>
      rw [List.cons_append, ofBytesLE, ih, ofBytesLE, List.length_cons, BitVec.shiftLeft_or_distrib,
        ← BitVec.shiftLeft_add, BitVec.or_assoc, Nat.mul_add, Nat.mul_one]

/-- Nothing lies above the bytes of a value. -/
theorem ofBytesLE_shift (bs : List (BitVec 8)) : ofBytesLE bs >>> (8 * bs.length) = 0#64 := by
  have hbit : ∀ j, 8 * bs.length ≤ j → (ofBytesLE bs).getLsbD j = false := by
    induction bs with
    | nil => exact fun j _ => BitVec.getLsbD_zero
    | cons b bs ih =>
        intro j hj
        rw [List.length_cons] at hj
        rw [ofBytesLE, BitVec.getLsbD_or, BitVec.getLsbD_shiftLeft, ih (j - 8) (by omega),
          BitVec.getLsbD_setWidth, BitVec.getLsbD_of_ge b j (by omega)]
        simp
  apply BitVec.eq_of_getLsbD_eq
  intro j _
  rw [BitVec.getLsbD_ushiftRight, hbit _ (by omega), BitVec.getLsbD_zero]

/-- A value is its bytes. -/
theorem eq_of_byteLE {v v' : BitVec 64} (h : ∀ i < 8, byteLE i v = byteLE i v') : v = v' := by
  apply BitVec.eq_of_getLsbD_eq
  intro j hj
  have hbyte := congrArg (fun b => b.getLsbD (j % 8)) (h (j / 8) (by omega))
  have hlt : j % 8 < 8 := Nat.mod_lt j (by decide)
  simpa [byteLE, hlt, Nat.div_add_mod] using hbyte

/-! ## Memories -/

section Memory

variable {w : ℕ}

/-- A load. -/
def loadLE (m : BitVec w → BitVec 8) (a : BitVec w) (n : ℕ) : BitVec 64 :=
  ofBytesLE ((List.range n).map fun i => m (a + BitVec.ofNat w i))

/-- A store. -/
def storeLE (m : BitVec w → BitVec 8) (a : BitVec w) (n : ℕ) (v : BitVec 64) :
    BitVec w → BitVec 8 :=
  fun b => if (b - a).toNat < n then byteLE (b - a).toNat v else m b

theorem storeLE_at (m : BitVec w → BitVec 8) (a : BitVec w) {n : ℕ} (hn : n ≤ 2 ^ w) (v : BitVec 64)
    {i : ℕ} (hi : i < n) : storeLE m a n v (a + BitVec.ofNat w i) = byteLE i v := by
  have hnat : (a + BitVec.ofNat w i - a).toNat = i := by
    rw [BitVec.add_comm, BitVec.add_sub_cancel, BitVec.toNat_ofNat, Nat.mod_eq_of_lt (by omega)]
  rw [storeLE, hnat, if_pos hi]

theorem storeLE_off (m : BitVec w → BitVec 8) (a : BitVec w) (n : ℕ) (v : BitVec 64) {b : BitVec w}
    (hb : ∀ i < n, b ≠ a + BitVec.ofNat w i) : storeLE m a n v b = m b := by
  rw [storeLE, if_neg]
  intro hlt
  apply hb _ hlt
  rw [BitVec.ofNat_toNat, BitVec.setWidth_eq, BitVec.add_comm, BitVec.sub_add_cancel]

/-- A memory that holds the bytes of a value at an address, and is otherwise another, is what a
store leaves. -/
theorem eq_storeLE {m m' : BitVec w → BitVec 8} {a : BitVec w} {n : ℕ} (hn : n ≤ 2 ^ w)
    {v : BitVec 64} (hat : ∀ i < n, m' (a + BitVec.ofNat w i) = byteLE i v)
    (hoff : ∀ b, (∀ i < n, b ≠ a + BitVec.ofNat w i) → m' b = m b) : m' = storeLE m a n v := by
  funext b
  by_cases hb : ∃ i < n, b = a + BitVec.ofNat w i
  · obtain ⟨i, hi, rfl⟩ := hb
    rw [hat i hi, storeLE_at m a hn v hi]
  · have hne : ∀ i < n, b ≠ a + BitVec.ofNat w i := fun i hi heq => hb ⟨i, hi, heq⟩
    rw [hoff b hne, storeLE_off m a n v hne]

/-- Two stores side by side are one. -/
theorem storeLE_storeLE (m : BitVec w → BitVec 8) (a : BitVec w) {n k : ℕ} (hw : n + k ≤ 2 ^ w)
    {v lo hi : BitVec 64} (hlo : ∀ i < n, byteLE i lo = byteLE i v)
    (hhi : ∀ i < k, byteLE i hi = byteLE (n + i) v) :
    storeLE (storeLE m a n lo) (a + BitVec.ofNat w n) k hi = storeLE m a (n + k) v := by
  have hnext : ∀ i, a + BitVec.ofNat w n + BitVec.ofNat w i = a + BitVec.ofNat w (n + i) := by
    intro i
    rw [BitVec.add_assoc, ← BitVec.ofNat_add]
  refine eq_storeLE hw (fun i hik => ?_) fun b hb => ?_
  · by_cases hin : i < n
    · rw [storeLE_off, storeLE_at _ _ (by omega) _ hin, hlo i hin]
      intro j hj heq
      rw [hnext] at heq
      have hnat := congrArg BitVec.toNat (add_left_cancel heq)
      rw [BitVec.toNat_ofNat, BitVec.toNat_ofNat, Nat.mod_eq_of_lt (by omega),
        Nat.mod_eq_of_lt (by omega)] at hnat
      omega
    · obtain ⟨j, rfl⟩ := Nat.exists_eq_add_of_le (Nat.le_of_not_lt hin)
      rw [← hnext, storeLE_at _ _ (by omega) _ (by omega), hhi j (by omega)]
  · rw [storeLE_off, storeLE_off _ _ _ _ fun i hi' => hb i (by omega)]
    intro i hi'
    rw [hnext]
    exact hb (n + i) (by omega)

/-- A load of two pieces side by side. -/
theorem loadLE_add (m : BitVec w → BitVec 8) (a : BitVec w) (n k : ℕ) :
    loadLE m a (n + k) = (loadLE m (a + BitVec.ofNat w n) k <<< (8 * n)) ||| loadLE m a n := by
  have hbytes : (List.range (n + k)).map (fun i => m (a + BitVec.ofNat w i))
      = (List.range n).map (fun i => m (a + BitVec.ofNat w i))
        ++ (List.range k).map (fun i => m (a + BitVec.ofNat w n + BitVec.ofNat w i)) := by
    rw [List.range_add, List.map_append, List.map_map]
    congr 1
    apply List.map_congr_left
    intro i _
    rw [Function.comp_apply, BitVec.add_assoc, BitVec.ofNat_add]
  rw [loadLE, hbytes, ofBytesLE_append, List.length_map, List.length_range, loadLE, loadLE]

theorem loadLE_shift (m : BitVec w → BitVec 8) (a : BitVec w) (n : ℕ) :
    loadLE m a n >>> (8 * n) = 0#64 := by
  have hshift := ofBytesLE_shift ((List.range n).map fun i => m (a + BitVec.ofNat w i))
  rw [List.length_map, List.length_range] at hshift
  exact hshift

end Memory

/-! ## Addresses turned around -/

section Turned

variable {w : ℕ}

/-- The memory with every address turned inside its block of eight. -/
def turned (m : BitVec w → BitVec 8) : BitVec w → BitVec 8 := fun a => m (a ^^^ 7#w)

/-- `a` is a multiple of `2 ^ k`. -/
def Multiple (k : ℕ) (a : BitVec w) : Prop := a &&& BitVec.ofNat w (2 ^ k - 1) = 0#w

theorem Multiple.add {k : ℕ} {a : BitVec w} (h : Multiple k a) {i : ℕ} (hi : i < 2 ^ k) :
    a + BitVec.ofNat w i = a ^^^ BitVec.ofNat w i := by
  have hmask : i &&& (2 ^ k - 1) = i := by
    rw [Nat.and_two_pow_sub_one_eq_mod, Nat.mod_eq_of_lt hi]
  have hand : a &&& BitVec.ofNat w i = 0#w := by
    rw [← hmask, BitVec.ofNat_and, BitVec.and_comm (BitVec.ofNat w i), ← BitVec.and_assoc, h,
      BitVec.zero_and]
  rw [BitVec.add_eq_or_of_and_eq_zero _ _ hand]
  apply BitVec.eq_of_getLsbD_eq
  intro j _
  have hbit := congrArg (fun x => x.getLsbD j) hand
  simp only [BitVec.getLsbD_and, BitVec.getLsbD_zero] at hbit
  rw [BitVec.getLsbD_or, BitVec.getLsbD_xor]
  cases ha : a.getLsbD j
  · rw [Bool.false_or, Bool.false_xor]
  · rw [ha, Bool.true_and] at hbit
    rw [hbit]
    rfl

theorem Multiple.mono {k j : ℕ} (hjk : j ≤ k) {a : BitVec w} (h : Multiple k a) : Multiple j a := by
  have hmask : (2 ^ k - 1) &&& (2 ^ j - 1) = 2 ^ j - 1 := by
    apply Nat.eq_of_testBit_eq
    intro i
    rw [Nat.testBit_and, Nat.testBit_two_pow_sub_one, Nat.testBit_two_pow_sub_one]
    by_cases hij : i < j
    · simp [hij, show i < k by omega]
    · simp [hij]
  unfold Multiple at h ⊢
  rw [← hmask, BitVec.ofNat_and, ← BitVec.and_assoc, h, BitVec.zero_and]

/-- The unused low bits turned, an address is as aligned as it was. -/
theorem Multiple.turn {k : ℕ} (hk : k ≤ 3) {a : BitVec w} (h : Multiple k a) :
    Multiple k (a ^^^ BitVec.ofNat w (8 - 2 ^ k)) := by
  have hnum : ∀ k ≤ 3, (8 - 2 ^ k) &&& (2 ^ k - 1) = 0 := by decide
  have hmask : BitVec.ofNat w (8 - 2 ^ k) &&& BitVec.ofNat w (2 ^ k - 1) = 0#w := by
    rw [← BitVec.ofNat_and, hnum k hk]
  apply BitVec.eq_of_getLsbD_eq
  intro j _
  have ha := congrArg (fun x => x.getLsbD j) h
  have hturn := congrArg (fun x => x.getLsbD j) hmask
  simp only [BitVec.getLsbD_and, BitVec.getLsbD_zero] at ha hturn
  rw [BitVec.getLsbD_and, BitVec.getLsbD_xor, Bool.and_xor_distrib_right, ha, hturn,
    BitVec.getLsbD_zero, Bool.xor_self]

/-- Byte `i` from the turned address is the byte as far from the other end of the value. -/
theorem Multiple.turn_add {k : ℕ} (hk : k ≤ 3) {a : BitVec w} (h : Multiple k a) {i : ℕ}
    (hi : i < 2 ^ k) : (a ^^^ BitVec.ofNat w (8 - 2 ^ k)) + BitVec.ofNat w i
      = (a + BitVec.ofNat w (2 ^ k - 1 - i)) ^^^ 7#w := by
  have hnum : ∀ k ≤ 3, ∀ i < 2 ^ k, (8 - 2 ^ k) ^^^ i = (2 ^ k - 1 - i) ^^^ 7 := by decide
  rw [(h.turn hk).add hi, h.add (by omega), BitVec.xor_assoc, BitVec.xor_assoc,
    ← BitVec.ofNat_xor, ← BitVec.ofNat_xor, hnum k hk i hi]

end Turned

end ByteOrder
