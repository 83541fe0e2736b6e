/-
Byte strings and the values they spell, first byte most significant.

The buses and the drives assemble their words a byte at a time; the two directions and
what makes them inverse to each other are stated here once.
-/
import OpenPowerMac.Word
import Mathlib.Data.List.Induction

set_option autoImplicit false

namespace OpenPowerMac

theorem ofBytesBE_concat (bs : List U8) (b : U8) :
    ofBytesBE (bs ++ [b]) = (ofBytesBE bs <<< 8) ||| b.setWidth 64 := by
  unfold ofBytesBE
  rw [List.foldl_append, List.foldl_cons, List.foldl_nil]

/-- A byte more is a digit more, while the digits fit. -/
theorem ofBytesBE_toNat (bs : List U8) (b : U8) (h : (ofBytesBE bs).toNat < 2 ^ 56) :
    (ofBytesBE (bs ++ [b])).toNat = (ofBytesBE bs).toNat * 2 ^ 8 + b.toNat := by
  have hb := b.isLt
  rw [ofBytesBE_concat, BitVec.toNat_or, BitVec.toNat_shiftLeft, BitVec.toNat_setWidth,
    Nat.mod_eq_of_lt (show b.toNat < 2 ^ 64 by omega), Nat.shiftLeft_eq,
    Nat.mod_eq_of_lt (show (ofBytesBE bs).toNat * 2 ^ 8 < 2 ^ 64 by omega), Nat.mul_comm,
    ← Nat.two_pow_add_eq_or_of_lt hb]

/-- A string of at most eight bytes spells a value of its own size. -/
theorem ofBytesBE_lt (bs : List U8) (hlen : bs.length ≤ 8) :
    (ofBytesBE bs).toNat < 2 ^ (8 * bs.length) := by
  induction bs using List.reverseRecOn with
  | nil => decide
  | append_singleton bs b ih =>
    rw [List.length_append, List.length_singleton] at hlen
    have hlt := ih (by omega)
    have hlt56 : (ofBytesBE bs).toNat < 2 ^ 56 :=
      lt_of_lt_of_le hlt (Nat.pow_le_pow_right (by decide) (by omega))
    have hb := b.isLt
    rw [ofBytesBE_toNat bs b hlt56, List.length_append, List.length_singleton, Nat.mul_succ,
      Nat.pow_add]
    omega

/-- Strings of one length that spell one value are one string. -/
theorem ofBytesBE_inj {as bs : List U8} (hlen : as.length = bs.length) (h8 : as.length ≤ 8)
    (h : ofBytesBE as = ofBytesBE bs) : as = bs := by
  induction as using List.reverseRecOn generalizing bs with
  | nil => exact (List.length_eq_zero_iff.mp hlen.symm).symm
  | append_singleton as a ih =>
    obtain rfl | ⟨bs, b, rfl⟩ := List.eq_nil_or_concat' bs
    · simp at hlen
    simp only [List.length_append, List.length_singleton, Nat.add_right_cancel_iff] at hlen h8
    have small : ∀ cs : List U8, cs.length = as.length → (ofBytesBE cs).toNat < 2 ^ 56 := by
      intro cs hcs
      exact lt_of_lt_of_le (ofBytesBE_lt cs (by omega)) (Nat.pow_le_pow_right (by decide) (by omega))
    have hnat := congrArg BitVec.toNat h
    rw [ofBytesBE_toNat as a (small as rfl), ofBytesBE_toNat bs b (small bs hlen.symm)] at hnat
    have ha := a.isLt
    have hb := b.isLt
    have hhead : ofBytesBE as = ofBytesBE bs := BitVec.eq_of_toNat_eq (by omega)
    have hlast : a = b := BitVec.eq_of_toNat_eq (by omega)
    rw [ih hlen (by omega) hhead, hlast]

/-- The value of `n` bits that bytes spell, the first the most significant. -/
def ofBytes (n : ℕ) (bs : List U8) : BitVec n := (ofBytesBE bs).setWidth n

/-- The bytes of a halfword. -/
def bytes16 (v : U16) : List U8 := [(v >>> 8).setWidth 8, v.setWidth 8]

/-- The bytes of a word. -/
def bytes32 (v : U32) : List U8 :=
  [(v >>> 24).setWidth 8, (v >>> 16).setWidth 8, (v >>> 8).setWidth 8, v.setWidth 8]

/-- A string that fits its value's width is the only one of its length to spell it. -/
theorem ofBytes_inj {n : ℕ} {as bs : List U8} (hlen : as.length = bs.length) (h8 : as.length ≤ 8)
    (hn : 8 * as.length ≤ n) (h : ofBytes n as = ofBytes n bs) : as = bs := by
  apply ofBytesBE_inj hlen h8
  have fits : ∀ cs : List U8, cs.length = as.length → (ofBytesBE cs).toNat % 2 ^ n = (ofBytesBE cs).toNat := by
    intro cs hcs
    apply Nat.mod_eq_of_lt
    exact lt_of_lt_of_le (ofBytesBE_lt cs (by omega)) (Nat.pow_le_pow_right (by decide) (by omega))
  have hnat := congrArg BitVec.toNat h
  rw [ofBytes, ofBytes, BitVec.toNat_setWidth, BitVec.toNat_setWidth, fits as rfl,
    fits bs hlen.symm] at hnat
  exact BitVec.eq_of_toNat_eq hnat

theorem ofBytesBE_append_four (bs : List U8) (a b c d : U8) :
    ofBytesBE (bs ++ [a, b, c, d]) = (ofBytesBE bs <<< 32) ||| ofBytesBE [a, b, c, d] := by
  have h : bs ++ [a, b, c, d] = (((bs ++ [a]) ++ [b]) ++ [c]) ++ [d] := by simp
  rw [h, ofBytesBE_concat, ofBytesBE_concat, ofBytesBE_concat, ofBytesBE_concat]
  simp only [ofBytesBE, List.foldl_cons, List.foldl_nil, BitVec.shiftLeft_or_distrib,
    BitVec.zero_shiftLeft, BitVec.zero_or, ← BitVec.shiftLeft_add, BitVec.or_assoc]

/-- A doubleword of two words is the doubleword of their bytes. -/
theorem ofBytes_words {as bs : List U8} (ha : as.length = 4) (hb : bs.length = 4) :
    ((ofBytes 32 as).setWidth 64 <<< 32) ||| (ofBytes 32 bs).setWidth 64 = ofBytes 64 (as ++ bs) := by
  have widen : ∀ cs : List U8, cs.length = 4 → (ofBytes 32 cs).setWidth 64 = ofBytesBE cs := by
    intro cs hcs
    have hlt := ofBytesBE_lt cs (by omega)
    rw [hcs] at hlt
    apply BitVec.eq_of_toNat_eq
    rw [ofBytes, BitVec.toNat_setWidth, BitVec.toNat_setWidth]
    omega
  rw [widen as ha, widen bs hb, ofBytes, BitVec.setWidth_eq]
  match bs, hb with
  | [a, b, c, d], _ => exact (ofBytesBE_append_four as a b c d).symm

theorem ofBytesBE_two_toNat (a b : U8) : (ofBytesBE [a, b]).toNat = a.toNat * 2 ^ 8 + b.toNat := by
  have ha := a.isLt
  have h1 : (ofBytesBE [a]).toNat = a.toNat := by
    simp only [ofBytesBE, List.foldl_cons, List.foldl_nil, BitVec.zero_shiftLeft, BitVec.zero_or,
      BitVec.toNat_setWidth]
    omega
  rw [show [a, b] = [a] ++ [b] from rfl, ofBytesBE_toNat [a] b (by omega), h1]

theorem ofBytesBE_four_toNat (a b c d : U8) : (ofBytesBE [a, b, c, d]).toNat =
    ((a.toNat * 2 ^ 8 + b.toNat) * 2 ^ 8 + c.toNat) * 2 ^ 8 + d.toNat := by
  have ha := a.isLt
  have hb := b.isLt
  have hc := c.isLt
  have h2 := ofBytesBE_two_toNat a b
  have h3 : (ofBytesBE [a, b, c]).toNat = (a.toNat * 2 ^ 8 + b.toNat) * 2 ^ 8 + c.toNat := by
    rw [show [a, b, c] = [a, b] ++ [c] from rfl, ofBytesBE_toNat [a, b] c (by omega), h2]
  rw [show [a, b, c, d] = [a, b, c] ++ [d] from rfl, ofBytesBE_toNat [a, b, c] d (by omega), h3]

/-- The bytes of the value that two bytes spell. -/
theorem bytes16_ofBytes (a b : U8) : bytes16 (ofBytes 16 [a, b]) = [a, b] := by
  have ha := a.isLt
  have hb := b.isLt
  have h := ofBytesBE_two_toNat a b
  have hbyte : ∀ (n : ℕ) (x : U8), (ofBytesBE [a, b]).toNat % 2 ^ 16 / 2 ^ n % 2 ^ 8 = x.toNat →
      (ofBytes 16 [a, b] >>> n).setWidth 8 = x := by
    intro n x hx
    apply BitVec.eq_of_toNat_eq
    rw [BitVec.toNat_setWidth, BitVec.toNat_ushiftRight, Nat.shiftRight_eq_div_pow, ofBytes,
      BitVec.toNat_setWidth, hx]
  have h1 := hbyte 8 a (by omega)
  have h2 := hbyte 0 b (by omega)
  rw [BitVec.ushiftRight_zero] at h2
  rw [bytes16, h1, h2]

/-- The bytes of the value that four bytes spell. -/
theorem bytes32_ofBytes (a b c d : U8) : bytes32 (ofBytes 32 [a, b, c, d]) = [a, b, c, d] := by
  have ha := a.isLt
  have hb := b.isLt
  have hc := c.isLt
  have hd := d.isLt
  have h := ofBytesBE_four_toNat a b c d
  have hbyte : ∀ (n : ℕ) (x : U8), (ofBytesBE [a, b, c, d]).toNat % 2 ^ 32 / 2 ^ n % 2 ^ 8 = x.toNat →
      (ofBytes 32 [a, b, c, d] >>> n).setWidth 8 = x := by
    intro n x hx
    apply BitVec.eq_of_toNat_eq
    rw [BitVec.toNat_setWidth, BitVec.toNat_ushiftRight, Nat.shiftRight_eq_div_pow, ofBytes,
      BitVec.toNat_setWidth, hx]
  have h1 := hbyte 24 a (by omega)
  have h2 := hbyte 16 b (by omega)
  have h3 := hbyte 8 c (by omega)
  have h4 := hbyte 0 d (by omega)
  rw [BitVec.ushiftRight_zero] at h4
  rw [bytes32, h1, h2, h3, h4]

end OpenPowerMac
