/-
Blocks and bytes: an address is a block number and an offset.

The caches index and tag by address (`setOf`, `tvOf`, `blockBase`, the L2's
line number `pa >> 5`). A block number names the same thing once, and every one
of those is a function of it. The last section is the one fact about bytes that
the caches rely on: inside a block, the byte at `pa + i` is the block's byte at
the offset plus `i`, so a line assembled or written in place is a flat memory
assembled or written in place.
-/
import OpenPowerMac.Cache

set_option autoImplicit false

namespace OpenPowerMac

/-! ## The block number -/

/-- The block an address lies in, as a number. -/
def blkOf (pa : U32) : BitVec 27 := pa.extractLsb' 5 27

/-- The address of a byte of a block. -/
def byteAddr (k : BitVec 27) (o : BitVec 5) : U32 := k ++ o

/-- The address of a block. -/
def blkAddr (k : BitVec 27) : U32 := byteAddr k 0#5

theorem blkOf_toNat (pa : U32) : (blkOf pa).toNat = pa.toNat / 32 := by
  have h := pa.isLt
  rw [blkOf, BitVec.extractLsb'_toNat, Nat.shiftRight_eq_div_pow, Nat.mod_eq_of_lt]
  omega

theorem blockOff_toNat (pa : U32) : (blockOff pa).toNat = pa.toNat % 32 := by
  rw [blockOff, BitVec.toNat_setWidth]

theorem byteAddr_toNat (k : BitVec 27) (o : BitVec 5) :
    (byteAddr k o).toNat = k.toNat * 32 + o.toNat := by
  rw [byteAddr, BitVec.toNat_append, ← Nat.shiftLeft_add_eq_or_of_lt o.isLt, Nat.shiftLeft_eq]

theorem blkAddr_toNat (k : BitVec 27) : (blkAddr k).toNat = k.toNat * 32 := by
  rw [blkAddr, byteAddr_toNat]
  rfl

@[simp] theorem blkOf_byteAddr (k : BitVec 27) (o : BitVec 5) : blkOf (byteAddr k o) = k := by
  have ho := o.isLt
  apply BitVec.eq_of_toNat_eq
  rw [blkOf_toNat, byteAddr_toNat]
  omega

@[simp] theorem blockOff_byteAddr (k : BitVec 27) (o : BitVec 5) :
    blockOff (byteAddr k o) = o := by
  have ho := o.isLt
  apply BitVec.eq_of_toNat_eq
  rw [blockOff_toNat, byteAddr_toNat]
  omega

@[simp] theorem blkOf_blkAddr (k : BitVec 27) : blkOf (blkAddr k) = k := blkOf_byteAddr k 0#5

@[simp] theorem byteAddr_blkOf (pa : U32) : byteAddr (blkOf pa) (blockOff pa) = pa := by
  apply BitVec.eq_of_toNat_eq
  rw [byteAddr_toNat, blkOf_toNat, blockOff_toNat]
  omega

/-- Two addresses are equal when their blocks and their offsets are. -/
theorem eq_of_blkOf_blockOff {a b : U32} (hb : blkOf a = blkOf b) (ho : blockOff a = blockOff b) :
    a = b := by
  rw [← byteAddr_blkOf a, ← byteAddr_blkOf b, hb, ho]

theorem blockBase_toNat (pa : U32) : (blockBase pa).toNat = pa.toNat / 32 * 32 := by
  have h := pa.isLt
  have hshift : blockBase pa = pa >>> 5 <<< 5 := by
    rw [blockBase, BitVec.shiftLeft_ushiftRight, show BitVec.allOnes 32 <<< 5 = ~~~31#32 by decide]
  rw [hshift, BitVec.toNat_shiftLeft, BitVec.toNat_ushiftRight, Nat.shiftLeft_eq,
    Nat.shiftRight_eq_div_pow]
  omega

theorem blockBase_eq (pa : U32) : blockBase pa = blkAddr (blkOf pa) := by
  apply BitVec.eq_of_toNat_eq
  rw [blockBase_toNat, blkAddr_toNat, blkOf_toNat]

theorem blockBase_blkAddr (k : BitVec 27) : blockBase (blkAddr k) = blkAddr k := by
  rw [blockBase_eq, blkOf_blkAddr]

/-! ## The L1's index and tag -/

/-- The block that a live way of set `s` holds under the lookup word `tv`. -/
def l1Block (s : BitVec 7) (tv : U32) : BitVec 27 := (tv.extractLsb' 1 20 : BitVec 20) ++ s

theorem l1Block_toNat (s : BitVec 7) (tv : U32) :
    (l1Block s tv).toNat = tv.toNat / 2 % 2 ^ 20 * 128 + s.toNat := by
  rw [l1Block, BitVec.toNat_append, BitVec.extractLsb'_toNat, ← Nat.shiftLeft_add_eq_or_of_lt s.isLt,
    Nat.shiftLeft_eq, Nat.shiftRight_eq_div_pow]

theorem setOf_toNat (pa : U32) : (setOf pa).toNat = pa.toNat / 32 % 128 := by
  rw [setOf, BitVec.extractLsb'_toNat, Nat.shiftRight_eq_div_pow]

theorem tvOf_toNat (pa : U32) : (tvOf pa).toNat = pa.toNat / 4096 * 2 + 1 := by
  have h := pa.isLt
  have htag : (tagOf pa).toNat = pa.toNat / 4096 := by
    rw [tagOf, BitVec.toNat_ushiftRight, Nat.shiftRight_eq_div_pow]
  have hshift : (tagOf pa).toNat <<< 1 % 2 ^ 32 = (tagOf pa).toNat <<< 1 := by
    rw [Nat.shiftLeft_eq, htag, Nat.mod_eq_of_lt (by omega)]
  rw [tvOf, BitVec.toNat_or, BitVec.toNat_shiftLeft, hshift, show (1#32).toNat = 1 from rfl,
    ← Nat.shiftLeft_add_eq_or_of_lt (by norm_num), Nat.shiftLeft_eq, htag]

theorem setOf_blkAddr (pa : U32) : setOf (blkAddr (blkOf pa)) = setOf pa := by
  apply BitVec.eq_of_toNat_eq
  rw [setOf_toNat, setOf_toNat, blkAddr_toNat, blkOf_toNat]
  omega

theorem tvOf_blkAddr (pa : U32) : tvOf (blkAddr (blkOf pa)) = tvOf pa := by
  apply BitVec.eq_of_toNat_eq
  rw [tvOf_toNat, tvOf_toNat, blkAddr_toNat, blkOf_toNat]
  omega

/-- The valid bit of a lookup word. -/
theorem tv_valid_iff (tv : U32) : tv &&& 1#32 ≠ 0#32 ↔ tv.toNat % 2 = 1 := by
  have hand : (tv &&& 1#32).toNat = tv.toNat % 2 := by
    rw [BitVec.toNat_and]
    exact Nat.and_two_pow_sub_one_eq_mod tv.toNat 1
  constructor
  · intro h
    rcases Nat.mod_two_eq_zero_or_one tv.toNat with h0 | h1
    · exact absurd (BitVec.eq_of_toNat_eq (by rw [hand, h0]; rfl)) h
    · exact h1
  · intro h h0
    rw [h0] at hand
    rw [← hand] at h
    exact absurd h (by decide)

theorem tvOf_valid (pa : U32) : tvOf pa &&& 1#32 ≠ 0#32 := by
  rw [tv_valid_iff, tvOf_toNat]
  omega

theorem tvOf_lt (pa : U32) : (tvOf pa).toNat < 2 ^ 21 := by
  have h := pa.isLt
  rw [tvOf_toNat]
  omega

theorem l1Block_tvOf (pa : U32) : l1Block (setOf pa) (tvOf pa) = blkOf pa := by
  have h := pa.isLt
  apply BitVec.eq_of_toNat_eq
  rw [l1Block_toNat, setOf_toNat, tvOf_toNat, blkOf_toNat]
  omega

/-- A live lookup word names one block only. -/
theorem l1Block_eq_iff {s : BitVec 7} {tv : U32} (hv : tv &&& 1#32 ≠ 0#32)
    (hlt : tv.toNat < 2 ^ 21) (pa : U32) :
    l1Block s tv = blkOf pa ↔ s = setOf pa ∧ tv = tvOf pa := by
  rw [tv_valid_iff] at hv
  have hs := s.isLt
  have h := pa.isLt
  constructor
  · intro heq
    have hnat := congrArg BitVec.toNat heq
    rw [l1Block_toNat, blkOf_toNat] at hnat
    refine ⟨BitVec.eq_of_toNat_eq ?_, BitVec.eq_of_toNat_eq ?_⟩
    · rw [setOf_toNat]
      omega
    · rw [tvOf_toNat]
      omega
  · rintro ⟨rfl, rfl⟩
    exact l1Block_tvOf pa

/-- The base a castout computes from the set and the tag. -/
theorem castout_base (s : BitVec 7) (tv : U32) (hlt : tv.toNat < 2 ^ 21) :
    ((tv >>> 1) <<< 12) ||| (s.setWidth 32 <<< 5) = blkAddr (l1Block s tv) := by
  have hs := s.isLt
  have hset : (s.setWidth 32 <<< 5).toNat = s.toNat * 32 := by
    rw [BitVec.toNat_shiftLeft, BitVec.toNat_setWidth, Nat.shiftLeft_eq]
    omega
  have htag : ((tv >>> 1) <<< 12).toNat = (tv.toNat / 2) <<< 12 := by
    rw [BitVec.toNat_shiftLeft, BitVec.toNat_ushiftRight, Nat.shiftRight_eq_div_pow,
      Nat.shiftLeft_eq]
    omega
  apply BitVec.eq_of_toNat_eq
  rw [BitVec.toNat_or, hset, htag, ← Nat.shiftLeft_add_eq_or_of_lt (by omega), Nat.shiftLeft_eq,
    blkAddr_toNat, l1Block_toNat]
  omega

/-! ## The L2's line number -/

theorem lineNumber_eq (pa : U32) : pa >>> 5 = (blkOf pa).setWidth 32 := by
  have h := pa.isLt
  apply BitVec.eq_of_toNat_eq
  rw [BitVec.toNat_ushiftRight, Nat.shiftRight_eq_div_pow, BitVec.toNat_setWidth, blkOf_toNat]
  omega

theorem lineNumber_blkAddr (k : BitVec 27) : blkAddr k >>> 5 = k.setWidth 32 := by
  rw [lineNumber_eq, blkOf_blkAddr]

theorem lineAddr_eq (tag : U32) : tag <<< 5 = blkAddr (tag.setWidth 27) := by
  apply BitVec.eq_of_toNat_eq
  rw [BitVec.toNat_shiftLeft, Nat.shiftLeft_eq, blkAddr_toNat, BitVec.toNat_setWidth]
  omega

/-! ## Bytes in a block -/

theorem blkOf_add {pa : U32} {i : ℕ} (h : (blockOff pa).toNat + i < 32) :
    blkOf (pa + BitVec.ofNat 32 i) = blkOf pa := by
  have hpa := pa.isLt
  rw [blockOff_toNat] at h
  apply BitVec.eq_of_toNat_eq
  rw [blkOf_toNat, blkOf_toNat, BitVec.toNat_add, BitVec.toNat_ofNat]
  omega

theorem blockOff_add (pa : U32) (i : ℕ) :
    blockOff (pa + BitVec.ofNat 32 i) = blockOff pa + BitVec.ofNat 5 i := by
  apply BitVec.eq_of_toNat_eq
  rw [blockOff_toNat, BitVec.toNat_add, BitVec.toNat_add, blockOff_toNat, BitVec.toNat_ofNat,
    BitVec.toNat_ofNat]
  omega

/-- The flat memory a block-wise view stands for. -/
def flatOf (f : BitVec 27 → Line) : U32 → U8 := fun a => f (blkOf a) (blockOff a)

@[simp] theorem flatOf_byteAddr (f : BitVec 27 → Line) (k : BitVec 27) (o : BitVec 5) :
    flatOf f (byteAddr k o) = f k o := by
  rw [flatOf, blkOf_byteAddr, blockOff_byteAddr]

theorem flatOf_update (f : BitVec 27 → Line) (a : U32) (v : U8) :
    flatOf (Function.update f (blkOf a) (Function.update (f (blkOf a)) (blockOff a) v))
      = Function.update (flatOf f) a v := by
  funext b
  by_cases hb : b = a
  · rw [hb, Function.update_self, flatOf, Function.update_self, Function.update_self]
  · rw [Function.update_of_ne hb]
    by_cases hk : blkOf b = blkOf a
    · have ho : blockOff b ≠ blockOff a := fun ho => hb (eq_of_blkOf_blockOff hk ho)
      simp only [flatOf, hk, Function.update_self, Function.update_of_ne ho]
    · simp only [flatOf, Function.update_of_ne hk]

/-- A load inside a block is a load of the flat memory. -/
theorem lineLoadBE_eq (f : BitVec 27 → Line) {pa : U32} {len : ℕ}
    (h : (blockOff pa).toNat + len ≤ 32) :
    lineLoadBE (f (blkOf pa)) (blockOff pa) len = loadBytes (flatOf f) pa len := by
  unfold lineLoadBE loadBytes
  congr 1
  apply List.map_congr_left
  intro i hi
  have hlt := List.mem_range.mp hi
  rw [flatOf, blkOf_add (by omega), blockOff_add]

/-- A store inside a block is a store of the flat memory. -/
theorem lineStoreBE_eq (f : BitVec 27 → Line) {pa : U32} {len : ℕ} (v : U64)
    (h : (blockOff pa).toNat + len ≤ 32) :
    flatOf (Function.update f (blkOf pa) (lineStoreBE (f (blkOf pa)) (blockOff pa) len v))
      = storeBytes (flatOf f) pa len v := by
  -- the two stores write the same bytes in the same order
  have hfold : ∀ n ≤ len,
      flatOf (Function.update f (blkOf pa)
          ((List.range n).foldl (fun m i => Function.update m (blockOff pa + BitVec.ofNat 5 i)
            (byteBE len i v)) (f (blkOf pa))))
        = (List.range n).foldl (fun m i => Function.update m (pa + BitVec.ofNat 32 i)
            (byteBE len i v)) (flatOf f) := by
    intro n
    induction n with
    | zero =>
        intro _
        simp only [List.range_zero, List.foldl_nil, Function.update_eq_self]
    | succ n ih =>
        intro hn
        rw [List.range_succ, List.foldl_append, List.foldl_append, List.foldl_cons,
          List.foldl_nil, List.foldl_cons, List.foldl_nil, ← ih (by omega), ← flatOf_update,
          blkOf_add (by omega), blockOff_add, Function.update_idem, Function.update_self]
  exact hfold len (le_refl len)

end OpenPowerMac
