/-
A rectangle of a packet in the engine's registers: `cceOpBitbltMulti` walks each axis away from
the overlap, and gives the far corner where an axis is reversed.

The engine takes the far corner back to the near one, so whatever the directions the rectangle
it draws is the packet's, less what the scissor keeps off (`rectOf_walk`).
-/
import Mathlib.Tactic.IntervalCases
import OpenPowerMac.R128Packets
import OpenPowerMac.R128Surface

set_option autoImplicit false

namespace OpenPowerMac

/-- A rectangle of a packet: where from, where to, and how large. -/
structure BlitRect where
  sx : ℕ
  sy : ℕ
  dx : ℕ
  dy : ℕ
  w : ℕ
  h : ℕ

/-- The three words of a rectangle. -/
def rectOfWords (s d wh : U32) : BlitRect where
  sx := (s >>> 16).toNat
  sy := (s &&& 0xFFFF#32).toNat
  dx := (d >>> 16).toNat
  dy := (d &&& 0xFFFF#32).toNat
  w := (wh >>> 16).toNat
  h := (wh &&& 0x3FFF#32).toNat

/-- A point inside the scissor. -/
def InScissor (c : R128Cell) (x y : ℕ) : Prop :=
  sx14 (c.rd R128Cell.kScLeft) ≤ x ∧ (x : ℤ) ≤ sx14 (c.rd R128Cell.kScRight)
    ∧ sx14 (c.rd R128Cell.kScTop) ≤ y ∧ (y : ℤ) ≤ sx14 (c.rd R128Cell.kScBottom)

/-- A rectangle the engine has the bits for. -/
structure BlitRect.Held (t : BlitRect) : Prop where
  w : 0 < t.w ∧ t.w < 8192
  h : 0 < t.h ∧ t.h < 8192
  src : t.sx + t.w - 1 ≤ 8191 ∧ t.sy + t.h - 1 ≤ 8191
  dst : t.dx + t.w - 1 ≤ 8191 ∧ t.dy + t.h - 1 ≤ 8191

/-! ## Words and halves -/

theorem R128Cell.swap32_swap32 (v : U32) : swap32 (swap32 v) = v := by
  apply BitVec.eq_of_getLsbD_eq
  intro i hi
  interval_cases i <;> simp [swap32]

/-- Two halves put in a word and taken out again. -/
theorem halves {x y : U32} (hx : x.toNat < 2 ^ 14) (hy : y.toNat < 2 ^ 14) :
    ((y <<< 16) ||| x) &&& 0x3FFF#32 = x ∧ (((y <<< 16) ||| x) >>> 16) &&& 0x3FFF#32 = y := by
  have hor : ((y <<< 16) ||| x).toNat = y.toNat * 2 ^ 16 + x.toNat := by
    rw [BitVec.toNat_or, BitVec.toNat_shiftLeft, Nat.shiftLeft_eq, Nat.mod_eq_of_lt (by omega),
      ← Nat.shiftLeft_eq, ← Nat.shiftLeft_add_eq_or_of_lt (by omega), Nat.shiftLeft_eq]
  constructor
  · apply BitVec.eq_of_toNat_eq
    rw [BitVec.toNat_and, hor, show (0x3FFF#32 : U32).toNat = 2 ^ 14 - 1 from rfl,
      Nat.and_two_pow_sub_one_eq_mod]
    omega
  · apply BitVec.eq_of_toNat_eq
    rw [BitVec.toNat_and, BitVec.toNat_ushiftRight, hor, Nat.shiftRight_eq_div_pow,
      show (0x3FFF#32 : U32).toNat = 2 ^ 14 - 1 from rfl, Nat.and_two_pow_sub_one_eq_mod]
    omega

theorem sx14_of_lt {x : U32} (h : x.toNat < 0x2000) : sx14 x = x.toNat := by
  have hand : (x &&& 0x3FFF#32).toNat = x.toNat := by
    rw [BitVec.toNat_and, show (0x3FFF#32 : U32).toNat = 2 ^ 14 - 1 from rfl,
      Nat.and_two_pow_sub_one_eq_mod]
    omega
  simp only [sx14, hand]
  rw [if_neg (by omega)]

theorem extent_of_lt {x : U32} (h : x.toNat < 0x2000) : (x &&& 0x1FFF#32).toNat = x.toNat := by
  rw [BitVec.toNat_and, show (0x1FFF#32 : U32).toNat = 2 ^ 13 - 1 from rfl,
    Nat.and_two_pow_sub_one_eq_mod]
  omega

/-! ## The registers of a rectangle -/

namespace R128Eng

open R128Cell

variable (e : R128Eng)

/-- The registers a rectangle is put in. -/
def walkRegs : List U32 := [kDpCntl, kSrcX, kSrcY, kDstX, kDstY, kDstWidth, kDstHeight]

theorem cceRegWrite_eq (off v : U32) (hoff : off &&& 0x3FFC#32 = off) :
    e.cceRegWrite off v = e.write off (swap32 v) 4 := by
  rw [cceRegWrite, hoff]

/-- A write of a word into the engine's registers. -/
theorem write_word (hon : e.cell.eng2dOn = true) (off v : U32) (hal : off &&& ~~~3#32 = off)
    (hlo : 0x1400#32 ≤ off) (hhi : off < 0x1A00#32) :
    e.write off (swap32 v) 4 =
      if (e.eng2dWrite off v).1 then (e.eng2dWrite off v).2
      else { (e.eng2dWrite off v).2 with
        cell := (e.eng2dWrite off v).2.cell.write off (swap32 v) 4 } := by
  have hnative : e.cell.native off (swap32 v) 4 = v := by
    rw [native, if_pos rfl, swap32_swap32]
  have hno3d : ¬ 0x1A00#32 ≤ off := BitVec.not_le.mpr hhi
  have hhi' : off < 0x2000#32 := by
    rw [BitVec.lt_def] at hhi ⊢
    exact hhi.trans (by decide)
  rw [write, hnative, hal]
  simp only [hon, hlo, hhi', and_self, if_true, engWrite, if_neg hno3d]

theorem cceRegWrite_dpCntl (hon : e.cell.eng2dOn = true) (v : U32) :
    e.cceRegWrite kDpCntl v = e.setReg kDpCntl v := by
  rw [e.cceRegWrite_eq _ _ (by decide), e.write_word hon _ _ (by decide) (by decide) (by decide)]
  have hplain : e.eng2dWrite kDpCntl v = (false, e) := rfl
  have hstore : e.cell.write kDpCntl (swap32 v) 4 = e.cell.setReg kDpCntl (swap32 (swap32 v)) := by
    rfl
  rw [hplain, if_neg Bool.false_ne_true, hstore, swap32_swap32]
  rfl

theorem cceRegWrite_srcYX (hon : e.cell.eng2dOn = true) (v : U32) :
    e.cceRegWrite 0x1434#32 v = e.setPair kSrcX kSrcY v := by
  rw [e.cceRegWrite_eq _ _ (by decide), e.write_word hon _ _ (by decide) (by decide) (by decide)]
  have h : e.eng2dWrite 0x1434#32 v = (true, e.setPair kSrcX kSrcY v) := rfl
  rw [h, if_pos rfl]

theorem cceRegWrite_dstYX (hon : e.cell.eng2dOn = true) (v : U32) :
    e.cceRegWrite 0x1438#32 v = e.setPair kDstX kDstY v := by
  rw [e.cceRegWrite_eq _ _ (by decide), e.write_word hon _ _ (by decide) (by decide) (by decide)]
  have h : e.eng2dWrite 0x1438#32 v = (true, e.setPair kDstX kDstY v) := rfl
  rw [h, if_pos rfl]

theorem cceRegWrite_heightWidth (hon : e.cell.eng2dOn = true) (v : U32) :
    e.cceRegWrite 0x143C#32 v = (e.setPair kDstWidth kDstHeight v).engBlit := by
  rw [e.cceRegWrite_eq _ _ (by decide), e.write_word hon _ _ (by decide) (by decide) (by decide)]
  have h : e.eng2dWrite 0x143C#32 v = (true, (e.setPair kDstWidth kDstHeight v).engBlit) := rfl
  rw [h, if_pos rfl]

/-- The engine as a rectangle's blit finds it. -/
def walked (dir src dst hw : U32) : R128Eng :=
  (((e.setReg kDpCntl dir).setPair kSrcX kSrcY src).setPair kDstX kDstY dst).setPair
    kDstWidth kDstHeight hw

/-- What a rectangle comes to. -/
theorem cceRect_eq (hon : e.cell.eng2dOn = true) (s d wh : U32) (hw : wh >>> 16 ≠ 0#32)
    (hh : wh &&& 0x3FFF#32 ≠ 0#32) : ∃ dir src dst,
    e.cceRect s d wh = (e.walked dir src dst
        (((wh &&& 0x3FFF#32) <<< 16) ||| (wh >>> 16))).engBlit
      ∧ (dir.getLsbD 0 = decide (d >>> 16 ≤ s >>> 16)
        ∧ dir.getLsbD 1 = decide (d &&& 0xFFFF#32 ≤ s &&& 0xFFFF#32))
      ∧ src = ((if d &&& 0xFFFF#32 ≤ s &&& 0xFFFF#32 then s &&& 0xFFFF#32
            else (s &&& 0xFFFF#32) + ((wh &&& 0x3FFF#32) - 1#32)) <<< 16)
          ||| (if d >>> 16 ≤ s >>> 16 then s >>> 16 else (s >>> 16) + ((wh >>> 16) - 1#32))
      ∧ dst = ((if d &&& 0xFFFF#32 ≤ s &&& 0xFFFF#32 then d &&& 0xFFFF#32
            else (d &&& 0xFFFF#32) + ((wh &&& 0x3FFF#32) - 1#32)) <<< 16)
          ||| (if d >>> 16 ≤ s >>> 16 then d >>> 16 else (d >>> 16) + ((wh >>> 16) - 1#32)) := by
  refine ⟨(e.cell.rd kDpCntl &&& ~~~3#32) ||| (if d >>> 16 ≤ s >>> 16 then 1#32 else 0#32)
    ||| (if d &&& 0xFFFF#32 ≤ s &&& 0xFFFF#32 then 2#32 else 0#32), _, _, ?_, ⟨?_, ?_⟩, rfl, rfl⟩
  · rw [cceRect, if_neg (by rintro (h | h); exacts [hw h, hh h])]
    simp only [decide_eq_true_eq]
    rw [e.cceRegWrite_dpCntl hon, cceRegWrite_srcYX (e.setReg kDpCntl _) hon,
      cceRegWrite_dstYX ((e.setReg kDpCntl _).setPair kSrcX kSrcY _) hon,
      cceRegWrite_heightWidth (((e.setReg kDpCntl _).setPair kSrcX kSrcY _).setPair kDstX kDstY _)
        hon]
    rfl
  · simp only [BitVec.getLsbD_or]
    by_cases hx : d >>> 16 ≤ s >>> 16 <;>
      by_cases hy : d &&& 0xFFFF#32 ≤ s &&& 0xFFFF#32 <;> simp [hx, hy]
  · simp only [BitVec.getLsbD_or]
    by_cases hx : d >>> 16 ≤ s >>> 16 <;>
      by_cases hy : d &&& 0xFFFF#32 ≤ s &&& 0xFFFF#32 <;> simp [hx, hy]

/-- Engines that differ in the registers of a rectangle at most. -/
structure SameSurface (c c' : R128Cell) : Prop where
  on : c'.eng2dOn = c.eng2dOn
  rd : ∀ off ∉ walkRegs, c'.rd off = c.rd off

theorem rasterOf_congr {c c' : R128Cell} (h : SameSurface c c') : c'.rasterOf = c.rasterOf := by
  unfold rasterOf
  rw [h.rd kDpDatatype (by decide), h.rd kDpMix (by decide), h.rd kDstPitch (by decide),
    h.rd kSrcPitch (by decide), h.rd kDstOffset (by decide), h.rd kSrcOffset (by decide),
    h.rd kDpWriteMsk (by decide), h.rd kDpBrushFrgdClr (by decide)]

theorem inScissor_congr {c c' : R128Cell} (h : SameSurface c c') (x y : ℕ) :
    InScissor c' x y ↔ InScissor c x y := by
  unfold InScissor
  rw [h.rd kScLeft (by decide), h.rd kScRight (by decide), h.rd kScTop (by decide),
    h.rd kScBottom (by decide)]

theorem walked_same (dir src dst hw : U32) : SameSurface e.cell (e.walked dir src dst hw).cell := by
  refine ⟨rfl, fun off hoff => ?_⟩
  simp only [walkRegs, List.mem_cons, List.not_mem_nil, or_false, not_or] at hoff
  rcases hoff with ⟨h1, h2, h3, h4, h5, h6, h7⟩
  simp only [walked, setPair, setReg]
  rw [rd_setReg_of_ne _ _ h7, rd_setReg_of_ne _ _ h6, rd_setReg_of_ne _ _ h5,
    rd_setReg_of_ne _ _ h4, rd_setReg_of_ne _ _ h3, rd_setReg_of_ne _ _ h2,
    rd_setReg_of_ne _ _ h1]

/-- The registers of a rectangle: each axis away from the overlap, from its far end where it is
reversed. -/
structure Walk (c : R128Cell) (t : BlitRect) : Prop where
  dirX : (c.rd kDpCntl).getLsbD 0 = decide (t.dx ≤ t.sx)
  dirY : (c.rd kDpCntl).getLsbD 1 = decide (t.dy ≤ t.sy)
  srcX : (c.rd kSrcX).toNat = if t.dx ≤ t.sx then t.sx else t.sx + (t.w - 1)
  srcY : (c.rd kSrcY).toNat = if t.dy ≤ t.sy then t.sy else t.sy + (t.h - 1)
  dstX : (c.rd kDstX).toNat = if t.dx ≤ t.sx then t.dx else t.dx + (t.w - 1)
  dstY : (c.rd kDstY).toNat = if t.dy ≤ t.sy then t.dy else t.dy + (t.h - 1)
  width : (c.rd kDstWidth).toNat = t.w
  height : (c.rd kDstHeight).toNat = t.h

/-- A far end is reached without a wrap. -/
theorem far_toNat (p : Prop) [Decidable p] {x w : U32} (hw : 0 < w.toNat)
    (h : x.toNat + w.toNat - 1 ≤ 8191) :
    (if p then x else x + (w - 1#32)).toNat
        = (if p then x.toNat else x.toNat + (w.toNat - 1))
      ∧ (if p then x else x + (w - 1#32)).toNat < 2 ^ 13 := by
  have hx := x.isLt
  have hsub : (w - 1#32).toNat = w.toNat - 1 := BitVec.toNat_sub_of_le (by
    rw [BitVec.le_def]
    exact hw)
  split
  · exact ⟨rfl, by omega⟩
  · rw [BitVec.toNat_add, hsub, Nat.mod_eq_of_lt (by omega)]
    exact ⟨rfl, by omega⟩

theorem cceRect_walk (hon : e.cell.eng2dOn = true) (s d wh : U32)
    (ht : (rectOfWords s d wh).Held) : ∃ e' : R128Eng, e.cceRect s d wh = e'.engBlit
      ∧ Walk e'.cell (rectOfWords s d wh) ∧ SameSurface e.cell e'.cell ∧ e'.vram = e.vram := by
  have hw0 : 0 < (wh >>> 16).toNat := ht.w.1
  have hh0 : 0 < (wh &&& 0x3FFF#32).toNat := ht.h.1
  have hw : wh >>> 16 ≠ 0#32 := by
    intro h0
    rw [h0] at hw0
    exact absurd hw0 (by decide)
  have hh : wh &&& 0x3FFF#32 ≠ 0#32 := by
    intro h0
    rw [h0] at hh0
    exact absurd hh0 (by decide)
  rcases e.cceRect_eq hon s d wh hw hh with ⟨dir, src, dst, heq, hdir, hsrc, hdst⟩
  have hsx := far_toNat (d >>> 16 ≤ s >>> 16) hw0 ht.src.1
  have hsy := far_toNat (d &&& 0xFFFF#32 ≤ s &&& 0xFFFF#32) hh0 ht.src.2
  have hdx := far_toNat (d >>> 16 ≤ s >>> 16) hw0 ht.dst.1
  have hdy := far_toNat (d &&& 0xFFFF#32 ≤ s &&& 0xFFFF#32) hh0 ht.dst.2
  have hwlt : (wh >>> 16).toNat < 8192 := ht.w.2
  have hhlt : (wh &&& 0x3FFF#32).toNat < 8192 := ht.h.2
  have hs := halves (hsx.2.trans (by decide)) (hsy.2.trans (by decide))
  have hd := halves (hdx.2.trans (by decide)) (hdy.2.trans (by decide))
  have hhw := halves (hwlt.trans (by decide) : _ < 2 ^ 14) (hhlt.trans (by decide))
  rw [← hsrc] at hs
  rw [← hdst] at hd
  refine ⟨_, heq, ?_, e.walked_same dir src dst _, rfl⟩
  constructor
  · exact hdir.1
  · exact hdir.2
  · exact (congrArg BitVec.toNat hs.1).trans hsx.1
  · exact (congrArg BitVec.toNat hs.2).trans hsy.1
  · exact (congrArg BitVec.toNat hd.1).trans hdx.1
  · exact (congrArg BitVec.toNat hd.2).trans hdy.1
  · exact congrArg BitVec.toNat hhw.1
  · exact congrArg BitVec.toNat hhw.2

/-- What a rectangle keeps of itself under the scissor. -/
structure Clipped (c : R128Cell) (t : BlitRect) (q : Rect) (i₀ j₀ : ℕ) : Prop where
  l2r : q.l2r = decide (t.dx ≤ t.sx)
  t2b : q.t2b = decide (t.dy ≤ t.sy)
  x0 : q.x0 = (t.dx + i₀ : ℕ)
  y0 : q.y0 = (t.dy + j₀ : ℕ)
  csx : q.csx = (t.sx + i₀ : ℕ)
  csy : q.csy = (t.sy + j₀ : ℕ)
  cw : 0 < q.cw ∧ i₀ + q.cw ≤ t.w
  ch : 0 < q.ch ∧ j₀ + q.ch ≤ t.h
  inside : ∀ i < t.w, ∀ j < t.h, InScissor c (t.dx + i) (t.dy + j) ↔
    (i₀ ≤ i ∧ i < i₀ + q.cw) ∧ (j₀ ≤ j ∧ j < j₀ + q.ch)

theorem bit_ne (x : U32) : (x &&& 0x1#32 ≠ 0#32 ↔ x.getLsbD 0 = true)
    ∧ (x &&& 0x2#32 ≠ 0#32 ↔ x.getLsbD 1 = true) :=
  ⟨and_twoPow_ne x 0, and_twoPow_ne x 1⟩

/-- A side starts where the rectangle does, whichever end is programmed. -/
theorem originOf_walk (p : Prop) [Decidable p] {n x : ℕ} (hn : 0 < n) {v : U32}
    (h : x + n - 1 ≤ 8191) (hv : v.toNat = if p then x else x + (n - 1)) :
    originOf (decide p) (n : ℤ) v = x := by
  have hlt : v.toNat < 0x2000 := by
    split at hv <;> omega
  simp only [originOf, decide_eq_true_eq, sx14_of_lt hlt, hv]
  split
  · rfl
  · omega

/-- **The clip.** A rectangle either has nothing inside the scissor, or is clipped to what it
has there. -/
theorem rectOf_walk (c : R128Cell) (t : BlitRect) (ht : t.Held) (hw : Walk c t) (u : Bool) :
    (c.rectOf u = none ∧ ∀ i < t.w, ∀ j < t.h, ¬ InScissor c (t.dx + i) (t.dy + j))
      ∨ ∃ q i₀ j₀, c.rectOf u = some q ∧ Clipped c t q i₀ j₀ := by
  have hbits := bit_ne (c.rd kDpCntl)
  have hl : decide (c.rd kDpCntl &&& 0x1#32 ≠ 0#32) = decide (t.dx ≤ t.sx) := by
    rw [← hw.dirX]
    exact (Bool.decide_congr hbits.1).trans Bool.decide_eq_true
  have ht' : decide (c.rd kDpCntl &&& 0x2#32 ≠ 0#32) = decide (t.dy ≤ t.sy) := by
    rw [← hw.dirY]
    exact (Bool.decide_congr hbits.2).trans Bool.decide_eq_true
  have hww : (c.rd kDstWidth &&& 0x1FFF#32).toNat = t.w := by
    rw [extent_of_lt (by rw [hw.width]; exact ht.w.2), hw.width]
  have hhh : (c.rd kDstHeight &&& 0x1FFF#32).toNat = t.h := by
    rw [extent_of_lt (by rw [hw.height]; exact ht.h.2), hw.height]
  have hdx := originOf_walk (t.dx ≤ t.sx) ht.w.1 ht.dst.1 hw.dstX
  have hdy := originOf_walk (t.dy ≤ t.sy) ht.h.1 ht.dst.2 hw.dstY
  have hsx := originOf_walk (t.dx ≤ t.sx) ht.w.1 ht.src.1 hw.srcX
  have hsy := originOf_walk (t.dy ≤ t.sy) ht.h.1 ht.src.2 hw.srcY
  have hw0 := ht.w.1
  have hh0 := ht.h.1
  obtain ⟨scl, hscl⟩ : ∃ s, sx14 (c.rd kScLeft) = s := ⟨_, rfl⟩
  obtain ⟨scr, hscr⟩ : ∃ s, sx14 (c.rd kScRight) = s := ⟨_, rfl⟩
  obtain ⟨sct, hsct⟩ : ∃ s, sx14 (c.rd kScTop) = s := ⟨_, rfl⟩
  obtain ⟨scb, hscb⟩ : ∃ s, sx14 (c.rd kScBottom) = s := ⟨_, rfl⟩
  have hins (x y : ℕ) : InScissor c x y ↔ scl ≤ x ∧ (x : ℤ) ≤ scr ∧ sct ≤ y ∧ (y : ℤ) ≤ scb := by
    rw [InScissor, hscl, hscr, hsct, hscb]
  unfold rectOf
  simp only [hl, ht', hww, hhh, hdx, hdy, hsx, hsy, hscl, hscr, hsct, hscb, hins]
  rw [if_neg (by omega)]
  split
  case isTrue hout =>
    refine Or.inl ⟨rfl, fun i hi j hj => ?_⟩
    omega
  case isFalse hin =>
    rw [if_neg (by omega)]
    -- what the clip cuts off on the left and the top is where the copy starts
    refine Or.inr ⟨_, (max (t.dx : ℤ) scl - t.dx).toNat, (max (t.dy : ℤ) sct - t.dy).toNat, rfl, ?_⟩
    constructor
    · rfl
    · rfl
    · simp only
      omega
    · simp only
      omega
    · simp only
      omega
    · simp only
      omega
    · simp only
      omega
    · simp only
      omega
    · intro i hi j hj
      rw [hins]
      simp only
      omega

end R128Eng

end OpenPowerMac
