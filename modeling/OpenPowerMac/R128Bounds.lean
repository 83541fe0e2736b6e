/-
Where the 2D engine reads and writes.

The check before a blit takes the first pixel of its last row for the end of it, so a blit may
run past the memory by the rest of that row: every byte is inside exactly when the last pixel
of the last row is, of the destination and of a source that is used.
-/
import OpenPowerMac.R128Engine

set_option autoImplicit false

namespace OpenPowerMac

/-- A run of bytes. -/
def InRun (o n x : ℕ) : Prop := o ≤ x ∧ x < o + n

instance (o n x : ℕ) : Decidable (InRun o n x) := inferInstanceAs (Decidable (_ ∧ _))

namespace Vram

variable (v : Vram)

theorem touch_touched (o n x : ℕ) :
    x ∈ (v.touch o n).touched ↔ x ∈ v.touched ∨ InRun o n x := by
  rw [touch, List.mem_append]
  refine or_congr Iff.rfl ?_
  simp only [List.mem_map, List.mem_range, InRun]
  constructor
  · rintro ⟨k, hk, rfl⟩
    omega
  · rintro ⟨hle, hlt⟩
    exact ⟨x - o, by omega, by omega⟩

theorem putPix_touched (bypp : ℕ) (mask : U32) (o : ℕ) (y : U32) (x : ℕ) :
    x ∈ (v.putPix bypp mask o y).touched ↔ x ∈ v.touched ∨ InRun o bypp x := by
  rw [putPix]
  split
  · refine ((v.touch o bypp).touch_touched o bypp x).trans ?_
    rw [touch_touched, or_assoc, or_self]
  · exact v.touch_touched o bypp x

theorem memmove_touched (d s n x : ℕ) :
    x ∈ (v.memmove d s n).touched ↔ x ∈ v.touched ∨ InRun d n x ∨ InRun s n x := by
  refine ((v.touch s n).touch_touched d n x).trans ?_
  rw [touch_touched, or_assoc, @or_comm (InRun s n x)]

/-- A loop touches what its turns touch. -/
theorem foldl_touched {ι : Type} (f : Vram → ι → Vram) (P : ι → ℕ → Prop)
    (hf : ∀ v i x, x ∈ (f v i).touched ↔ x ∈ v.touched ∨ P i x) (l : List ι) (x : ℕ) :
    x ∈ (l.foldl f v).touched ↔ x ∈ v.touched ∨ ∃ i ∈ l, P i x := by
  induction l generalizing v with
  | nil => simp
  | cons i l ih => rw [List.foldl_cons, ih, hf, or_assoc, List.exists_mem_cons_iff]

end Vram

/-- What a loop keeps. -/
theorem Vram.foldl_size {ι : Type} (f : Vram → ι → Vram) (hf : ∀ v i, (f v i).size = v.size)
    (v : Vram) (l : List ι) : (l.foldl f v).size = v.size := by
  induction l generalizing v with
  | nil => rfl
  | cons i l ih => rw [List.foldl_cons, ih, hf]

namespace Blit

variable (b : Blit)

/-- The bytes of a pixel of the rectangle, and of its source where that is used. -/
def PixelAt (r c x : ℕ) : Prop :=
  InRun (b.dstAt r + c * b.bypp) b.bypp x
    ∨ (b.usesSrc = true ∧ InRun (b.srcAt r + c * b.bypp) b.bypp x)

theorem rowAt_lt {r : ℕ} (h : r < b.ch) : b.rowAt r < b.ch := by
  rw [rowAt]
  split <;> omega

theorem rowAt_rowAt {r : ℕ} (h : r < b.ch) : b.rowAt (b.rowAt r) = r := by
  simp only [rowAt]
  split <;> omega

theorem colAt_lt {c : ℕ} (h : c < b.cw) : b.colAt c < b.cw := by
  rw [colAt]
  split <;> omega

theorem colAt_colAt {c : ℕ} (h : c < b.cw) : b.colAt (b.colAt c) = c := by
  simp only [colAt]
  split <;> omega

/-- However the rows are walked, all of them are. -/
theorem exists_row (P : ℕ → Prop) :
    (∃ r ∈ List.range b.ch, P (b.rowAt r)) ↔ ∃ r < b.ch, P r := by
  simp only [List.mem_range]
  constructor
  · rintro ⟨r, hr, hp⟩
    exact ⟨_, b.rowAt_lt hr, hp⟩
  · rintro ⟨r, hr, hp⟩
    exact ⟨b.rowAt r, b.rowAt_lt hr, by rwa [b.rowAt_rowAt hr]⟩

theorem exists_col (P : ℕ → Prop) :
    (∃ c ∈ List.range b.cw, P (b.colAt c)) ↔ ∃ c < b.cw, P c := by
  simp only [List.mem_range]
  constructor
  · rintro ⟨c, hc, hp⟩
    exact ⟨_, b.colAt_lt hc, hp⟩
  · rintro ⟨c, hc, hp⟩
    exact ⟨b.colAt c, b.colAt_lt hc, by rwa [b.colAt_colAt hc]⟩

/-- A row of pixels is a run of bytes. -/
theorem exists_pixel (o n w x : ℕ) (hw : 0 < w) :
    (∃ c < n, InRun (o + c * w) w x) ↔ InRun o (n * w) x := by
  simp only [InRun]
  constructor
  · rintro ⟨c, hc, hle, hlt⟩
    have : (c + 1) * w ≤ n * w := Nat.mul_le_mul_right w hc
    rw [Nat.add_mul, Nat.one_mul] at this
    omega
  · rintro ⟨hle, hlt⟩
    refine ⟨(x - o) / w, (Nat.div_lt_iff_lt_mul hw).mpr (by omega), ?_, ?_⟩
    · have := Nat.div_mul_le_self (x - o) w
      omega
    · have := Nat.lt_div_mul_add (a := x - o) hw
      omega

theorem drawFill_touched (v : Vram) (hsrc : b.usesSrc = false) (x : ℕ) :
    x ∈ (b.drawFill v).touched ↔ x ∈ v.touched ∨ ∃ r < b.ch, ∃ c < b.cw, b.PixelAt r c x := by
  have hrow (v : Vram) (r x : ℕ) := Vram.foldl_touched v
    (fun v c => v.putPix b.bypp b.mask (b.dstAt r + c * b.bypp) (rop3 b.rop b.pat 0#32 0#32))
    (fun c => InRun (b.dstAt r + c * b.bypp) b.bypp) (fun v _ x => v.putPix_touched _ _ _ _ x)
    (List.range b.cw) x
  refine (Vram.foldl_touched v _ _ hrow (List.range b.ch) x).trans ?_
  simp [PixelAt, hsrc]

theorem drawPixel_touched (v : Vram) (dp sp x : ℕ) :
    x ∈ (b.drawPixel v dp sp).touched ↔ x ∈ v.touched ∨ InRun dp b.bypp x
      ∨ (b.usesSrc = true ∧ InRun sp b.bypp x) := by
  rw [drawPixel, Vram.putPix_touched]
  cases b.usesSrc <;> cases b.usesDst <;> simp [Vram.pixAt, Vram.touch_touched] <;> tauto

theorem drawPixels_touched (v : Vram) (x : ℕ) :
    x ∈ (b.drawPixels v).touched ↔ x ∈ v.touched ∨ ∃ r < b.ch, ∃ c < b.cw, b.PixelAt r c x := by
  have hrow (v : Vram) (r x : ℕ) := Vram.foldl_touched v
    (fun v c => b.drawPixel v (b.dstAt (b.rowAt r) + b.colAt c * b.bypp)
      (b.srcAt (b.rowAt r) + b.colAt c * b.bypp))
    (fun c => b.PixelAt (b.rowAt r) (b.colAt c)) (fun v _ x => b.drawPixel_touched v _ _ x)
    (List.range b.cw) x
  refine (Vram.foldl_touched v _ _ hrow (List.range b.ch) x).trans (or_congr Iff.rfl ?_)
  refine (b.exists_row fun r => ∃ c ∈ List.range b.cw, b.PixelAt r (b.colAt c) x).trans ?_
  exact exists_congr fun r => and_congr Iff.rfl (b.exists_col fun c => b.PixelAt r c x)

theorem drawCopy_touched (v : Vram) (hsrc : b.usesSrc = true) (hbypp : 0 < b.bypp) (x : ℕ) :
    x ∈ (b.drawCopy v).touched ↔ x ∈ v.touched ∨ ∃ r < b.ch, ∃ c < b.cw, b.PixelAt r c x := by
  refine (Vram.foldl_touched v
    (fun v r => v.memmove (b.dstAt (b.rowAt r)) (b.srcAt (b.rowAt r)) (b.cw * b.bypp)) _
    (fun v r x => v.memmove_touched _ _ _ x) (List.range b.ch) x).trans (or_congr Iff.rfl ?_)
  refine (b.exists_row fun r => InRun (b.dstAt r) (b.cw * b.bypp) x
    ∨ InRun (b.srcAt r) (b.cw * b.bypp) x).trans ?_
  refine exists_congr fun r => and_congr Iff.rfl ?_
  rw [← exists_pixel _ _ _ _ hbypp, ← exists_pixel _ _ _ _ hbypp]
  simp only [PixelAt, hsrc, true_and, and_or_left, exists_or]

/-- **What a blit touches**, however it is drawn: the pixels of its rectangle and their
sources. -/
theorem draw_touched (v : Vram) (hbypp : 0 < b.bypp) (x : ℕ) :
    x ∈ (b.draw v).touched ↔ x ∈ v.touched ∨ ∃ r < b.ch, ∃ c < b.cw, b.PixelAt r c x := by
  rw [draw]
  split
  case isTrue h => exact b.drawFill_touched v (Bool.eq_false_of_not_eq_true h.1) x
  split
  case isTrue h =>
    apply b.drawCopy_touched v _ hbypp
    rw [Raster.usesSrc, h.1]
    decide
  case isFalse => exact b.drawPixels_touched v x

theorem putPix_size (v : Vram) (bypp : ℕ) (mask : U32) (o : ℕ) (y : U32) :
    (v.putPix bypp mask o y).size = v.size := by
  unfold Vram.putPix
  split <;> rfl

theorem drawPixel_size (v : Vram) (dp sp : ℕ) : (b.drawPixel v dp sp).size = v.size := by
  rw [drawPixel, putPix_size]
  cases b.usesSrc <;> cases b.usesDst <;> rfl

theorem draw_size (v : Vram) : (b.draw v).size = v.size := by
  unfold draw
  split
  · exact Vram.foldl_size _
      (fun v _ => Vram.foldl_size _ (fun v _ => putPix_size v _ _ _ _) v _) v _
  split
  · exact Vram.foldl_size (fun v r =>
      v.memmove (b.dstAt (b.rowAt r)) (b.srcAt (b.rowAt r)) (b.cw * b.bypp)) (fun _ _ => rfl) v _
  · exact Vram.foldl_size _
      (fun v _ => Vram.foldl_size _ (fun v _ => b.drawPixel_size v _ _) v _) v _

/-- The end of the last row of the rectangle, and of the source's where it is used. -/
def FarCornerInside (size : ℕ) : Prop :=
  b.dstAt (b.ch - 1) + b.cw * b.bypp ≤ size
    ∧ (b.usesSrc = true → b.srcAt (b.ch - 1) + b.cw * b.bypp ≤ size)

theorem dstAt_le {r : ℕ} (h : r < b.ch) : b.dstAt r ≤ b.dstAt (b.ch - 1) := by
  have : (b.y0.toNat + r) * b.dstStride ≤ (b.y0.toNat + (b.ch - 1)) * b.dstStride :=
    Nat.mul_le_mul_right _ (by omega)
  simp only [dstAt]
  omega

theorem srcAt_le {r : ℕ} (h : r < b.ch) : b.srcAt r ≤ b.srcAt (b.ch - 1) := by
  have : (b.csy.toNat + r) * b.srcStride ≤ (b.csy.toNat + (b.ch - 1)) * b.srcStride :=
    Nat.mul_le_mul_right _ (by omega)
  simp only [srcAt]
  omega

/-- The pixels of a rectangle are inside where its far corner is. -/
theorem pixels_inside_iff (size : ℕ) (hw : 0 < b.cw) (hh : 0 < b.ch) (hbypp : 0 < b.bypp) :
    (∀ x, (∃ r < b.ch, ∃ c < b.cw, b.PixelAt r c x) → x < size) ↔ b.FarCornerInside size := by
  have hmul : b.cw * b.bypp = (b.cw - 1) * b.bypp + b.bypp := by
    rw [← Nat.add_one_mul, Nat.sub_add_cancel hw]
  constructor
  · intro h
    constructor
    · -- the last byte of the last pixel
      have := h (b.dstAt (b.ch - 1) + (b.cw - 1) * b.bypp + (b.bypp - 1))
        ⟨b.ch - 1, by omega, b.cw - 1, by omega, Or.inl ⟨by omega, by omega⟩⟩
      omega
    · intro hsrc
      have := h (b.srcAt (b.ch - 1) + (b.cw - 1) * b.bypp + (b.bypp - 1))
        ⟨b.ch - 1, by omega, b.cw - 1, by omega, Or.inr ⟨hsrc, by omega, by omega⟩⟩
      omega
  · rintro ⟨hdst, hsrc⟩ x ⟨r, hr, c, hc, hx⟩
    have hcol : (c + 1) * b.bypp ≤ b.cw * b.bypp := Nat.mul_le_mul_right _ hc
    rw [Nat.add_mul, Nat.one_mul] at hcol
    rcases hx with ⟨-, hx⟩ | ⟨hs, -, hx⟩
    · have := b.dstAt_le hr
      omega
    · have := b.srcAt_le hr
      have := hsrc hs
      omega

end Blit

namespace R128Cell

variable (c : R128Cell)

theorem bppOf_eq {dt : U32} {bpp : ℕ} (h : bppOf dt = some bpp) :
    bpp = 8 ∨ bpp = 16 ∨ bpp = 24 ∨ bpp = 32 := by
  unfold bppOf at h
  split at h <;> simp_all

theorem rasterOf_bpp {r : Raster} (h : c.rasterOf = some r) :
    r.bpp = 8 ∨ r.bpp = 16 ∨ r.bpp = 24 ∨ r.bpp = 32 := by
  unfold rasterOf at h
  simp only at h
  split at h
  case h_1 => cases h
  case h_2 bpp hbpp =>
    split at h; · cases h
    split at h; · cases h
    split at h; · cases h
    split at h; · cases h
    split at h; · cases h
    cases h
    exact bppOf_eq hbpp

theorem Raster.bypp_pos {r : Raster} (h : r.bpp = 8 ∨ r.bpp = 16 ∨ r.bpp = 24 ∨ r.bpp = 32) :
    0 < r.bypp := by
  unfold Raster.bypp
  omega

theorem rectOf_pos {usesSrc : Bool} {t : Rect} (h : c.rectOf usesSrc = some t) :
    0 < t.cw ∧ 0 < t.ch := by
  unfold rectOf at h
  simp only at h
  split at h; · cases h
  split at h; · cases h
  case isFalse hin =>
    split at h; · cases h
    cases h
    simp only
    omega

theorem blitOf_eq {size : ℕ} {b : Blit} (h : c.blitOf size = some b) :
    c.rasterOf = some b.toRaster ∧ c.rectOf b.usesSrc = some b.toRect := by
  unfold blitOf at h
  split at h
  case h_1 => cases h
  case h_2 r hr =>
    split at h
    case h_1 => cases h
    case h_2 t ht =>
      split at h; · cases h
      cases h
      exact ⟨hr, ht⟩

end R128Cell

namespace R128Eng

variable (e : R128Eng)

/-- A call of `engWrite`, with the plain store of what it does not absorb. -/
def engCall (w : U32 × U32) : R128Eng :=
  let r := e.engWrite w.1 w.2
  if r.1 then r.2 else r.2.setReg w.1 w.2

/-- Calls one after the other. -/
def engRun (ws : List (U32 × U32)) : R128Eng := ws.foldl engCall e

/-- A write at which the engine keeps inside: a blit it starts ends there. -/
def StartsInside (w : U32 × U32) : Prop :=
  ∀ e' b, e.initiate w.1 w.2 = some e' → e'.cell.blitOf e.vram.size = some b →
    b.FarCornerInside e.vram.size

/-- Every write of a run, with the engine as it is by then. -/
def AllStartInside : R128Eng → List (U32 × U32) → Prop
  | _, [] => True
  | e, w :: ws => e.StartsInside w ∧ AllStartInside (e.engCall w) ws

/-! ### What changes the memory -/

@[simp] theorem setReg_vram (off v : U32) : (e.setReg off v).vram = e.vram := rfl

@[simp] theorem setPair_vram (lo hi v : U32) : (e.setPair lo hi v).vram = e.vram := rfl

@[simp] theorem setPitchOffset_vram (offset pitch v : U32) :
    (e.setPitchOffset offset pitch v).vram = e.vram := rfl

@[simp] theorem guiMasterCntl_vram (v : U32) : (e.guiMasterCntl v).vram = e.vram := by
  simp [guiMasterCntl, apply_ite R128Eng.vram]

theorem eng3dWrite_vram (off v : U32) : (e.eng3dWrite off v).2.vram = e.vram := by
  simp [eng3dWrite, apply_ite Prod.snd, apply_ite R128Eng.vram]

theorem engStore_vram (off v : U32) : (e.engStore off v).2.vram = e.vram := by
  simp [engStore, apply_ite Prod.snd, apply_ite R128Eng.vram]

/-- The 3D unit's registers are no initiators. -/
theorem initiate_of_le (off v : U32) (h : 0x1A00#32 ≤ off) : e.initiate off v = none := by
  have hne (k : U32) (hk : k < 0x1A00#32) : off ≠ k := by
    rintro rfl
    exact absurd hk (BitVec.not_lt.mpr h)
  unfold initiate
  rw [if_neg, if_neg, if_neg, if_neg]
  · rintro (h | h) <;> exact hne _ (by decide) h
  · exact hne _ (by decide)
  · exact hne _ (by decide)
  · rintro (h | h) <;> exact hne _ (by decide) h

theorem initiate_vram {off v : U32} {e' : R128Eng} (h : e.initiate off v = some e') :
    e'.vram = e.vram := by
  unfold initiate at h
  split at h
  · cases h
    rfl
  split at h
  · cases h
    rfl
  split at h
  · cases h
    rfl
  split at h
  · cases h
    rfl
  · cases h

theorem eng2dWrite_vram (off v : U32) : (e.eng2dWrite off v).2.vram =
    match e.initiate off v with
    | some e' => e'.engBlit.vram
    | none => e.vram := by
  unfold eng2dWrite
  cases e.initiate off v with
  | none => exact e.engStore_vram off v
  | some e' =>
    simp only
    split <;> rfl

/-- A write changes the memory by the blit it starts. -/
theorem engCall_vram (w : U32 × U32) : (e.engCall w).vram =
    match e.initiate w.1 w.2 with
    | some e' => e'.engBlit.vram
    | none => e.vram := by
  have hstore (r : Bool × R128Eng) :
      (if r.1 then r.2 else r.2.setReg w.1 w.2).vram = r.2.vram := by
    split <;> rfl
  rw [engCall, hstore, engWrite]
  split
  case isTrue hle =>
    have hnone := e.initiate_of_le w.1 w.2 hle
    have h3 := e.eng3dWrite_vram w.1 w.2
    rw [hnone]
    simp only
    split
    · exact h3
    · rw [eng2dWrite_vram, initiate_of_le _ _ _ hle]
      exact h3
  case isFalse => exact e.eng2dWrite_vram w.1 w.2

theorem engBlit_cell : e.engBlit.cell = e.cell := by
  unfold engBlit
  split <;> rfl

theorem engBlit_size : e.engBlit.vram.size = e.vram.size := by
  unfold engBlit
  split
  · rfl
  · exact Blit.draw_size _ _

/-! ### Runs -/

theorem engCall_size (w : U32 × U32) : (e.engCall w).vram.size = e.vram.size := by
  rw [engCall_vram]
  cases hi : e.initiate w.1 w.2 with
  | none => rfl
  | some e' =>
    rw [← e.initiate_vram hi]
    exact e'.engBlit_size

/-- One write: every byte it touches is inside exactly when a blit it starts ends inside. -/
theorem engCall_inside_iff (w : U32 × U32) :
    (∀ x ∈ (e.engCall w).vram.touched, x < e.vram.size) ↔
      (∀ x ∈ e.vram.touched, x < e.vram.size) ∧ e.StartsInside w := by
  rw [engCall_vram]
  unfold StartsInside
  cases hi : e.initiate w.1 w.2 with
  | none => simp
  | some e' =>
    have hv := e.initiate_vram hi
    simp only [Option.some.injEq, engBlit, hv]
    cases hb : e'.cell.blitOf e.vram.size with
    | none =>
      refine ⟨fun h => ⟨by rwa [hv] at h, ?_⟩, fun h => by rw [hv]; exact h.1⟩
      rintro e'' b rfl hb'
      rw [hb] at hb'
      cases hb'
    | some b =>
      have hof := e'.cell.blitOf_eq hb
      have hbypp : 0 < b.bypp := R128Cell.Raster.bypp_pos (e'.cell.rasterOf_bpp hof.1)
      have hpos := e'.cell.rectOf_pos hof.2
      have hpix := b.pixels_inside_iff e.vram.size hpos.1 hpos.2 hbypp
      simp only [b.draw_touched e.vram hbypp, or_imp, forall_and, hpix]
      refine and_congr Iff.rfl ⟨fun h => ?_, fun h => h e' b rfl hb⟩
      rintro e'' b' rfl hb'
      rw [hb] at hb'
      cases hb'
      exact h

theorem engRun_inside_iff (ws : List (U32 × U32)) :
    (∀ x ∈ (e.engRun ws).vram.touched, x < e.vram.size) ↔
      (∀ x ∈ e.vram.touched, x < e.vram.size) ∧ e.AllStartInside ws := by
  induction ws generalizing e with
  | nil => simp [engRun, AllStartInside]
  | cons w ws ih =>
    have hrest := ih (e.engCall w)
    have hone := e.engCall_inside_iff w
    rw [engCall_size] at hrest
    rw [AllStartInside, ← and_assoc, ← hone]
    exact hrest

/-- **Inside.** From any registers and over any memory, every byte that any sequence of writes
makes the engine touch is in the memory exactly when each blit of the sequence ends its last row
there. -/
theorem touched_inside_iff (c : R128Cell) (g : Cce3d) (size : ℕ) (bytes : ℕ → U8)
    (ws : List (U32 × U32)) :
    (∀ x ∈ (engRun ⟨c, ⟨size, bytes, []⟩, g⟩ ws).vram.touched, x < size) ↔
      AllStartInside ⟨c, ⟨size, bytes, []⟩, g⟩ ws := by
  refine (engRun_inside_iff ⟨c, ⟨size, bytes, []⟩, g⟩ ws).trans ?_
  refine and_iff_right ?_
  intro x hx
  exact absurd hx List.not_mem_nil

/-- A black row of 33 pixels at 8 bits, from 32 bytes before the end of the memory. -/
def overrunWrites : List (U32 × U32) :=
  [(0x142C#32, 0x002FFFFF#32), (0x146C#32, 0x0000020F#32), (0x16F0#32, 0x1FFF1FFF#32),
    (0x143C#32, 0x00010021#32)]

theorem overrun_touches :
    ¬ ∀ x ∈ (engRun ⟨R128Cell.powerOn, ⟨0x2000000, fun _ => 0#8, []⟩, .reset⟩
        overrunWrites).vram.touched, x < 0x2000000 := by
  intro h
  have hmem : 0x2000000 ∈ (engRun ⟨R128Cell.powerOn, ⟨0x2000000, fun _ => 0#8, []⟩, .reset⟩
      overrunWrites).vram.touched := by
    decide
  exact absurd (h _ hmem) (by decide)

end R128Eng

end OpenPowerMac
