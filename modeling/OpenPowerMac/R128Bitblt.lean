/-
The screen-to-screen packets against the picture they are to copy.

Each rectangle of a packet is drawn as from the memory as it was before it, whatever overlaps.
A rectangle of 8192 lines is not drawn: the engine has 13 bits for an extent.
-/
import OpenPowerMac.R128Walk

set_option autoImplicit false

namespace OpenPowerMac

/-! ## What a packet asks for -/

/-- The rectangles of a body. -/
def rectsOf : List U32 → List BlitRect
  | s :: d :: wh :: body => rectOfWords s d wh :: rectsOf body
  | _ => []

/-- Where a pixel of the destination's surface stands. -/
def Raster.at' (r : Raster) (x y : ℕ) : ℕ := pixelAt r.dstOff r.dstStride r.bypp x y

/-- A rectangle copied: each pixel inside the scissor is mixed from its source and itself as
they were, and every other byte is kept. -/
structure Copied (c : R128Cell) (r : Raster) (t : BlitRect) (m m' : ℕ → U8) : Prop where
  pixels : ∀ i < t.w, ∀ j < t.h, InScissor c (t.dx + i) (t.dy + j) → ∀ k < r.bypp,
    m' (r.at' (t.dx + i) (t.dy + j) + k) =
      (r.mixed (c.rd R128Cell.kDpBrushFrgdClr) (pixOf m r.bypp (r.at' (t.sx + i) (t.sy + j)))
        (pixOf m r.bypp (r.at' (t.dx + i) (t.dy + j))) >>> (8 * (r.bypp - 1 - k))).setWidth 8
  others : ∀ a, (∀ i < t.w, ∀ j < t.h, InScissor c (t.dx + i) (t.dy + j) →
    ¬ InRun (r.at' (t.dx + i) (t.dy + j)) r.bypp a) → m' a = m a

/-- Rectangles copied one after the other. -/
def CopiedAll (c : R128Cell) (r : Raster) : List BlitRect → (ℕ → U8) → (ℕ → U8) → Prop
  | [], m, m' => m' = m
  | t :: ts, m, m' => ∃ m₁, Copied c r t m m₁ ∧ CopiedAll c r ts m₁ m'

/-- A rectangle whose two places lie inside the pitch, the memory and the coordinates. -/
structure BlitRect.Fits (t : BlitRect) (r : Raster) (size : ℕ) : Prop where
  srcPitch : (t.sx + t.w) * r.bypp ≤ r.dstStride
  dstPitch : (t.dx + t.w) * r.bypp ≤ r.dstStride
  srcEnd : r.dstOff + (t.sy + t.h - 1) * r.dstStride + (t.sx + t.w) * r.bypp ≤ size
  dstEnd : r.dstOff + (t.dy + t.h - 1) * r.dstStride + (t.dx + t.w) * r.bypp ≤ size
  srcCorner : t.sx + t.w - 1 ≤ 8191 ∧ t.sy + t.h - 1 ≤ 8191
  dstCorner : t.dx + t.w - 1 ≤ 8191 ∧ t.dy + t.h - 1 ≤ 8191

namespace R128Eng

open R128Cell

variable (e : R128Eng)

/-! ## A rectangle drawn -/

/-- What an operation accepted comes to. -/
theorem rasterOf_eq (c : R128Cell) {r : Raster} (h : c.rasterOf = some r) :
    (0 < r.bypp ∧ r.bypp ≤ 4) ∧ r.dstStride ≤ 8184 * r.bypp
      ∧ r.pat = if ropUsesPat r.rop then c.rd kDpBrushFrgdClr else 0#32 := by
  have hbpp := c.rasterOf_bpp h
  refine ⟨⟨Raster.bypp_pos hbpp, by unfold Raster.bypp; omega⟩, ?_⟩
  unfold rasterOf at h
  simp only at h
  split at h
  case h_1 => cases h
  case h_2 bpp hbpp' =>
    split at h; · cases h
    split at h; · cases h
    split at h; · cases h
    split at h; · cases h
    split at h; · cases h
    cases h
    refine ⟨?_, rfl⟩
    -- ten bits of a pitch, in units of eight pixels
    have hp : (c.rd kDstPitch &&& 0x3FF#32).toNat ≤ 1023 := by
      rw [BitVec.toNat_and]
      exact Nat.and_le_right
    simp only [strideOf, Raster.bypp] at hbpp ⊢
    rcases hbpp with rfl | rfl | rfl | rfl
    · rw [if_neg (by decide)]
      omega
    · rw [if_neg (by decide)]
      omega
    · rw [if_pos rfl]
      omega
    · rw [if_neg (by decide)]
      omega

/-- A row that ends inside ends its clipped part inside. -/
theorem lastByte_le {bypp off stride size x y w h i j : ℕ} {cw ch : ℕ} {px py : ℤ}
    (hx : px = (x + i : ℕ)) (hy : py = (y + j : ℕ)) (hw : 0 < cw ∧ i + cw ≤ w)
    (hh : 0 < ch ∧ j + ch ≤ h) (hend : off + (y + h - 1) * stride + (x + w) * bypp ≤ size) :
    lastByte bypp off stride px py ch ≤ size := by
  refine le_trans ?_ hend
  have hrow : (py + ch - 1).toNat ≤ y + h - 1 := by omega
  have hcol : px.toNat + 1 ≤ x + w := by omega
  have h1 := Nat.mul_le_mul_right stride hrow
  have h2 := Nat.mul_le_mul_right bypp hcol
  rw [Nat.add_one_mul] at h2
  unfold lastByte
  omega

/-- The blit of a clipped rectangle is on its surface. -/
theorem clipped_onSurface {c : R128Cell} {t : BlitRect} {r : Raster} {q : Rect} {i₀ j₀ size : ℕ}
    (hq : Clipped c t q i₀ j₀) (hfit : t.Fits r size) (hoff : r.srcOff = r.dstOff)
    (hstride : r.srcStride = r.dstStride) : (Blit.mk r q).OnSurface := by
  have hx : q.x0.toNat = t.dx + i₀ := by rw [hq.x0]; rfl
  have hy : q.y0.toNat = t.dy + j₀ := by rw [hq.y0]; rfl
  have hsx : q.csx.toNat = t.sx + i₀ := by rw [hq.csx]; rfl
  have hsy : q.csy.toNat = t.sy + j₀ := by rw [hq.csy]; rfl
  have hcw := hq.cw.2
  constructor
  · exact hoff
  · exact hstride
  · refine le_trans (Nat.mul_le_mul_right _ ?_) hfit.dstPitch
    simp only [hx]
    omega
  · refine le_trans (Nat.mul_le_mul_right _ ?_) hfit.srcPitch
    simp only [hsx]
    omega
  · simp only [hx, hsx, hq.l2r, decide_eq_decide]
    omega
  · simp only [hy, hsy, hq.t2b, decide_eq_decide]
    omega

/-- **A rectangle.** Whatever overlaps, it is drawn as from the memory as it was. -/
theorem engBlit_copied {r : Raster} {t : BlitRect} (hr : e.cell.rasterOf = some r)
    (hoff : r.srcOff = r.dstOff) (hstride : r.srcStride = r.dstStride) (ht : t.Held)
    (hw : Walk e.cell t) (hfit : t.Fits r e.vram.size) :
    Copied e.cell r t e.vram.bytes e.engBlit.vram.bytes := by
  rcases rectOf_walk e.cell t ht hw r.usesSrc with ⟨hnone, hout⟩ | ⟨q, i₀, j₀, hq, hclip⟩
  · have hblit : e.engBlit = e := by
      simp only [engBlit, blitOf, hr, hnone]
    rw [hblit]
    exact ⟨fun i hi j hj hin => absurd hin (hout i hi j hj), fun a _ => rfl⟩
  · -- the check of the ends passes
    have hd := lastByte_le hclip.x0 hclip.y0 hclip.cw hclip.ch hfit.dstEnd
    have hs := lastByte_le hclip.csx hclip.csy hclip.cw hclip.ch hfit.srcEnd
    have hsurf := clipped_onSurface hclip hfit hoff hstride
    have hof := rasterOf_eq e.cell hr
    have hblit : e.engBlit.vram = (Blit.mk r q).draw e.vram := by
      simp only [engBlit, blitOf, hr, hq]
      rw [if_neg]
      rintro (h | ⟨-, h⟩)
      · exact absurd hd (Nat.not_le.mpr h)
      · rw [hoff, hstride] at h
        exact absurd hs (Nat.not_le.mpr h)
    rw [hblit]
    have hdst (i j : ℕ) : (Blit.mk r q).dstAt j + i * r.bypp
        = r.at' (t.dx + i₀ + i) (t.dy + j₀ + j) := by
      refine ((Blit.mk r q).dst_pixel j i).trans ?_
      simp only [hclip.x0, hclip.y0, Int.toNat_natCast]
      rfl
    have hsrc (i j : ℕ) : (Blit.mk r q).srcAt j + i * r.bypp
        = r.at' (t.sx + i₀ + i) (t.sy + j₀ + j) := by
      refine ((Blit.mk r q).src_pixel hsurf j i).trans ?_
      simp only [hclip.csx, hclip.csy, Int.toNat_natCast]
      rfl
    constructor
    · rintro i hi j hj hin k hk
      rcases (hclip.inside i hi j hj).mp hin with ⟨⟨hi₀, hi₁⟩, hj₀, hj₁⟩
      rcases Nat.exists_eq_add_of_le hi₀ with ⟨i, rfl⟩
      rcases Nat.exists_eq_add_of_le hj₀ with ⟨j, rfl⟩
      have hpix := (Blit.mk r q).draw_pixel hsurf hof.1.1 hof.1.2 e.vram (r := j) (c := i)
        (by simp only; omega) (by simp only; omega)
        (a := (Blit.mk r q).dstAt j + i * r.bypp + k) ⟨Nat.le_add_right _ _, by simp only; omega⟩
      rw [(Blit.mk r q).pixel_byte (e.cell.rd kDpBrushFrgdClr) hof.2.2 _ _ _ hk, hdst, hsrc] at hpix
      simp only [Nat.add_assoc] at hpix ⊢
      exact hpix
    · intro a ha
      apply (Blit.mk r q).draw_other hsurf hof.1.1 hof.1.2 e.vram
      intro j hj i hi
      have hi' : i < q.cw := hi
      have hj' : j < q.ch := hj
      have hcw := hclip.cw.2
      have hch := hclip.ch.2
      rw [hdst, Nat.add_assoc, Nat.add_assoc]
      exact ha _ (by omega) _ (by omega)
        ((hclip.inside _ (by omega) _ (by omega)).mpr ⟨⟨by omega, by omega⟩, by omega, by omega⟩)

/-! ## A packet -/

theorem copied_congr {c c' : R128Cell} (h : SameSurface c c') {r : Raster} {t : BlitRect}
    {m m' : ℕ → U8} (hc : Copied c' r t m m') : Copied c r t m m' := by
  rcases hc with ⟨hpix, hoth⟩
  simp only [inScissor_congr h] at hpix hoth
  rw [h.rd kDpBrushFrgdClr (by decide)] at hpix
  exact ⟨hpix, hoth⟩

theorem copiedAll_congr {c c' : R128Cell} (h : SameSurface c c') {r : Raster} {ts : List BlitRect}
    {m m' : ℕ → U8} (hc : CopiedAll c' r ts m m') : CopiedAll c r ts m m' := by
  induction ts generalizing m with
  | nil => exact hc
  | cons t ts ih =>
    rcases hc with ⟨m₁, ht, hts⟩
    exact ⟨m₁, copied_congr h ht, ih hts⟩

/-- The engine has the bits for a rectangle inside the pitch, but for its height. -/
theorem held_of_fits {c : R128Cell} {r : Raster} (hr : c.rasterOf = some r) {t : BlitRect}
    {size : ℕ} (hfit : t.Fits r size) (hw : 0 < t.w) (hh : 0 < t.h) (hlt : t.h ≤ 8191) :
    t.Held := by
  have hof := rasterOf_eq c hr
  have hle : t.w ≤ 8184 := by
    apply Nat.le_of_mul_le_mul_right _ hof.1.1
    exact ((Nat.mul_le_mul_right _ (Nat.le_add_left _ _)).trans hfit.dstPitch).trans hof.2.1
  exact ⟨⟨hw, by omega⟩, ⟨hh, by omega⟩, hfit.srcCorner, hfit.dstCorner⟩

/-- One rectangle of a packet, drawn or empty. -/
theorem cceRect_copied {r : Raster} (hon : e.cell.eng2dOn = true) (hr : e.cell.rasterOf = some r)
    (hoff : r.srcOff = r.dstOff) (hstride : r.srcStride = r.dstStride) (s d wh : U32)
    (hfit : 0 < (rectOfWords s d wh).w → 0 < (rectOfWords s d wh).h →
      (rectOfWords s d wh).Fits r e.vram.size ∧ (rectOfWords s d wh).h ≤ 8191) :
    Copied e.cell r (rectOfWords s d wh) e.vram.bytes (e.cceRect s d wh).vram.bytes
      ∧ SameSurface e.cell (e.cceRect s d wh).cell
      ∧ (e.cceRect s d wh).vram.size = e.vram.size := by
  by_cases hpos : 0 < (rectOfWords s d wh).w ∧ 0 < (rectOfWords s d wh).h
  · have hf := hfit hpos.1 hpos.2
    have ht := held_of_fits hr hf.1 hpos.1 hpos.2 hf.2
    rcases e.cceRect_walk hon s d wh ht with ⟨e', heq, hw, hsame, hv⟩
    have hcopied := e'.engBlit_copied ((rasterOf_congr hsame).trans hr) hoff hstride ht hw
      (by rw [hv]; exact hf.1)
    rw [hv] at hcopied
    rw [heq, engBlit_cell, engBlit_size, hv]
    exact ⟨copied_congr hsame hcopied, hsame, rfl⟩
  · have hzero : wh >>> 16 = 0#32 ∨ wh &&& 0x3FFF#32 = 0#32 := by
      rw [← BitVec.toNat_inj, ← BitVec.toNat_inj]
      simp only [rectOfWords] at hpos
      simp only [BitVec.toNat_ofNat, Nat.zero_mod]
      omega
    have hrect : e.cceRect s d wh = e := if_pos hzero
    rw [hrect]
    refine ⟨⟨?_, fun a _ => rfl⟩, ⟨rfl, fun _ _ => rfl⟩, rfl⟩
    intro i hi j hj
    exact absurd ⟨by omega, by omega⟩ hpos

/-- The rectangles one after the other. -/
theorem cceRects_copied {r : Raster} (hoff : r.srcOff = r.dstOff)
    (hstride : r.srcStride = r.dstStride) (rest : List U32) (hon : e.cell.eng2dOn = true)
    (hr : e.cell.rasterOf = some r)
    (hfit : ∀ t ∈ rectsOf rest, 0 < t.w → 0 < t.h → t.Fits r e.vram.size ∧ t.h ≤ 8191) :
    CopiedAll e.cell r (rectsOf rest) e.vram.bytes (e.cceRects rest).vram.bytes := by
  induction e, rest using cceRects.induct with
  | case1 e s d wh rest ih =>
    have hone := e.cceRect_copied hon hr hoff hstride s d wh
      (hfit _ (List.mem_cons_self ..))
    have hrest := ih (hone.2.1.on.trans hon) ((rasterOf_congr hone.2.1).trans hr) (by
      rw [hone.2.2]
      exact fun t ht => hfit t (List.mem_cons_of_mem _ ht))
    exact ⟨_, hone.1, copiedAll_congr hone.2.1 hrest⟩
  | case2 e rest hshort =>
    rw [rectsOf, cceRects] <;> first | rfl | exact hshort

/-! ### The settings before them -/

theorem cell_write_on (c : R128Cell) (off v : U32) (len : ℕ) :
    (c.write off v len).eng2dOn = c.eng2dOn := by
  simp [R128Cell.write, apply_ite R128Cell.eng2dOn, gpioWrite, genIntCntlWrite,
    R128Cell.setReg]

@[simp] theorem setReg_on (off v : U32) : (e.setReg off v).cell.eng2dOn = e.cell.eng2dOn := rfl

@[simp] theorem setPair_on (lo hi v : U32) :
    (e.setPair lo hi v).cell.eng2dOn = e.cell.eng2dOn := rfl

@[simp] theorem setPitchOffset_on (offset pitch v : U32) :
    (e.setPitchOffset offset pitch v).cell.eng2dOn = e.cell.eng2dOn := rfl

@[simp] theorem guiMasterCntl_on (v : U32) :
    (e.guiMasterCntl v).cell.eng2dOn = e.cell.eng2dOn := by
  simp [guiMasterCntl, apply_ite R128Eng.cell, apply_ite R128Cell.eng2dOn]

theorem engStore_on (off v : U32) : (e.engStore off v).2.cell.eng2dOn = e.cell.eng2dOn := by
  simp [engStore, apply_ite Prod.snd, apply_ite R128Eng.cell, apply_ite R128Cell.eng2dOn]

theorem eng3dWrite_on (off v : U32) : (e.eng3dWrite off v).2.cell.eng2dOn = e.cell.eng2dOn := by
  simp [eng3dWrite, apply_ite Prod.snd, apply_ite R128Eng.cell, apply_ite R128Cell.eng2dOn]

/-- A write of no initiator leaves the memory, and the engine on or off. -/
theorem write_kept (off v : U32) (len : ℕ) (h : ∀ e v, initiate e (off &&& ~~~3#32) v = none) :
    (e.write off v len).vram = e.vram
      ∧ (e.write off v len).cell.eng2dOn = e.cell.eng2dOn := by
  have h2 (e : R128Eng) (v : U32) : (e.eng2dWrite (off &&& ~~~3#32) v).2.vram = e.vram
      ∧ (e.eng2dWrite (off &&& ~~~3#32) v).2.cell.eng2dOn = e.cell.eng2dOn := by
    unfold eng2dWrite
    rw [h]
    exact ⟨e.engStore_vram _ v, e.engStore_on _ v⟩
  have hw (v : U32) : (e.engWrite (off &&& ~~~3#32) v).2.vram = e.vram
      ∧ (e.engWrite (off &&& ~~~3#32) v).2.cell.eng2dOn = e.cell.eng2dOn := by
    have h3 := And.intro (e.eng3dWrite_vram (off &&& ~~~3#32) v)
      (e.eng3dWrite_on (off &&& ~~~3#32) v)
    unfold engWrite
    split
    · simp only
      split
      · exact h3
      · rw [(h2 _ v).1, (h2 _ v).2]
        exact h3
    · exact h2 e v
  unfold write
  simp only
  split
  · split
    · exact hw _
    · exact ⟨(hw _).1, (cell_write_on ..).trans (hw _).2⟩
  · exact ⟨rfl, cell_write_on ..⟩

/-- The registers of the settings. -/
def settingRegs : List U32 :=
  [0x1428#32, 0x142C#32, 0x16F4#32, 0x16EC#32, 0x16F0#32, 0x1478#32, 0x147C#32, 0x1474#32,
    0x146C#32]

theorem initiate_setting {off : U32} (h : off ∈ settingRegs) (v : U32) :
    e.initiate (off &&& 0x3FFC#32 &&& ~~~3#32) v = none := by
  simp only [settingRegs, List.mem_cons, List.not_mem_nil, or_false] at h
  rcases h with rfl | rfl | rfl | rfl | rfl | rfl | rfl | rfl | rfl <;> rfl

theorem cceRegWrite_setting {off : U32} (h : off ∈ settingRegs) (v : U32) :
    (e.cceRegWrite off v).vram = e.vram
      ∧ (e.cceRegWrite off v).cell.eng2dOn = e.cell.eng2dOn :=
  e.write_kept _ _ 4 fun e => e.initiate_setting h

section Settings

/-! What every store of a setting keeps, the settings keep. -/

variable {P : R128Eng → Prop} (hP : ∀ e, P e → ∀ off ∈ settingRegs, ∀ v, P (e.cceRegWrite off v))
include hP

theorem foldl_settings (ws : List (U32 × U32)) (h : ∀ w ∈ ws, w.1 ∈ settingRegs) (he : P e) :
    P (ws.foldl (fun e w => e.cceRegWrite w.1 w.2) e) := by
  induction ws generalizing e with
  | nil => exact he
  | cons w ws ih =>
    exact ih _ (fun w' hw' => h w' (List.mem_cons_of_mem _ hw'))
      (hP e he _ (h w (List.mem_cons_self ..)) w.2)

theorem cceTake_settings (want : Bool) {offs : List U32} (h : ∀ off ∈ offs, off ∈ settingRegs)
    {r : R128Eng × Option (List U32)} (hr : P r.1) : P (cceTake want offs r).1 := by
  rcases r with ⟨e, _ | body⟩
  · exact hr
  · unfold cceTake
    simp only
    split
    · split
      · exact hr
      · exact e.foldl_settings hP _ (fun w hw => h _ (List.of_mem_zip hw).1) hr
    · exact hr

theorem cceBrush_settings (gc : U32) {r : R128Eng × Option (List U32)} (hr : P r.1) :
    P (cceBrush gc r).1 := by
  have hregs : ∀ off ∈ brushRegs gc, off ∈ settingRegs := by
    unfold brushRegs
    split <;> simp [settingRegs]
  rcases r with ⟨e, _ | body⟩
  · exact hr
  · unfold cceBrush
    simp only
    split
    · exact hr
    · split
      · exact hr
      · exact e.foldl_settings hP _ (fun w hw => hregs _ (List.of_mem_zip hw).1) hr

/-- The control word itself, stored last. -/
def cceControl (gc : U32) (r : R128Eng × Option (List U32)) : R128Eng × Option (List U32) :=
  match r with
  | (e, none) => (e, none)
  | (e, some body) => (e.cceRegWrite 0x146C#32 gc, some body)

include hP in
theorem cceSettings_settings (body : List U32) (he : P e) : P (e.cceSettings body).1 := by
  cases body with
  | nil => exact he
  | cons gc body =>
    have hlast : ∀ r : R128Eng × Option (List U32), P r.1 → P (cceControl gc r).1 := by
      rintro ⟨e', _ | rest⟩ hr
      · exact hr
      · exact hP e' hr _ (by simp [settingRegs]) gc
    apply hlast
    apply cceTake_settings hP _ (by simp [settingRegs])
    apply cceBrush_settings hP
    apply cceTake_settings hP _ (by simp [settingRegs])
    apply cceTake_settings hP _ (by simp [settingRegs])
    apply cceTake_settings hP _ (by simp [settingRegs])
    apply cceTake_settings hP _ (by simp [settingRegs])
    exact he

end Settings

/-- The settings start no blit. -/
theorem cceSettings_kept (body : List U32) : (e.cceSettings body).1.vram = e.vram
    ∧ (e.cceSettings body).1.cell.eng2dOn = e.cell.eng2dOn := by
  apply cceSettings_settings e (P := fun e' => e'.vram = e.vram
    ∧ e'.cell.eng2dOn = e.cell.eng2dOn) _ body ⟨rfl, rfl⟩
  intro e' he' off hoff v
  have h := e'.cceRegWrite_setting hoff v
  exact ⟨h.1.trans he'.1, h.2.trans he'.2⟩

/-- **The packet.** On one surface the rectangles are copied in the order of the packet, each as
from the memory as it was before it, whatever overlaps and under any scissor, operation and
mask. -/
theorem bitblt_copied (hon : e.cell.eng2dOn = true) {body rest : List U32} {e₁ : R128Eng}
    (hset : e.cceSettings body = (e₁, some rest)) {r : Raster} (hr : e₁.cell.rasterOf = some r)
    (hoff : r.srcOff = r.dstOff) (hstride : r.srcStride = r.dstStride)
    (hfit : ∀ t ∈ rectsOf rest, 0 < t.w → 0 < t.h → t.Fits r e.vram.size ∧ t.h ≤ 8191) :
    CopiedAll e₁.cell r (rectsOf rest) e.vram.bytes (e.cceOpBitbltMulti body).2.vram.bytes := by
  have hkept := e.cceSettings_kept body
  rw [hset] at hkept
  have h := e₁.cceRects_copied hoff hstride rest (hkept.2.trans hon) hr (by rwa [hkept.1])
  rw [hkept.1] at h
  rw [cceOpBitbltMulti, hset]
  exact h

/-! ### Two packets -/

/-- An engine with a pitch of eight pixels and a wide scissor by default, over memory whose first
byte alone is not zero. -/
def onePixel (size : ℕ) : R128Eng where
  cell := (powerOn.setReg kDefaultPitch 1#32).setReg kDefaultScBr 0x1FFF1FFF#32
  vram := ⟨size, fun a => if a = 0 then 1#8 else 0#8, []⟩
  cce3d := .reset

/-- The settings of a straight copy at 8 bits a pixel. -/
def copyControl : U32 := 0x02CC32F0#32

def copyRaster : Raster where
  bpp := 8
  rop := 0xCC#32
  pat := 0#32
  mask := 0xFFFFFFFF#32
  dstStride := 8
  srcStride := 8
  dstOff := 0
  srcOff := 0

theorem copy_settings (size : ℕ) (rest : List U32) :
    (onePixel size).cceSettings (copyControl :: rest) =
      ((onePixel size).cceRegWrite 0x146C#32 copyControl, some rest) := rfl

/-- Three pixels copied over themselves, one to the right. -/
theorem bitblt_copied_right :
    CopiedAll ((onePixel 16).cceRegWrite 0x146C#32 copyControl).cell copyRaster
      [⟨0, 0, 1, 0, 3, 1⟩] (onePixel 16).vram.bytes
      ((onePixel 16).cceOpBitbltMulti
        [copyControl, 0#32, 0x00010000#32, 0x00030001#32]).2.vram.bytes := by
  refine (onePixel 16).bitblt_copied rfl (copy_settings 16 [0#32, 0x00010000#32, 0x00030001#32])
    (by decide) rfl rfl ?_
  intro t ht _ _
  rcases List.mem_singleton.mp ht with rfl
  refine ⟨⟨?_, ?_, ?_, ?_, ?_, ?_⟩, ?_⟩ <;> decide

/-- A column of 8192 lines inside everything is not drawn at all. -/
theorem tall_column_dropped :
    ¬ ∀ (e : R128Eng), e.cell.eng2dOn = true → ∀ (body rest : List U32) (e₁ : R128Eng),
      e.cceSettings body = (e₁, some rest) → ∀ r : Raster, e₁.cell.rasterOf = some r →
      r.srcOff = r.dstOff → r.srcStride = r.dstStride →
      (∀ t ∈ rectsOf rest, 0 < t.w → 0 < t.h → t.Fits r e.vram.size) →
      CopiedAll e₁.cell r (rectsOf rest) e.vram.bytes
        (e.cceOpBitbltMulti body).2.vram.bytes := by
  intro h
  have hall := h (onePixel 65536) rfl [copyControl, 0#32, 0x00010000#32, 0x00012000#32] _ _
    (copy_settings 65536 _) copyRaster (by decide) rfl rfl (by
      intro t ht _ _
      rcases List.mem_singleton.mp ht with rfl
      refine ⟨?_, ?_, ?_, ?_, ?_, ?_⟩ <;> decide)
  rcases hall with ⟨m₁, hcopied, hm⟩
  have hpix := hcopied.pixels 0 (by decide) 0 (by decide)
    ⟨by decide, by decide, by decide, by decide⟩ 0 (by decide)
  rw [← hm] at hpix
  revert hpix
  decide

end R128Eng

end OpenPowerMac
