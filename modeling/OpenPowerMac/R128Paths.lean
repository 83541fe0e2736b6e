/-
The fast paths of the blitter beside its general one.

A constant fill writes the same pixel everywhere, so its order matters only where pixels
overlap in part. A copy of whole rows is the copy pixel by pixel where the walk along a row does
not write over pixels it has still to read: the rows themselves are copied right either way.
-/
import OpenPowerMac.Footprint
import OpenPowerMac.R128Bounds

set_option autoImplicit false

namespace OpenPowerMac

/-! ## Pixels and their bytes -/

theorem putBytes_frame (m : ℕ → U8) (n o : ℕ) (v : U32) {a : ℕ} (h : ¬ InRun o n a) :
    putBytes m n o v a = m a := if_neg h

theorem putBytes_at (m m' : ℕ → U8) (n o : ℕ) (v : U32) {a : ℕ} (h : InRun o n a) :
    putBytes m n o v a = putBytes m' n o v a := (if_pos h).trans (if_pos h).symm

theorem moveBytes_frame (m : ℕ → U8) (d s n : ℕ) {a : ℕ} (h : ¬ InRun d n a) :
    moveBytes m d s n a = m a := if_neg h

theorem moveBytes_at (m : ℕ → U8) (d s n : ℕ) {a : ℕ} (h : InRun d n a) :
    moveBytes m d s n a = m (s + (a - d)) := if_pos h

theorem pixOf_congr (m m' : ℕ → U8) (n o : ℕ) (h : ∀ a, InRun o n a → m a = m' a) :
    pixOf m n o = pixOf m' n o := by
  apply List.foldl_ext
  intro v k hk
  rw [h (o + k) ⟨Nat.le_add_right _ _, by have := List.mem_range.mp hk; omega⟩]

theorem pixOf_succ (m : ℕ → U8) (n o : ℕ) :
    pixOf m (n + 1) o = (pixOf m n o <<< 8) ||| (m (o + n)).setWidth 32 := by
  rw [pixOf, List.range_succ, List.foldl_append]
  rfl

/-- A byte of a pixel read. -/
theorem pixOf_byte (m : ℕ → U8) (n o k : ℕ) (hn : n ≤ 4) (hk : k < n) :
    (pixOf m n o >>> (8 * (n - 1 - k))).setWidth 8 = m (o + k) := by
  induction n with
  | zero => exact absurd hk (Nat.not_lt_zero k)
  | succ n ih =>
    rw [pixOf_succ]
    rcases Nat.lt_succ_iff_lt_or_eq.mp hk with hlt | rfl
    · -- a byte read before: one more shift has put it one higher
      rw [← ih (by omega) hlt]
      have hsh : 8 * (n + 1 - 1 - k) = 8 * (n - 1 - k) + 8 := by omega
      rw [hsh]
      apply BitVec.eq_of_getLsbD_eq
      intro i hi
      have h1 : 8 * (n - 1 - k) + 8 + i < 32 := by omega
      have h2 : ¬ 8 * (n - 1 - k) + 8 + i < 8 := by omega
      have h3 : 8 * (n - 1 - k) + 8 + i - 8 = 8 * (n - 1 - k) + i := by omega
      have h4 : (m (o + n)).getLsbD (8 * (n - 1 - k) + 8 + i) = false :=
        BitVec.getLsbD_of_ge _ _ (by omega)
      rw [BitVec.getLsbD_setWidth, BitVec.getLsbD_setWidth, BitVec.getLsbD_ushiftRight,
        BitVec.getLsbD_ushiftRight, BitVec.getLsbD_or, BitVec.getLsbD_shiftLeft,
        BitVec.getLsbD_setWidth, h4, h3, decide_eq_true h1,
        decide_eq_false h2]
      simp only [Bool.true_and, Bool.not_false, Bool.and_false, Bool.or_false]
    · apply BitVec.eq_of_getLsbD_eq
      intro i hi
      simp [hi]

/-- A pixel stored under a mask. -/
def putMasked (m : ℕ → U8) (bypp : ℕ) (mask : U32) (o : ℕ) (x : U32) : ℕ → U8 :=
  putBytes m bypp o
    (if mask ≠ 0xFFFFFFFF#32 then (pixOf m bypp o &&& ~~~mask) ||| (x &&& mask) else x)

/-- Under every mask the bits it selects are stored over the others. -/
theorem putMasked_eq (m : ℕ → U8) (bypp : ℕ) (mask : U32) (o : ℕ) (x : U32) :
    putMasked m bypp mask o x
      = putBytes m bypp o ((pixOf m bypp o &&& ~~~mask) ||| (x &&& mask)) := by
  unfold putMasked
  by_cases hmask : mask = 0xFFFFFFFF#32
  · rw [if_neg (not_not_intro hmask), hmask, show ~~~(0xFFFFFFFF#32 : U32) = 0#32 from rfl,
      BitVec.and_zero, BitVec.zero_or, show (0xFFFFFFFF#32 : U32) = BitVec.allOnes 32 from rfl,
      BitVec.and_allOnes]
  · rw [if_pos hmask]

/-- Byte `k` of the `n` of a pixel, the first the highest. -/
def byteOf (n : ℕ) (v : U32) (k : ℕ) : U8 := (v >>> (8 * (n - 1 - k))).setWidth 8

theorem byteOf_or (n : ℕ) (v w : U32) (k : ℕ) :
    byteOf n (v ||| w) k = byteOf n v k ||| byteOf n w k := by
  rw [byteOf, BitVec.ushiftRight_or_distrib, BitVec.setWidth_or]
  rfl

theorem byteOf_and (n : ℕ) (v w : U32) (k : ℕ) :
    byteOf n (v &&& w) k = byteOf n v k &&& byteOf n w k := by
  rw [byteOf, BitVec.ushiftRight_and_distrib, BitVec.setWidth_and]
  rfl

theorem byteOf_not {n k : ℕ} (v : U32) (hn : n ≤ 4) (hk : k < n) :
    byteOf n (~~~v) k = ~~~ byteOf n v k := by
  apply BitVec.eq_of_getLsbD_eq
  intro i hi
  have hin : 8 * (n - 1 - k) + i < 32 := by omega
  simp [byteOf, hi, hin]

theorem Vram.putPix_bytes (v : Vram) (bypp : ℕ) (mask : U32) (o : ℕ) (x : U32) :
    (v.putPix bypp mask o x).bytes = putMasked v.bytes bypp mask o x := by
  unfold Vram.putPix putMasked
  split <;> rfl

/-- A pixel moved is its bytes moved. -/
theorem putBytes_pixOf (m : ℕ → U8) (n d s : ℕ) (hn : n ≤ 4) :
    putBytes m n d (pixOf m n s) = moveBytes m d s n := by
  funext a
  by_cases h : InRun d n a
  · rw [moveBytes_at m d s n h]
    refine (if_pos h).trans ?_
    have hle := h.1
    have hlt := h.2
    exact pixOf_byte m n s (a - d) hn (by omega)
  · rw [putBytes_frame m n d _ h, moveBytes_frame m d s n h]

namespace Blit

variable (b : Blit)

/-! ## The loops over the bytes -/

/-- One pixel by the truth table, over the bytes. -/
def pixel (m : ℕ → U8) (dp sp : ℕ) : ℕ → U8 :=
  putMasked m b.bypp b.mask dp (rop3 b.rop b.pat
    (if b.usesSrc then pixOf m b.bypp sp else 0#32) (if b.usesDst then pixOf m b.bypp dp else 0#32))

theorem drawPixel_bytes (v : Vram) (dp sp : ℕ) :
    (b.drawPixel v dp sp).bytes = b.pixel v.bytes dp sp := by
  rw [drawPixel, Vram.putPix_bytes, pixel]
  cases b.usesSrc <;> cases b.usesDst <;> rfl

/-- The rows and the columns as the loops come to them. -/
def rows : List ℕ := (List.range b.ch).map b.rowAt
def cols : List ℕ := (List.range b.cw).map b.colAt

theorem rows_lt {r : ℕ} (h : r ∈ b.rows) : r < b.ch := by
  rcases List.mem_map.mp h with ⟨k, hk, rfl⟩
  exact b.rowAt_lt (List.mem_range.mp hk)

theorem cols_lt {c : ℕ} (h : c ∈ b.cols) : c < b.cw := by
  rcases List.mem_map.mp h with ⟨k, hk, rfl⟩
  exact b.colAt_lt (List.mem_range.mp hk)

theorem map_reverse (n : ℕ) : (List.range n).map (fun k => n - 1 - k) = (List.range n).reverse := by
  rw [List.range_eq_range', List.reverse_range', ← List.range_eq_range']
  apply List.map_congr_left
  intro k _
  omega

theorem rows_eq : b.rows = if b.t2b then List.range b.ch else (List.range b.ch).reverse := by
  unfold rows rowAt
  cases b.t2b
  · exact map_reverse b.ch
  · exact List.map_id' _

theorem cols_eq : b.cols = if b.l2r then List.range b.cw else (List.range b.cw).reverse := by
  unfold cols colAt
  cases b.l2r
  · exact map_reverse b.cw
  · exact List.map_id' _

theorem rows_perm : b.rows.Perm (List.range b.ch) := by
  rw [rows_eq]
  split
  · exact List.Perm.refl _
  · exact List.reverse_perm _

theorem cols_perm : b.cols.Perm (List.range b.cw) := by
  rw [cols_eq]
  split
  · exact List.Perm.refl _
  · exact List.reverse_perm _

/-! ## The loops as updates -/

/-- A pixel as an update: it reads its source where that is used, and its own bytes. -/
def pixelJob (dp sp : ℕ) : Job ℕ U8 where
  reads := {a | InRun dp b.bypp a ∨ (b.usesSrc = true ∧ InRun sp b.bypp a)}
  writes := {a | InRun dp b.bypp a}
  run m := b.pixel m dp sp
  frame m a h := putBytes_frame m _ _ _ h
  reads_only := by
    intro m m' hm a ha
    have hdst := pixOf_congr m m' b.bypp dp fun x hx => hm x (Or.inl hx)
    have hsrc : (if b.usesSrc then pixOf m b.bypp sp else 0#32)
        = if b.usesSrc then pixOf m' b.bypp sp else 0#32 := by
      split
      case isTrue hs => exact pixOf_congr m m' b.bypp sp fun x hx => hm x (Or.inr ⟨hs, hx⟩)
      case isFalse => rfl
    simp only [pixel, putMasked, hdst, hsrc]
    exact putBytes_at m m' _ _ _ ha

/-- A run of bytes moved as an update. -/
def moveJob (d s n : ℕ) : Job ℕ U8 where
  reads := {a | InRun s n a}
  writes := {a | InRun d n a}
  run m := moveBytes m d s n
  frame m a h := moveBytes_frame m _ _ _ h
  reads_only := by
    intro m m' hm a ha
    rw [moveBytes_at m d s n ha, moveBytes_at m' d s n ha]
    rcases ha with ⟨hle, hlt⟩
    exact hm _ ⟨Nat.le_add_right _ _, by omega⟩

/-- A row of the rectangle, pixel by pixel, in some order of columns. -/
def rowJobs (cs : List ℕ) (r : ℕ) : List (Job ℕ U8) :=
  cs.map fun c => b.pixelJob (b.dstAt r + c * b.bypp) (b.srcAt r + c * b.bypp)

theorem drawPixels_bytes (v : Vram) :
    (b.drawPixels v).bytes = Job.runAll (b.rows.flatMap (b.rowJobs b.cols)) v.bytes := by
  have hrow (v : Vram) (r : ℕ) :
      ((List.range b.cw).foldl (fun v c =>
        b.drawPixel v (b.dstAt r + b.colAt c * b.bypp) (b.srcAt r + b.colAt c * b.bypp)) v).bytes
        = Job.runAll (b.rowJobs b.cols r) v.bytes := by
    rw [Job.runAll, rowJobs, cols, List.map_map, List.foldl_map]
    exact (List.foldl_hom Vram.bytes fun v c => (b.drawPixel_bytes v _ _).symm).symm
  rw [Job.runAll, List.foldl_flatMap, rows, List.foldl_map]
  exact (List.foldl_hom Vram.bytes fun v r => (hrow v (b.rowAt r)).symm).symm

theorem drawCopy_bytes (v : Vram) : (b.drawCopy v).bytes =
    Job.runAll (b.rows.map fun r => moveJob (b.dstAt r) (b.srcAt r) (b.cw * b.bypp)) v.bytes := by
  rw [Job.runAll, rows, List.map_map, List.foldl_map]
  exact (List.foldl_hom Vram.bytes fun _ _ => rfl).symm

/-- A constant fill is the general loop with the walk turned forward. -/
theorem drawFill_bytes (hsrc : b.usesSrc = false) (hdst : b.usesDst = false) (v : Vram) :
    (b.drawFill v).bytes =
      Job.runAll ((List.range b.ch).flatMap (b.rowJobs (List.range b.cw))) v.bytes := by
  have hpixel (v : Vram) (dp sp : ℕ) :
      (v.putPix b.bypp b.mask dp (rop3 b.rop b.pat 0#32 0#32)).bytes
        = b.pixel v.bytes dp sp := by
    rw [Vram.putPix_bytes, pixel, hsrc, hdst]
    rfl
  have hrow (v : Vram) (r : ℕ) :
      ((List.range b.cw).foldl (fun v c => v.putPix b.bypp b.mask (b.dstAt r + c * b.bypp)
        (rop3 b.rop b.pat 0#32 0#32)) v).bytes
        = Job.runAll (b.rowJobs (List.range b.cw) r) v.bytes := by
    rw [Job.runAll, rowJobs, List.foldl_map]
    exact (List.foldl_hom Vram.bytes fun v c => (hpixel v _ _).symm).symm
  rw [Job.runAll, List.foldl_flatMap]
  exact (List.foldl_hom Vram.bytes fun v r => (hrow v r).symm).symm

/-! ## A constant fill -/

/-- Pixels that are the same or have no byte in common. -/
def Apart (o o' : ℕ) : Prop := o = o' ∨ o + b.bypp ≤ o' ∨ o' + b.bypp ≤ o

theorem disjoint_runs {o o' n n' : ℕ} (h : o + n ≤ o' ∨ o' + n' ≤ o) :
    Disjoint {a | InRun o n a} {a | InRun o' n' a} := by
  rw [Set.disjoint_left]
  rintro a ⟨h1, h2⟩ ⟨h3, h4⟩
  omega

/-- Two pixels of a constant fill may be stored in either order. -/
theorem pixelJob_comm (hsrc : b.usesSrc = false) {o o' : ℕ} (s s' : ℕ) (h : b.Apart o o')
    (hdst : b.usesDst = false) (m : ℕ → U8) :
    (b.pixelJob o s).run ((b.pixelJob o' s').run m) =
      (b.pixelJob o' s').run ((b.pixelJob o s).run m) := by
  have hsame (o s : ℕ) : (b.pixelJob o s).reads = {a | InRun o b.bypp a} := by
    ext a
    simp [pixelJob, hsrc]
  rcases h with rfl | h
  · simp only [pixelJob, pixel, hsrc, hdst]
    rfl
  · have hd : Disjoint {a | InRun o b.bypp a} {a | InRun o' b.bypp a} := disjoint_runs h
    apply Job.run_comm
    · exact ⟨by rw [hsame]; exact hd, hd⟩
    · exact ⟨by rw [hsame]; exact hd.symm, hd.symm⟩

/-- The word a constant fill stores, under the mask. -/
def fillWord : U32 := rop3 b.rop b.pat 0#32 0#32 &&& b.mask

/-- A fill that stores the same in every byte of a pixel. -/
def Uniform : Prop :=
  ∀ k < b.bypp, byteOf b.bypp b.fillWord k = byteOf b.bypp b.fillWord 0
    ∧ byteOf b.bypp b.mask k = byteOf b.bypp b.mask 0

instance : Decidable b.Uniform := inferInstanceAs (Decidable (∀ k < _, _))

/-- Where the order of the rows of a fill is of no account: it is the order they are walked in,
there is but one, pixels of two rows are the same or apart, or their bytes are all alike. -/
def FillSafe : Prop :=
  b.t2b = true ∨ b.ch ≤ 1 ∨ b.cw * b.bypp ≤ b.dstStride ∨ b.bypp ∣ b.dstStride ∨ b.Uniform

/-- A byte of a uniform fill depends on nothing but the byte it is stored over. -/
theorem pixel_uniform (hsrc : b.usesSrc = false) (hdst : b.usesDst = false) (hn : b.bypp ≤ 4)
    (h : b.Uniform) (m : ℕ → U8) (o s a : ℕ) :
    b.pixel m o s a = if InRun o b.bypp a
      then (m a &&& ~~~ byteOf b.bypp b.mask 0) ||| byteOf b.bypp b.fillWord 0 else m a := by
  rw [pixel, hsrc, hdst, putMasked_eq]
  by_cases ha : InRun o b.bypp a
  · have hle := ha.1
    have hlt : a - o < b.bypp := by
      have := ha.2
      omega
    rw [if_pos ha]
    refine (if_pos ha).trans ?_
    change byteOf b.bypp ((pixOf m b.bypp o &&& ~~~b.mask) ||| b.fillWord) (a - o) = _
    rw [byteOf_or, byteOf_and, byteOf_not b.mask hn hlt, (h _ hlt).1, (h _ hlt).2]
    congr 2
    refine (pixOf_byte m b.bypp o (a - o) hn hlt).trans ?_
    rw [Nat.add_sub_cancel' hle]
  · rw [if_neg ha, putBytes_frame _ _ _ _ ha]

/-- Two pixels of a uniform fill may be stored in either order, wherever they are. -/
theorem pixelJob_comm_uniform (hsrc : b.usesSrc = false) (hdst : b.usesDst = false)
    (hn : b.bypp ≤ 4) (h : b.Uniform) (o o' s s' : ℕ) (m : ℕ → U8) :
    (b.pixelJob o s).run ((b.pixelJob o' s').run m) =
      (b.pixelJob o' s').run ((b.pixelJob o s).run m) := by
  have hpixel := b.pixel_uniform hsrc hdst hn h
  funext a
  change b.pixel (b.pixel m o' s') o s a = b.pixel (b.pixel m o s) o' s' a
  rw [hpixel, hpixel, hpixel, hpixel]
  split_ifs <;> rfl

theorem apart_mul (o i j : ℕ) : b.Apart (o + i * b.bypp) (o + j * b.bypp) := by
  unfold Apart
  rcases Nat.lt_trichotomy i j with h | rfl | h
  · have := Nat.mul_le_mul_right b.bypp (Nat.succ_le_of_lt h)
    rw [Nat.succ_mul] at this
    omega
  · exact Or.inl rfl
  · have := Nat.mul_le_mul_right b.bypp (Nat.succ_le_of_lt h)
    rw [Nat.succ_mul] at this
    omega

/-- Pixels of a rectangle whose stride holds its rows. -/
theorem apart_of_le (h : b.cw * b.bypp ≤ b.dstStride) {r r' c c' : ℕ} (hr : r < r')
    (hc : c < b.cw) : b.Apart (b.dstAt r + c * b.bypp) (b.dstAt r' + c' * b.bypp) := by
  have hcol := Nat.mul_le_mul_right b.bypp (Nat.succ_le_of_lt hc)
  have hrow := Nat.mul_le_mul_right b.dstStride
    (show b.y0.toNat + r + 1 ≤ b.y0.toNat + r' by omega)
  rw [Nat.succ_mul] at hcol
  rw [Nat.add_one_mul] at hrow
  refine Or.inr (Or.inl ?_)
  simp only [dstAt]
  omega

/-- Pixels on one grid. -/
theorem apart_of_dvd (h : b.bypp ∣ b.dstStride) (r r' c c' : ℕ) :
    b.Apart (b.dstAt r + c * b.bypp) (b.dstAt r' + c' * b.bypp) := by
  rcases h with ⟨k, hk⟩
  have hgrid (r c : ℕ) : b.dstAt r + c * b.bypp =
      b.dstOff + ((b.y0.toNat + r) * k + b.x0.toNat + c) * b.bypp := by
    rw [dstAt, hk]
    ring
  rw [hgrid, hgrid]
  exact b.apart_mul _ _ _

theorem mem_rowJobs {cs : List ℕ} {r : ℕ} {j : Job ℕ U8} (h : j ∈ b.rowJobs cs r) :
    ∃ c ∈ cs, j = b.pixelJob (b.dstAt r + c * b.bypp) (b.srcAt r + c * b.bypp) := by
  rcases List.mem_map.mp h with ⟨c, hc, rfl⟩
  exact ⟨c, hc, rfl⟩

/-- No two pixels of a rectangle overlap in part whose rows keep apart or on one grid. -/
theorem apart_of_safe (h : b.cw * b.bypp ≤ b.dstStride ∨ b.bypp ∣ b.dstStride) {r r' c c' : ℕ}
    (hc : c < b.cw) (hc' : c' < b.cw) :
    b.Apart (b.dstAt r + c * b.bypp) (b.dstAt r' + c' * b.bypp) := by
  rcases h with hle | hdvd
  · rcases Nat.lt_trichotomy r r' with hr | rfl | hr
    · exact b.apart_of_le hle hr hc
    · exact b.apart_mul _ _ _
    · have hback : b.Apart (b.dstAt r' + c' * b.bypp) (b.dstAt r + c * b.bypp) :=
        b.apart_of_le hle hr hc'
      rcases hback with heq | hor
      · exact Or.inl heq.symm
      · exact Or.inr hor.symm
  · exact b.apart_of_dvd hdvd r r' c c'

/-- Rows that are walked forward, or of which there is but one. -/
theorem rows_forward (h : b.t2b = true ∨ b.ch ≤ 1) : b.rows = List.range b.ch := by
  rw [rows_eq]
  split
  · rfl
  · have hch : b.ch ≤ 1 := h.resolve_left ‹_›
    interval_cases b.ch <;> rfl

/-- A constant fill comes to the same however its rectangle is walked. -/
theorem fill_eq (hsrc : b.usesSrc = false) (hdst : b.usesDst = false) (hn : b.bypp ≤ 4)
    (h : b.FillSafe) (m : ℕ → U8) :
    Job.runAll ((List.range b.ch).flatMap (b.rowJobs (List.range b.cw))) m =
      Job.runAll (b.rows.flatMap (b.rowJobs b.cols)) m := by
  have hrow (r : ℕ) : (b.rowJobs (List.range b.cw) r).Perm (b.rowJobs b.cols r) :=
    (b.cols_perm.map _).symm
  rcases or_assoc.mpr h with hforward | hsafe
  · -- the rows are walked forward: one after the other, each in some order
    rw [b.rows_forward hforward]
    apply Job.runAll_flatMap_congr
    intro r _ m
    refine Job.runAll_perm (hrow r) ?_ m
    intro j hj k hk m
    rcases b.mem_rowJobs hj with ⟨c, -, rfl⟩
    rcases b.mem_rowJobs hk with ⟨c', -, rfl⟩
    exact b.pixelJob_comm hsrc _ _ (b.apart_mul _ _ _) hdst m
  · -- else any two pixels of the rectangle may change places
    refine Job.runAll_perm ?_ ?_ m
    · refine (List.Perm.flatMap_left _ fun r _ => hrow r).trans ?_
      exact (b.rows_perm.flatMap_right _).symm
    · intro j hj k hk m
      rcases List.mem_flatMap.mp hj with ⟨r, -, hj⟩
      rcases List.mem_flatMap.mp hk with ⟨r', -, hk⟩
      rcases b.mem_rowJobs hj with ⟨c, hc, rfl⟩
      rcases b.mem_rowJobs hk with ⟨c', hc', rfl⟩
      rcases or_assoc.mpr hsafe with hapart | huniform
      · exact b.pixelJob_comm hsrc _ _
          (b.apart_of_safe hapart (List.mem_range.mp hc) (List.mem_range.mp hc')) hdst m
      · exact b.pixelJob_comm_uniform hsrc hdst hn huniform _ _ _ _ m

/-! ## A straight copy -/

theorem rop3_srccopy (P S D : U32) : rop3 0xCC#32 P S D = S := by
  have h : rop3 0xCC#32 P S D =
      (~~~P &&& S &&& ~~~D) ||| (~~~P &&& S &&& D) ||| (P &&& S &&& ~~~D) ||| (P &&& S &&& D) := by
    simp [rop3]
  rw [h]
  ext i hi
  simp only [BitVec.getElem_or, BitVec.getElem_and, BitVec.getElem_not]
  cases P[i] <;> cases S[i] <;> cases D[i] <;> rfl

/-- A pixel of a straight copy is its bytes moved. -/
theorem pixel_srccopy (hrop : b.rop = 0xCC#32) (hplain : b.plain = true) (hn : b.bypp ≤ 4)
    (m : ℕ → U8) (dp sp : ℕ) : b.pixel m dp sp = moveBytes m dp sp b.bypp := by
  have hmask : b.mask = 0xFFFFFFFF#32 := of_decide_eq_true hplain
  have hsrc : b.usesSrc = true := by
    rw [Raster.usesSrc, hrop]
    decide
  rw [pixel, putMasked, if_neg (not_not_intro hmask), hrop, rop3_srccopy, hsrc]
  exact putBytes_pixOf m b.bypp dp sp hn

/-- The walk along a row does not write over what it has still to read: it is of one pixel, or
the destination is behind the source as the walk goes, or apart from it. -/
def RowSafe (r : ℕ) : Prop :=
  b.cw ≤ 1 ∨ b.dstAt r + b.cw * b.bypp ≤ b.srcAt r ∨ b.srcAt r + b.cw * b.bypp ≤ b.dstAt r
    ∨ (if b.l2r then b.dstAt r ≤ b.srcAt r else b.srcAt r ≤ b.dstAt r)

/-- The columns come in the order of the walk. -/
theorem cols_pairwise : b.cols.Pairwise fun c c' => if b.l2r then c < c' else c' < c := by
  rw [cols_eq]
  cases b.l2r
  · exact List.pairwise_reverse.mpr List.pairwise_lt_range
  · exact List.pairwise_lt_range

/-- A safe row copied pixel by pixel is the row moved. -/
theorem row_srccopy (hrop : b.rop = 0xCC#32) (hplain : b.plain = true) (hn : b.bypp ≤ 4)
    (hpos : 0 < b.bypp) {r : ℕ} (h : b.RowSafe r) (m : ℕ → U8) :
    Job.runAll (b.rowJobs b.cols r) m =
      moveBytes m (b.dstAt r) (b.srcAt r) (b.cw * b.bypp) := by
  -- each pixel as a move
  have hmove : Job.runAll (b.rowJobs b.cols r) m = Job.runAll (b.cols.map fun c =>
      moveJob (b.dstAt r + c * b.bypp) (b.srcAt r + c * b.bypp) b.bypp) m := by
    rw [Job.runAll, Job.runAll, rowJobs, List.foldl_map, List.foldl_map]
    apply List.foldl_ext
    intro m c _
    exact b.pixel_srccopy hrop hplain hn m _ _
  have hpair : (b.cols.map fun c =>
      moveJob (b.dstAt r + c * b.bypp) (b.srcAt r + c * b.bypp) b.bypp).Pairwise Job.Spares := by
    refine List.pairwise_map.mpr (b.cols_pairwise.imp_of_mem ?_)
    intro c c' hc hc' hlt
    have hcw := b.cols_lt hc
    have hcw' := b.cols_lt hc'
    have hm := Nat.mul_le_mul_right b.bypp (Nat.succ_le_of_lt hcw)
    have hm' := Nat.mul_le_mul_right b.bypp (Nat.succ_le_of_lt hcw')
    rw [Nat.succ_mul] at hm hm'
    have hstep : if b.l2r then c * b.bypp + b.bypp ≤ c' * b.bypp
        else c' * b.bypp + b.bypp ≤ c * b.bypp := by
      split
      case isTrue hl =>
        rw [if_pos hl] at hlt
        have := Nat.mul_le_mul_right b.bypp (Nat.succ_le_of_lt hlt)
        rwa [Nat.succ_mul] at this
      case isFalse hl =>
        rw [if_neg hl] at hlt
        have := Nat.mul_le_mul_right b.bypp (Nat.succ_le_of_lt hlt)
        rwa [Nat.succ_mul] at this
    constructor
    · apply disjoint_runs
      rcases h with h | h | h | h
      · split at hlt <;> omega
      · omega
      · omega
      · split at hstep
        case isTrue hl =>
          rw [if_pos hl] at h
          omega
        case isFalse hl =>
          rw [if_neg hl] at h
          omega
    · apply disjoint_runs
      split at hstep <;> omega
  rw [hmove]
  funext a
  by_cases ha : InRun (b.dstAt r) (b.cw * b.bypp) a
  · rcases (exists_pixel _ _ _ _ hpos).mpr ha with ⟨c, hc, hin⟩
    have hmem : c ∈ b.cols := b.cols_perm.mem_iff.mpr (List.mem_range.mpr hc)
    rw [Job.runAll_written _ hpair m (List.mem_map.mpr ⟨c, hmem, rfl⟩) hin, moveBytes_at _ _ _ _ ha]
    refine (moveBytes_at m _ _ _ hin).trans ?_
    have hle := hin.1
    congr 1
    omega
  · rw [moveBytes_frame _ _ _ _ ha]
    apply Job.runAll_frame
    intro j hj hin
    rcases List.mem_map.mp hj with ⟨c, hc, rfl⟩
    exact ha ((exists_pixel _ _ _ _ hpos).mp ⟨c, b.cols_lt hc, hin⟩)

/-- The rows of a copy, moved whole or pixel by pixel. -/
theorem copy_eq (hrop : b.rop = 0xCC#32) (hplain : b.plain = true) (hn : b.bypp ≤ 4)
    (hpos : 0 < b.bypp) (h : ∀ r < b.ch, b.RowSafe r) (m : ℕ → U8) :
    Job.runAll (b.rows.map fun r => moveJob (b.dstAt r) (b.srcAt r) (b.cw * b.bypp)) m =
      Job.runAll (b.rows.flatMap (b.rowJobs b.cols)) m := by
  rw [List.map_eq_flatMap]
  apply Job.runAll_flatMap_congr
  intro r hr m
  exact (b.row_srccopy hrop hplain hn hpos (h r (b.rows_lt hr)) m).symm

/-- However it is drawn, a blit whose fills and copies are safe is drawn as by the general
loop. -/
theorem draw_eq_pixels (hpos : 0 < b.bypp) (hn : b.bypp ≤ 4)
    (hcopy : b.rop = 0xCC#32 → b.plain = true → ∀ r < b.ch, b.RowSafe r)
    (hfill : b.usesSrc = false → b.usesDst = false → b.FillSafe) (v : Vram) :
    (b.draw v).bytes = (b.drawPixels v).bytes := by
  rw [draw]
  split
  case isTrue hf =>
    have hsrc : b.usesSrc = false := Bool.eq_false_of_not_eq_true hf.1
    have hdst : b.usesDst = false := Bool.eq_false_of_not_eq_true hf.2
    rw [b.drawFill_bytes hsrc hdst, b.fill_eq hsrc hdst hn (hfill hsrc hdst), b.drawPixels_bytes]
  split
  case isTrue hc =>
    rw [b.drawCopy_bytes, b.copy_eq hc.1 hc.2 hn hpos (hcopy hc.1 hc.2), b.drawPixels_bytes]
  case isFalse => rfl

end Blit

namespace R128Cell

variable (c : R128Cell)

/-- Only at 24 bits a pixel does a stride not hold whole pixels. -/
theorem rasterOf_dvd {r : Raster} (h : c.rasterOf = some r) (h24 : r.bpp ≠ 24) :
    r.bypp ∣ r.dstStride := by
  unfold rasterOf at h
  simp only at h
  split at h
  case h_1 => cases h
  case h_2 bpp hbpp =>
    split at h; · cases h
    split at h; · cases h
    split at h; · cases h
    split at h; · cases h
    split at h; · cases h
    cases h
    have h24 : bpp ≠ 24 := h24
    have hdvd : bpp / 8 ∣ bpp := by
      rcases bppOf_eq hbpp with rfl | rfl | rfl | rfl <;> decide
    simp only [Raster.bypp, strideOf, if_neg h24]
    exact Dvd.dvd.mul_left hdvd _

/-- **The fast paths.** Whatever the engine draws leaves the bytes the general loop would, but
where a row is copied against its walk over its own source, or a fill at 24 bits a pixel walks
backwards over several rows that overlap in parts of pixels of unlike bytes. -/
theorem draw_bytes {size : ℕ} {b : Blit} (h : c.blitOf size = some b)
    (hcopy : b.rop = 0xCC#32 → b.plain = true → ∀ r < b.ch, b.RowSafe r)
    (hfill : b.usesSrc = false → b.usesDst = false → b.bpp = 24 → b.FillSafe) (v : Vram) :
    (b.draw v).bytes = (b.drawPixels v).bytes := by
  have hof := c.blitOf_eq h
  have hbpp := c.rasterOf_bpp hof.1
  have hpos : 0 < b.bypp := Raster.bypp_pos hbpp
  have hn : b.bypp ≤ 4 := by
    unfold Raster.bypp
    omega
  apply b.draw_eq_pixels hpos hn hcopy
  intro hsrc hdst
  by_cases h24 : b.bpp = 24
  · exact hfill hsrc hdst h24
  · exact Or.inr (Or.inr (Or.inr (Or.inl (c.rasterOf_dvd hof.1 h24))))

/-- Registers over those of power on. -/
def withRegs (rs : List (U32 × U32)) : R128Cell := rs.foldl (fun c r => c.setReg r.1 r.2) powerOn

/-- Three pixels at 8 bits copied along their row, walked forward. -/
def rowCopy (dx sx : U32) : R128Cell :=
  withRegs [(kDpDatatype, 0x30002#32), (kDpMix, 0x00CC0000#32), (kDstPitch, 1#32),
    (kSrcPitch, 1#32), (kDpCntl, 3#32), (kDstWidth, 3#32), (kDstHeight, 1#32), (kDstX, dx),
    (kSrcX, sx), (kScRight, 100#32), (kScBottom, 100#32)]

def rowCopyBlit (dx sx : ℤ) : Blit where
  bpp := 8
  rop := 0xCC#32
  pat := 0#32
  mask := 0xFFFFFFFF#32
  dstStride := 8
  srcStride := 8
  dstOff := 0
  srcOff := 0
  l2r := true
  t2b := true
  x0 := dx
  y0 := 0
  csx := sx
  csy := 0
  cw := 3
  ch := 1

theorem draw_bytes_left :
    ((rowCopyBlit 0 1).draw ⟨64, fun a => BitVec.ofNat 8 a, []⟩).bytes
      = ((rowCopyBlit 0 1).drawPixels ⟨64, fun a => BitVec.ofNat 8 a, []⟩).bytes := by
  have hof : (rowCopy 0#32 1#32).blitOf 64 = some (rowCopyBlit 0 1) := by decide
  apply draw_bytes _ hof
  · intro _ _ r hr
    obtain rfl : r = 0 := Nat.lt_one_iff.mp hr
    exact Or.inr (Or.inr (Or.inr (by decide)))
  · intro hsrc
    exact absurd hsrc (by decide)

/-- Two rows of three pixels at 24 bits, 8 bytes apart, filled and walked upward. -/
def rowsFill : R128Cell :=
  withRegs [(kDpDatatype, 0xD05#32), (kDpMix, 0x00F00000#32), (kDpBrushFrgdClr, 0x010203#32),
    (kDstPitch, 1#32), (kDpCntl, 1#32), (kDstWidth, 3#32), (kDstHeight, 2#32), (kDstY, 1#32),
    (kScRight, 100#32), (kScBottom, 100#32)]

def rowsFillBlit : Blit where
  bpp := 24
  rop := 0xF0#32
  pat := 0x010203#32
  mask := 0xFFFFFFFF#32
  dstStride := 8
  srcStride := 0
  dstOff := 0
  srcOff := 0
  l2r := true
  t2b := false
  x0 := 0
  y0 := 0
  csx := 0
  csy := -1
  cw := 3
  ch := 2

/-- A row copied a pixel to the right under a forward walk, and a fill walked upward over rows
that share a byte. -/
theorem fast_paths_differ :
    (¬ ∀ b, (rowCopy 1#32 0#32).blitOf 64 = some b → ∀ v : Vram,
        (b.draw v).bytes = (b.drawPixels v).bytes)
      ∧ ¬ ∀ b, rowsFill.blitOf 64 = some b → ∀ v : Vram,
        (b.draw v).bytes = (b.drawPixels v).bytes := by
  constructor
  · intro h
    have hbytes := congrFun (h (rowCopyBlit 1 0) (by decide) ⟨64, fun a => BitVec.ofNat 8 a, []⟩) 2
    revert hbytes
    decide
  · intro h
    have hbytes := congrFun (h rowsFillBlit (by decide) ⟨64, fun _ => 0#8, []⟩) 8
    revert hbytes
    decide

end R128Cell

end OpenPowerMac
