/-
What a fragment leaves in video memory: `shadeFragment` from the outside.

A fragment that is rejected leaves its depth and every colour alone. The depth is stored before the
last of the tests that reject, so what is said of a rejected fragment holds but for one case.
-/
import OpenPowerMac.LowBits
import OpenPowerMac.R128Shade
import Mathlib.Tactic.NormNum

set_option autoImplicit false

namespace OpenPowerMac

namespace R128Pipe

open CFloat (lt lit ofU32 toU32 toInt)

variable {F D : Type} {P : Pipe F} {px py zs : U32} {m : ℕ → U8}

/-! ## What is asked of a fragment -/

/-- The stencil of a cell. -/
def stencil (P : Pipe F) (cell : U32) : U32 := if P.zw = 24#32 then cell >>> 24 else 0#32

/-- The stencil bits a fragment may write. -/
def wrMask (P : Pipe F) : U32 := if P.stEn then P.stWrMask else 0#32

/-- A depth as the cell holds it. -/
def zValue (P : Pipe F) (zs : U32) : U32 :=
  if P.zw = 16#32 then zs &&& 0xFFFF#32 else if P.zw = 24#32 then zs &&& 0xFFFFFF#32 else zs

/-- The pixel's depth is kept but for what `may` allows, of its stencil the bits that are not
enabled, and memory outside its depth cell and outside `also`. -/
structure Keeps (P : Pipe F) (px py : U32) (m m' : ℕ → U8) (also : ℕ → Prop) (may : U32 → Prop) :
    Prop where
  frame : ∀ i, ¬ also i → (∀ za, zAddr P px py = some za → ¬ InCell za (zb P) i) → m' i = m i
  depth : ∀ za, zAddr P px py = some za →
    depth P (zRead P m' za) = depth P (zRead P m za) ∨ may (depth P (zRead P m' za))
  stencil : ∀ za, zAddr P px py = some za →
    stencil P (zRead P m' za) &&& ~~~wrMask P = stencil P (zRead P m za) &&& ~~~wrMask P

/-- A rejected fragment leaves no trace but in the stencil. -/
def Rejected (P : Pipe F) (px py : U32) (m m' : ℕ → U8) : Prop :=
  Keeps P px py m m' (fun _ => False) fun _ => False

section Fragment

variable [CFloat F] [CFloat D]

/-- A fragment that is drawn writes its pixel, and its depth where the Z test is on with writes. -/
structure Drawn (P : Pipe F) (px py zs : U32) (color : Rgba F) (m m' : ℕ → U8) : Prop where
  inside : DstInside P px py
  colour : ∀ k < P.bypp.toNat, m' (cellAt (dstAddr P px py) k) = cellByte P.bypp.toNat
    (dstWord P m (dstAddr P px py) (dstPixel P m (dstAddr P px py) color)) k
  rest : Keeps P px py m m' (InCell (dstAddr P px py) P.bypp.toNat) fun z =>
    P.zEn ∧ P.zWr ∧ z = zValue P zs

/-- The Z cell and the colour cell of a pixel do not overlap. -/
def Apart (P : Pipe F) (px py : U32) : Prop :=
  ∀ za, zAddr P px py = some za → ∀ i, InCell za (zb P) i →
    ¬ InCell (dstAddr P px py) P.bypp.toNat i

/-- What a fragment returns tells what it leaves. -/
def Tells (P : Pipe F) (widen : F → D) (px py : U32) (fr : Frag F) (m : ℕ → U8) : Prop :=
  ((shadeFragment P widen px py fr m).1 = false →
      Rejected P px py m (shadeFragment P widen px py fr m).2)
    ∧ ((shadeFragment P widen px py fr m).1 = true → ∃ color, shadeColor P m fr = some color
      ∧ Drawn P px py (zsrc P widen fr) color m (shadeFragment P widen px py fr m).2)

/-- The stencil test and the Z test pass, and the depth is written. -/
structure Stores (P : Pipe F) (zs cell : U32) : Prop where
  enabled : P.zEn = true ∧ P.zWr = true
  stencilPass : P.stEn = true → P.zw = 24#32 →
    cmp8 P.stTest (P.stRef &&& P.stMask) ((cell >>> 24) &&& P.stMask) = true
  zPass : cmp8 P.zTest zs (depth P cell) = true

/-- The fragment's depth replaces another one, and its colour cell is outside video memory. -/
def LateReject (P : Pipe F) (widen : F → D) (px py : U32) (fr : Frag F) (m : ℕ → U8) : Prop :=
  (∃ color, shadeColor P m fr = some color) ∧ ¬ DstInside P px py
    ∧ ∃ za, zAddr P px py = some za ∧ Stores P (zsrc P widen fr) (zRead P m za)
      ∧ zValue P (zsrc P widen fr) ≠ depth P (zRead P m za)

end Fragment

/-! ## The cells -/

theorem zb_lt (P : Pipe F) : zb P < 2 ^ 64 := by
  unfold zb
  split <;> decide

theorem zRead_zStore (P : Pipe F) (m : ℕ → U8) (za : U64) (v : U32) :
    zRead P (zStore P m za v) za = if P.zw = 16#32 then v &&& 0xFFFF#32 else v := by
  apply BitVec.eq_of_getLsbD_eq
  intro i hi
  rw [zRead, zStore, readCell_writeCell m za v (zb_lt P) hi, zb]
  split
  case isTrue =>
    rw [BitVec.getLsbD_and, show (0xFFFF#32 : U32) = BitVec.ofNat 32 (2 ^ 16 - 1) from rfl,
      BitVec.getLsbD_ofNat, Nat.testBit_two_pow_sub_one, Bool.and_comm]
    simp [hi]
  case isFalse => simp [hi]

/-- What the cell reads as once `w` is stored. -/
def asStored (P : Pipe F) (w : U32) : U32 := if P.zw = 16#32 then w &&& 0xFFFF#32 else w

/-- A stencil and a depth put together. -/
theorem join_toNat (s : U32) {z : U32} (hz : z.toNat < 2 ^ 24) :
    ((s <<< 24) ||| z).toNat = s.toNat % 256 * 2 ^ 24 + z.toNat := by
  have hs : (s <<< 24).toNat = (s.toNat % 256) <<< 24 := by
    rw [BitVec.toNat_shiftLeft, Nat.shiftLeft_eq, Nat.shiftLeft_eq]
    omega
  rw [BitVec.toNat_or, hs, ← Nat.shiftLeft_add_eq_or_of_lt hz, Nat.shiftLeft_eq]

theorem low24_lt (w : U32) : (w &&& 0xFFFFFF#32).toNat < 2 ^ 24 := by
  rw [BitVec.toNat_and]
  exact (Nat.and_le_right).trans_lt (by decide)

theorem depth_join (s : U32) {z : U32} (hz : z.toNat < 2 ^ 24) :
    ((s <<< 24) ||| z) &&& 0xFFFFFF#32 = z := by
  apply BitVec.eq_of_toNat_eq
  rw [BitVec.toNat_and, join_toNat s hz, show (0xFFFFFF#32).toNat = 2 ^ 24 - 1 from rfl,
    Nat.and_two_pow_sub_one_eq_mod]
  omega

theorem stencil_join (s : U32) {z : U32} (hz : z.toNat < 2 ^ 24) :
    ((s <<< 24) ||| z) >>> 24 = s &&& 0xFF#32 := by
  apply BitVec.eq_of_toNat_eq
  rw [BitVec.toNat_ushiftRight, join_toNat s hz, Nat.shiftRight_eq_div_pow, BitVec.toNat_and,
    show (0xFF#32).toNat = 2 ^ 8 - 1 from rfl, Nat.and_two_pow_sub_one_eq_mod]
  omega

theorem stencil_byte (cell : U32) : (cell >>> 24) &&& 0xFF#32 = cell >>> 24 := by
  apply BitVec.eq_of_toNat_eq
  have h := cell.isLt
  rw [BitVec.toNat_and, show (0xFF#32).toNat = 2 ^ 8 - 1 from rfl, Nat.and_two_pow_sub_one_eq_mod,
    BitVec.toNat_ushiftRight, Nat.shiftRight_eq_div_pow]
  omega

/-! ## The verdict on a cell -/

/-- What the second part of `shadeFragment` makes of a cell: whether the fragment goes on, and the
word that is stored, if one is. -/
def zVerdict (P : Pipe F) (zs cell : U32) : Bool × Option U32 :=
  if P.stEn ∧ P.zw = 24#32 then
    let sPass := cmp8 P.stTest (P.stRef &&& P.stMask) ((cell >>> 24) &&& P.stMask)
    let zPass := !P.zEn || cmp8 P.zTest zs (depth P cell)
    let op := if !sPass then P.stSFail else if zPass then P.stZPass else P.stZFail
    let sOut := ((cell >>> 24) &&& ~~~P.stWrMask)
      ||| (stencilOp op (cell >>> 24) P.stRef &&& P.stWrMask)
    let zOut := if sPass ∧ zPass ∧ P.zEn ∧ P.zWr then zs &&& 0xFFFFFF#32 else depth P cell
    (sPass && zPass, some ((sOut <<< 24) ||| zOut))
  else if P.zEn then
    if cmp8 P.zTest zs (depth P cell) then
      (true, if P.zWr then
          some (if P.zw = 24#32 then (cell &&& 0xFF000000#32) ||| (zs &&& 0xFFFFFF#32) else zs)
        else none)
    else (false, none)
  else (true, none)

theorem shadeDepth_none (h : zAddr P px py = none) : (shadeDepth P px py zs m).2 = m := by
  rw [shadeDepth, h]
  split <;> rfl

theorem shadeDepth_some (zs : U32) (m : ℕ → U8) {za : U64} (h : zAddr P px py = some za) :
    (shadeDepth P px py zs m).1 = (zVerdict P zs (zRead P m za)).1
      ∧ (shadeDepth P px py zs m).2 = ((zVerdict P zs (zRead P m za)).2.elim m
        (zStore P m za)) := by
  rw [shadeDepth, h, zVerdict]
  by_cases hst : P.stEn = true ∧ P.zw = 24#32
  · rw [if_pos (Or.inr hst), if_pos hst]
    dsimp only
    rw [if_pos hst]
    exact ⟨rfl, rfl⟩
  · rw [if_neg hst]
    by_cases hz : P.zEn = true
    · rw [if_pos (Or.inl hz), if_pos hz]
      dsimp only
      rw [if_neg hst, if_pos hz]
      split
      · split <;> exact ⟨rfl, rfl⟩
      · exact ⟨rfl, rfl⟩
    · rw [if_neg (by tauto), if_neg hz]
      exact ⟨rfl, rfl⟩

/-- The stencil bits that are not enabled stay. -/
theorem merged_stencil (cur new wr : U32) :
    ((cur &&& ~~~wr) ||| (new &&& wr)) &&& ~~~wr = cur &&& ~~~wr := by
  apply BitVec.eq_of_getLsbD_eq
  intro i hi
  simp only [BitVec.getLsbD_and, BitVec.getLsbD_or, BitVec.getLsbD_not, hi, decide_true,
    Bool.true_and]
  cases cur.getLsbD i <;> cases new.getLsbD i <;> cases wr.getLsbD i <;> rfl

theorem high_byte (cell : U32) : cell &&& 0xFF000000#32 = (cell >>> 24) <<< 24 :=
  and_not_low cell 24

theorem asStored_of_24 (h : P.zw = 24#32) (w : U32) : asStored P w = w :=
  if_neg (by rw [h]; decide)

theorem depth_of_24 (h : P.zw = 24#32) (w : U32) : depth P w = w &&& 0xFFFFFF#32 := if_pos h

theorem zValue_of_24 (h : P.zw = 24#32) : zValue P zs = zs &&& 0xFFFFFF#32 := by
  rw [zValue, if_neg (by rw [h]; decide), if_pos h]

/-- Where the tests pass with writes on, the fragment goes on and its depth is stored. -/
theorem zVerdict_stores {cell : U32} (h : Stores P zs cell) : (zVerdict P zs cell).1 = true
    ∧ ∃ w, (zVerdict P zs cell).2 = some w ∧ depth P (asStored P w) = zValue P zs := by
  obtain ⟨⟨hen, hwr⟩, hst, hz⟩ := h
  unfold zVerdict
  by_cases hs : P.stEn = true ∧ P.zw = 24#32
  · have hpass := hst hs.1 hs.2
    rw [if_pos hs]
    simp only [hpass, hz, hen, hwr, Bool.not_true, Bool.false_or, Bool.and_self, and_self, if_true]
    refine ⟨trivial, _, rfl, ?_⟩
    rw [asStored_of_24 hs.2, depth_of_24 hs.2, zValue_of_24 hs.2]
    exact depth_join _ (low24_lt zs)
  · rw [if_neg hs, if_pos hen, if_pos hz, if_pos hwr]
    refine ⟨rfl, _, rfl, ?_⟩
    by_cases h24 : P.zw = 24#32
    · rw [if_pos h24, asStored_of_24 h24, depth_of_24 h24, zValue_of_24 h24, high_byte]
      exact depth_join _ (low24_lt zs)
    · rw [if_neg h24, depth, if_neg h24, asStored, zValue, if_neg h24]

/-- Otherwise what is stored has the depth that was there. -/
theorem zVerdict_kept {cell : U32} (h : ¬ Stores P zs cell) (w : U32)
    (hw : (zVerdict P zs cell).2 = some w) : depth P (asStored P w) = depth P cell := by
  unfold zVerdict at hw
  by_cases hs : P.stEn = true ∧ P.zw = 24#32
  · rw [if_pos hs] at hw
    dsimp only at hw
    have hnot : ¬ (cmp8 P.stTest (P.stRef &&& P.stMask) ((cell >>> 24) &&& P.stMask) = true
        ∧ (!P.zEn || cmp8 P.zTest zs (depth P cell)) = true ∧ P.zEn = true ∧ P.zWr = true) := by
      rintro ⟨hpass, hz, hen, hwr⟩
      refine h ⟨⟨hen, hwr⟩, fun _ _ => hpass, ?_⟩
      rwa [hen, Bool.not_true, Bool.false_or] at hz
    rw [if_neg hnot] at hw
    obtain rfl := Option.some.inj hw
    rw [asStored_of_24 hs.2, depth_of_24 hs.2, depth_of_24 hs.2]
    exact depth_join _ (low24_lt cell)
  · rw [if_neg hs] at hw
    split at hw
    case isTrue hen =>
      split at hw
      case isTrue hz =>
        dsimp only at hw
        split at hw
        case isTrue hwr => exact absurd ⟨⟨hen, hwr⟩, fun h₁ h₂ => absurd ⟨h₁, h₂⟩ hs, hz⟩ h
        case isFalse => cases hw
      case isFalse => cases hw
    case isFalse => cases hw

theorem zVerdict_stencil {cell : U32} (w : U32) (hw : (zVerdict P zs cell).2 = some w) :
    stencil P (asStored P w) &&& ~~~wrMask P = stencil P cell &&& ~~~wrMask P := by
  by_cases h24 : P.zw = 24#32
  · rw [asStored_of_24 h24, stencil, stencil, if_pos h24, if_pos h24]
    unfold zVerdict at hw
    by_cases hst : P.stEn = true
    · rw [if_pos ⟨hst, h24⟩] at hw
      obtain rfl := Option.some.inj hw
      have hdepth : (depth P cell).toNat < 2 ^ 24 := by
        rw [depth_of_24 h24]
        exact low24_lt cell
      rw [stencil_join _ (by split <;> first | exact low24_lt _ | exact hdepth), wrMask,
        if_pos hst, BitVec.and_assoc, BitVec.and_comm 0xFF#32, ← BitVec.and_assoc,
        merged_stencil, BitVec.and_assoc, BitVec.and_comm _ 0xFF#32, ← BitVec.and_assoc,
        stencil_byte]
    · rw [if_neg fun h => hst h.1] at hw
      split at hw
      case isTrue =>
        split at hw
        case isTrue =>
          dsimp only at hw
          split at hw
          case isTrue =>
            obtain rfl := Option.some.inj hw
            rw [high_byte, stencil_join _ (low24_lt zs), stencil_byte]
          case isFalse => cases hw
        case isFalse => cases hw
      case isFalse => cases hw
  · rw [stencil, stencil, if_neg h24, if_neg h24]

/-! ## The second part as a whole -/

theorem zRead_stored (za : U64) (w : U32) : zRead P (zStore P m za w) za = asStored P w :=
  zRead_zStore P m za w

/-- What the second part keeps, and when it stores a depth. -/
theorem shadeDepth_keeps (P : Pipe F) (px py zs : U32) (m : ℕ → U8) :
    Keeps P px py m (shadeDepth P px py zs m).2 (fun _ => False) fun z =>
      z = zValue P zs ∧ ∃ za, zAddr P px py = some za ∧ Stores P zs (zRead P m za) := by
  cases hza : zAddr P px py with
  | none =>
      rw [shadeDepth_none hza]
      have hnone : ∀ za, zAddr P px py ≠ some za := fun za h => by
        rw [hza] at h
        cases h
      exact ⟨fun _ _ _ => rfl, fun za h => absurd h (hnone za), fun za h => absurd h (hnone za)⟩
  | some za =>
      obtain ⟨-, hmem⟩ := shadeDepth_some zs m hza
      rw [hmem]
      cases hw : (zVerdict P zs (zRead P m za)).2 with
      | none => exact ⟨fun _ _ _ => rfl, fun _ _ => .inl rfl, fun _ _ => rfl⟩
      | some w =>
          refine ⟨fun i _ hi => ?_, fun za' h => ?_, fun za' h => ?_⟩
          · exact writeCell_off m w (hi za hza)
          · obtain rfl := Option.some.inj (hza.symm.trans h)
            dsimp only [Option.elim_some]
            rw [zRead_stored]
            by_cases hs : Stores P zs (zRead P m za)
            · obtain ⟨-, w', hw', hz⟩ := zVerdict_stores hs
              obtain rfl := Option.some.inj (hw.symm.trans hw')
              exact .inr ⟨hz, za, rfl, hs⟩
            · exact .inl (zVerdict_kept hs w hw)
          · obtain rfl := Option.some.inj (hza.symm.trans h)
            show stencil P (zRead P (zStore P m za w) za) &&& _ = _
            rw [zRead_stored]
            exact zVerdict_stencil w hw

/-- Where the tests pass with writes on, the second part does not reject, and leaves the
fragment's depth. -/
theorem shadeDepth_stores {za : U64} (hza : zAddr P px py = some za)
    (h : Stores P zs (zRead P m za)) : (shadeDepth P px py zs m).1 = true
      ∧ depth P (zRead P (shadeDepth P px py zs m).2 za) = zValue P zs := by
  obtain ⟨hpass, hmem⟩ := shadeDepth_some zs m hza
  obtain ⟨htrue, w, hw, hz⟩ := zVerdict_stores h
  rw [hpass, hmem, hw]
  refine ⟨htrue, ?_⟩
  show depth P (zRead P (zStore P m za w) za) = _
  rw [zRead_stored, hz]

/-! ## The fragment -/

variable [CFloat F] [CFloat D]

/-- A pixel drawn over what the second part left. -/
theorem drawn_of_shade {color : Rgba F} (hapart : Apart P px py) (hin : DstInside P px py) :
    Drawn P px py zs color m (dstWrite P (shadeDepth P px py zs m).2 (dstAddr P px py)
      (dstPixel P (shadeDepth P px py zs m).2 (dstAddr P px py) color)) := by
  obtain ⟨d, hd⟩ : ∃ d, d = (shadeDepth P px py zs m).2 := ⟨_, rfl⟩
  have hkeeps := shadeDepth_keeps P px py zs m
  rw [← hd] at hkeeps ⊢
  -- the colour cell is as it was
  have hcell : dstRead P d (dstAddr P px py) = dstRead P m (dstAddr P px py) :=
    readCell_congr fun i hi => hkeeps.frame i id fun za hza hz => hapart za hza i hz hi
  have hpixel : dstPixel P d (dstAddr P px py) color = dstPixel P m (dstAddr P px py) color := by
    rw [dstPixel, dstPixel, hcell]
  have hword : ∀ v, dstWord P d (dstAddr P px py) v = dstWord P m (dstAddr P px py) v := by
    intro v
    rw [dstWord, dstWord, hcell]
  have hz : ∀ za v, zAddr P px py = some za →
      zRead P (dstWrite P d (dstAddr P px py) v) za = zRead P d za := by
    intro za v hza
    exact readCell_congr fun i hi => writeCell_off _ _ (hapart za hza i hi)
  refine ⟨hin, fun k hk => ?_, fun i hi hcold => ?_, fun za hza => ?_, fun za hza => ?_⟩
  · rw [hpixel, dstWrite, hword]
    exact writeCell_at d _ _ (P.bypp.isLt.trans (by decide)) hk
  · rw [dstWrite, writeCell_off _ _ hi]
    exact hkeeps.frame i id hcold
  · rw [hz za _ hza]
    refine (hkeeps.depth za hza).imp id ?_
    rintro ⟨heq, za', _, hs⟩
    exact ⟨hs.enabled.1, hs.enabled.2, heq⟩
  · rw [hz za _ hza]
    exact hkeeps.stencil za hza

/-- **A rejected fragment leaves no trace** in depth or colour, and a drawn one what it should,
unless its depth has replaced another one by the time its colour cell is found to be outside video
memory. -/
theorem fragment_tells_iff (P : Pipe F) (widen : F → D) (px py : U32) (fr : Frag F) (m : ℕ → U8)
    (hapart : Apart P px py) : Tells P widen px py fr m ↔ ¬ LateReject P widen px py fr m := by
  have hkeeps := shadeDepth_keeps P px py (zsrc P widen fr) m
  constructor
  · rintro ⟨hrej, -⟩ ⟨⟨color, hcolor⟩, hout, za, hza, hstores, hne⟩
    obtain ⟨hpass, hdepth⟩ := shadeDepth_stores hza hstores
    have hres : shadeFragment P widen px py fr m
        = (false, (shadeDepth P px py (zsrc P widen fr) m).2) := by
      rw [shadeFragment, hcolor]
      dsimp only
      rw [hpass, if_neg (by decide), if_neg hout]
    rw [hres] at hrej
    rcases (hrej rfl).depth za hza with hsame | hmay
    · exact hne (hdepth.symm.trans hsame)
    · exact hmay
  · intro hlate
    unfold Tells shadeFragment
    cases hcolor : shadeColor P m fr with
    | none => exact ⟨fun _ => ⟨fun _ _ _ => rfl, fun _ _ => .inl rfl, fun _ _ => rfl⟩, nofun⟩
    | some color =>
        dsimp only
        by_cases hpass : (shadeDepth P px py (zsrc P widen fr) m).1 = false
        · rw [if_pos hpass]
          refine ⟨fun _ => ⟨hkeeps.frame, fun za hza => .inl ?_, hkeeps.stencil⟩, nofun⟩
          rcases hkeeps.depth za hza with hsame | ⟨-, za', hza', hs⟩
          · exact hsame
          · rw [(shadeDepth_stores hza' hs).1] at hpass
            cases hpass
        · rw [if_neg hpass]
          by_cases hin : DstInside P px py
          · rw [if_pos hin]
            exact ⟨nofun, fun _ => ⟨color, rfl, drawn_of_shade hapart hin⟩⟩
          · rw [if_neg hin]
            refine ⟨fun _ => ⟨hkeeps.frame, fun za hza => .inl ?_, hkeeps.stencil⟩, nofun⟩
            rcases hkeeps.depth za hza with hsame | ⟨heq, za', hza', hs⟩
            · exact hsame
            -- the depth is stored, so it is the one that was there
            · obtain rfl := Option.some.inj (hza.symm.trans hza')
              rw [heq]
              by_contra hne
              exact hlate ⟨⟨color, hcolor⟩, hin, za, hza, hs, hne⟩

/-! ## The last pixel of video memory -/

/-- The rationals for the host's floating types. -/
local instance ratFloat : CFloat ℚ where
  lt a b := decide (a < b)
  lit := id
  ofU32 v := v.toNat
  toU32 q := BitVec.ofInt 32 (q.num.tdiv q.den)
  toInt q := q.num.tdiv q.den

/-- A 16-bit destination in the last row of 32 MB, and a Z buffer of 16 bits at zero that is always
written. -/
def lastRow : Pipe ℚ where
  vramSize := 0x2000000
  bypp := 2#32
  dstType := 4#32
  dstOff := 0x1FFFFF0#32
  dstStride := 16#32
  planeMask := 0xFFFFFFFF#32
  zEn := true
  zWr := true
  stEn := false
  zw := 16#32
  zTest := 7#32
  zOff := 0#32
  zStride := 16#32
  stTest := 7#32
  stSFail := 0#32
  stZPass := 0#32
  stZFail := 0#32
  stRef := 0#32
  stMask := 0#32
  stWrMask := 0#32
  texCntl := 3#32
  blendEn := false
  alphaTestEn := false
  fogEn := false
  fogTable := false
  specEn := false
  chromaEn := false
  blendSrc := 1#32
  blendDst := 0#32
  blendComb := 0#32
  alphaOp := 7#32
  refAlpha := 0#32
  fogR := 0
  fogG := 0
  fogB := 0
  chromaClr := 0#32
  chromaMsk := 0#32
  constA := 0
  constR := 0
  constG := 0
  constB := 0
  tex := fun _ => ⟨false, 0#32, false, fun _ _ _ _ => ⟨0, 0, 0, 0⟩⟩
  texAny := false
  fogTab := fun _ => 0#8

/-- A white fragment at the far plane. -/
def farWhite : Frag ℚ :=
  ⟨1, ⟨255, 255, 255, 255⟩, ⟨255, 0, 0, 0⟩, 0, 0, 0, 0, 0, 0, 0⟩

theorem lastRow_apart {px : U32} (za : U64) (hz : zAddr lastRow px 0#32 = some za)
    (hoff : ∀ k < 2, ∀ j < 2, cellAt (dstAddr lastRow px 0#32) j ≠ cellAt za k) :
    Apart lastRow px 0#32 := by
  intro za' hza' i hi hi'
  obtain rfl := Option.some.inj (hz.symm.trans hza')
  obtain ⟨k, hk, rfl⟩ := hi
  obtain ⟨j, hj, hjk⟩ := hi'
  exact hoff k hk j hj hjk

theorem fragment_tells_at_seven : Tells lastRow (id : ℚ → ℚ) 7#32 0#32 farWhite fun _ => 0#8 :=
  (fragment_tells_iff lastRow id 7#32 0#32 farWhite (fun _ => 0#8)
    (lastRow_apart 14#64 (by decide) (by decide))).mpr fun h => h.2.1 (by decide)

theorem fragment_tells_not : ¬ ∀ (F D : Type) [CFloat F] [CFloat D] (P : Pipe F) (widen : F → D)
    (px py : U32) (fr : Frag F) (m : ℕ → U8), Apart P px py → Tells P widen px py fr m := by
  intro h
  have hapart : Apart lastRow 8#32 0#32 := lastRow_apart 16#64 (by decide) (by decide)
  obtain ⟨hrejected, -⟩ := h ℚ ℚ lastRow id 8#32 0#32 farWhite (fun _ => 0#8) hapart
  have hkeeps := hrejected (by decide +kernel)
  rcases hkeeps.depth 16#64 (by decide) with hsame | hnone
  · revert hsame
    decide +kernel
  · exact hnone

end R128Pipe

end OpenPowerMac
