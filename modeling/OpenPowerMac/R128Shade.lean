/-
The back end of the 3D pipe, one fragment at a time: `shadeFragment` of `machine/src/r128_3d.cpp`
with the combine units, the blender, and the Z and stencil cells.

The source computes in `float` and, for depth, in `double`. A `CFloat` is such a type: what its
operations return is left to it, and nothing below depends on it. A texel is what `sampleTex`
returns, which reads the texture from video memory and nothing else here.
-/
import OpenPowerMac.Overlay
import OpenPowerMac.Word
import Mathlib.Data.List.Nodup
import Mathlib.Data.Rat.Floor
import Mathlib.Tactic.Common

set_option autoImplicit false

namespace OpenPowerMac

/-- A floating type of the host: its arithmetic, its literals and its conversions. -/
class CFloat (F : Type) extends Add F, Sub F, Mul F, Div F where
  lt : F → F → Bool
  lit : ℚ → F
  ofU32 : U32 → F
  toU32 : F → U32
  toInt : F → ℤ

open CFloat (lt lit ofU32 toU32 toInt)

namespace R128Pipe

/-! ## Cells of video memory, the most significant byte first -/

/-- Byte `k` of a cell; the index is a 64-bit sum. -/
def cellAt (at_ : U64) (k : ℕ) : ℕ := (at_ + BitVec.ofNat 64 k).toNat

/-- An index is in a cell of `n` bytes. -/
def InCell (at_ : U64) (n i : ℕ) : Prop := ∃ k < n, cellAt at_ k = i

def readCell (m : ℕ → U8) (at_ : U64) (n : ℕ) : U32 :=
  (List.range n).foldl (fun v k => (v <<< 8) ||| (m (cellAt at_ k)).setWidth 32) 0#32

/-- Byte `k` of a word of `n` bytes. -/
def cellByte (n : ℕ) (v : U32) (k : ℕ) : U8 := (v >>> (8 * (n - 1 - k))).setWidth 8

def writeCell (m : ℕ → U8) (at_ : U64) (n : ℕ) (v : U32) : ℕ → U8 :=
  overlay m ((List.range n).map fun k => (cellAt at_ k, cellByte n v k))

theorem cellAt_inj {at_ : U64} {j k : ℕ} (hj : j < 2 ^ 64) (hk : k < 2 ^ 64)
    (h : cellAt at_ j = cellAt at_ k) : j = k := by
  have hsum : BitVec.ofNat 64 j = BitVec.ofNat 64 k :=
    (BitVec.add_right_inj at_).mp (BitVec.eq_of_toNat_eq h)
  have hnat := congrArg BitVec.toNat hsum
  rwa [BitVec.toNat_ofNat, BitVec.toNat_ofNat, Nat.mod_eq_of_lt hj, Nat.mod_eq_of_lt hk] at hnat

theorem writeCell_off (m : ℕ → U8) {at_ : U64} {n i : ℕ} (v : U32) (h : ¬ InCell at_ n i) :
    writeCell m at_ n v i = m i := by
  refine overlay_of_not_reaches _ ?_
  rintro ⟨w, hw, hi⟩
  obtain ⟨k, hk, rfl⟩ := List.mem_map.mp hw
  exact h ⟨k, List.mem_range.mp hk, hi⟩

theorem writeCell_at (m : ℕ → U8) (at_ : U64) {n k : ℕ} (v : U32) (hn : n < 2 ^ 64) (hk : k < n) :
    writeCell m at_ n v (cellAt at_ k) = cellByte n v k := by
  refine overlay_mem _ (w := (cellAt at_ k, cellByte n v k)) ?_
    (List.mem_map.mpr ⟨k, List.mem_range.mpr hk, rfl⟩)
  rw [List.map_map]
  refine List.Nodup.map_on ?_ List.nodup_range
  intro i hi j hj hij
  exact cellAt_inj ((List.mem_range.mp hi).trans hn) ((List.mem_range.mp hj).trans hn) hij

/-- A cell that is not written reads as it did. -/
theorem readCell_congr {m m' : ℕ → U8} {at_ : U64} {n : ℕ} (h : ∀ i, InCell at_ n i → m' i = m i) :
    readCell m' at_ n = readCell m at_ n := by
  unfold readCell
  refine List.foldl_ext _ _ _ ?_
  intro v k hk
  rw [h _ ⟨k, List.mem_range.mp hk, rfl⟩]

/-- The first `j` bytes of a word of `n` bytes, shifted in one after another. -/
def shiftIn (n : ℕ) (v : U32) (j : ℕ) : U32 :=
  (List.range j).foldl (fun w k => (w <<< 8) ||| (cellByte n v k).setWidth 32) 0#32

theorem shiftIn_bits (n : ℕ) (v : U32) (j : ℕ) (hj : j ≤ n) : ∀ i < 32,
    (shiftIn n v j).getLsbD i = (decide (i < 8 * j) && v.getLsbD (i + 8 * (n - j))) := by
  induction j with
  | zero =>
      intro i _
      simp [shiftIn]
  | succ j ih =>
      intro i hi
      have hbefore := ih (by omega)
      rw [shiftIn] at hbefore ⊢
      rw [List.range_succ, List.foldl_append, List.foldl_cons, List.foldl_nil, BitVec.getLsbD_or,
        BitVec.getLsbD_shiftLeft, BitVec.getLsbD_setWidth, cellByte, BitVec.getLsbD_setWidth,
        BitVec.getLsbD_ushiftRight]
      by_cases hlow : i < 8
      · -- the byte that comes last
        have hidx : 8 * (n - 1 - j) + i = i + 8 * (n - (j + 1)) := by omega
        simp [hlow, hi, hidx, show i < 8 * (j + 1) by omega]
      · have hidx : i - 8 + 8 * (n - j) = i + 8 * (n - (j + 1)) := by omega
        rw [hbefore (i - 8) (by omega), hidx]
        have hiff : (i - 8 < 8 * j) ↔ i < 8 * (j + 1) := by omega
        simp [hlow, hi, hiff]

/-- What a cell reads as once it has been written. -/
theorem readCell_writeCell (m : ℕ → U8) (at_ : U64) {n : ℕ} (v : U32) (hn : n < 2 ^ 64) {i : ℕ}
    (hi : i < 32) :
    (readCell (writeCell m at_ n v) at_ n).getLsbD i = (decide (i < 8 * n) && v.getLsbD i) := by
  have hbytes : readCell (writeCell m at_ n v) at_ n = shiftIn n v n := by
    unfold readCell shiftIn
    refine List.foldl_ext _ _ _ ?_
    intro w k hk
    rw [writeCell_at m at_ v hn (List.mem_range.mp hk)]
  rw [hbytes, shiftIn_bits n v n le_rfl i hi, Nat.sub_self]
  rfl

/-! ## The pipe -/

/-- `Rgba`. -/
structure Rgba (F : Type) where
  a : F
  r : F
  g : F
  b : F

/-- `TexUnit`, but for what only the sampler reads: that is the last field. -/
structure TexUnit (F : Type) where
  on : Bool
  comb : U32
  useSecondSt : Bool
  /-- `sampleTex` of this unit. -/
  sample : (ℕ → U8) → F → F → F → Rgba F

/-- `Pipe`. -/
structure Pipe (F : Type) where
  vramSize : ℕ
  bypp : U32
  dstType : U32
  dstOff : U32
  dstStride : U32
  planeMask : U32
  zEn : Bool
  zWr : Bool
  stEn : Bool
  zw : U32
  zTest : U32
  zOff : U32
  zStride : U32
  stTest : U32
  stSFail : U32
  stZPass : U32
  stZFail : U32
  stRef : U32
  stMask : U32
  stWrMask : U32
  texCntl : U32
  blendEn : Bool
  alphaTestEn : Bool
  fogEn : Bool
  fogTable : Bool
  specEn : Bool
  chromaEn : Bool
  blendSrc : U32
  blendDst : U32
  blendComb : U32
  alphaOp : U32
  refAlpha : U32
  fogR : F
  fogG : F
  fogB : F
  chromaClr : U32
  chromaMsk : U32
  constA : F
  constR : F
  constG : F
  constB : F
  tex : Fin 2 → TexUnit F
  texAny : Bool
  /-- `gFog.t`. -/
  fogTab : ℕ → U8

/-- `Frag`. -/
structure Frag (F : Type) where
  z : F
  diffuse : Rgba F
  spec : Rgba F
  fog : F
  s1 : F
  t1 : F
  s2 : F
  t2 : F
  lod1 : F
  lod2 : F

section

variable {F : Type} [CFloat F]

def clamp255 (v : F) : F := if lt v (lit 0) then lit 0 else if lt (lit 255) v then lit 255 else v

/-- An `Rgba` with three of its fields set. -/
def Rgba.ofRgb (r g b : F) : Rgba F := ⟨lit 255, r, g, b⟩

/-! ## The combine units -/

def pickColorFactor (P : Pipe F) (sel : U32) (tex interp prev : Rgba F) : Rgba F :=
  match sel.toNat with
  | 0 => .ofRgb P.constR P.constG P.constB
  | 1 => .ofRgb (lit 255 - P.constR) (lit 255 - P.constG) (lit 255 - P.constB)
  | 4 => tex
  | 5 => .ofRgb (lit 255 - tex.r) (lit 255 - tex.g) (lit 255 - tex.b)
  | 6 => .ofRgb tex.a tex.a tex.a
  | 7 => .ofRgb (lit 255 - tex.a) (lit 255 - tex.a) (lit 255 - tex.a)
  | 8 => prev
  | _ => interp

def pickInputFactor (P : Pipe F) (sel : U32) (interp prev : Rgba F) : Rgba F :=
  match sel.toNat with
  | 2 => .ofRgb P.constR P.constG P.constB
  | 3 => .ofRgb P.constA P.constA P.constA
  | 4 => interp
  | 5 => .ofRgb interp.a interp.a interp.a
  | 8 => prev
  | 9 => .ofRgb prev.a prev.a prev.a
  | _ => interp

def combChannel (fn : U32) (cf inf texA intA constA texC cfConst : F) : F :=
  match fn.toNat with
  | 1 => cf
  | 2 => inf
  | 3 => cf * inf / lit 255
  | 4 => cf * inf / lit (255 / 2)
  | 5 => cf * inf / lit (255 / 4)
  | 6 => cf + inf
  | 7 => cf + inf - lit 128
  | 8 => (cf * intA + inf * (lit 255 - intA)) / lit 255
  | 9 => (cf * texA + inf * (lit 255 - texA)) / lit 255
  | 10 => (cf * constA + inf * (lit 255 - constA)) / lit 255
  | 11 => cf + inf * (lit 255 - texA) / lit 255
  | 12 => (cf * texA + inf * (lit 255 - texA)) / lit 255
  | 13 => cf + inf * texA / lit 255
  | 14 => (cf + inf - lit 128) * lit 2
  | 15 => (cf * cfConst + inf * (lit 255 - cfConst)) / lit 255
  | _ => texC

def combineUnit (P : Pipe F) (t : TexUnit F) (tex interp prev : Rgba F) : Rgba F :=
  let comb := t.comb &&& 0xF#32
  let combA := (t.comb >>> 14) &&& 0xF#32
  let cf := pickColorFactor P ((t.comb >>> 4) &&& 0xF#32) tex interp prev
  let inf := pickInputFactor P ((t.comb >>> 10) &&& 0xF#32) interp prev
  let af := if (t.comb >>> 18) &&& 0xF#32 = 7#32 then lit 255 - tex.a else tex.a
  let inASel := (t.comb >>> 25) &&& 0x7#32
  let inA := if inASel = 1#32 then P.constA else if inASel = 4#32 then prev.a else interp.a
  { r := clamp255 (combChannel comb cf.r inf.r tex.a interp.a P.constA tex.r P.constR)
    g := clamp255 (combChannel comb cf.g inf.g tex.a interp.a P.constA tex.g P.constG)
    b := clamp255 (combChannel comb cf.b inf.b tex.a interp.a P.constA tex.b P.constB)
    a := clamp255 (match combA.toNat with
      | 1 => af
      | 2 => inA
      | 3 => af * inA / lit 255
      | 4 => af * inA / lit (255 / 2)
      | 5 => af * inA / lit (255 / 4)
      | 6 => af + inA
      | 7 => af + inA - lit 128
      | 14 => (af + inA - lit 128) * lit 2
      | _ => tex.a) }

def texLight (P : Pipe F) (tex interp : Rgba F) : Rgba F :=
  let fn := (P.texCntl >>> 14) &&& 0xF#32
  let fnA := (P.texCntl >>> 18) &&& 0x7#32
  { r := clamp255 (combChannel fn tex.r interp.r tex.a interp.a P.constA tex.r P.constR)
    g := clamp255 (combChannel fn tex.g interp.g tex.a interp.a P.constA tex.g P.constG)
    b := clamp255 (combChannel fn tex.b interp.b tex.a interp.a P.constA tex.b P.constB)
    a := match fnA.toNat with
      | 1 => tex.a
      | 2 => interp.a
      | 3 => tex.a * interp.a / lit 255
      | 4 => clamp255 (tex.a * interp.a / lit (255 / 2))
      | 5 => clamp255 (tex.a * interp.a / lit (255 / 4))
      | 6 => clamp255 (tex.a + interp.a)
      | 7 => clamp255 (tex.a + interp.a - lit 128)
      | _ => tex.a }

/-! ## The destination -/

def dstRead (P : Pipe F) (m : ℕ → U8) (at_ : U64) : U32 := readCell m at_ P.bypp.toNat

/-- What `dstWrite` stores for `v`: the bits the plane mask leaves out stay. -/
def dstWord (P : Pipe F) (m : ℕ → U8) (at_ : U64) (v : U32) : U32 :=
  if P.planeMask ≠ 0xFFFFFFFF#32 then (dstRead P m at_ &&& ~~~P.planeMask) ||| (v &&& P.planeMask)
  else v

def dstWrite (P : Pipe F) (m : ℕ → U8) (at_ : U64) (v : U32) : ℕ → U8 :=
  writeCell m at_ P.bypp.toNat (dstWord P m at_ v)

def dstDecode (P : Pipe F) (v : U32) : Rgba F :=
  if P.dstType = 4#32 then
    { a := lit 255
      r := ofU32 (((v >>> 11) &&& 0x1F#32) * 255#32 / 31#32)
      g := ofU32 (((v >>> 5) &&& 0x3F#32) * 255#32 / 63#32)
      b := ofU32 ((v &&& 0x1F#32) * 255#32 / 31#32) }
  else if P.dstType = 3#32 then
    { a := if v &&& 0x8000#32 ≠ 0#32 then lit 255 else lit 0
      r := ofU32 (((v >>> 10) &&& 0x1F#32) * 255#32 / 31#32)
      g := ofU32 (((v >>> 5) &&& 0x1F#32) * 255#32 / 31#32)
      b := ofU32 ((v &&& 0x1F#32) * 255#32 / 31#32) }
  else
    { a := ofU32 (v >>> 24)
      r := ofU32 ((v >>> 16) &&& 0xFF#32)
      g := ofU32 ((v >>> 8) &&& 0xFF#32)
      b := ofU32 (v &&& 0xFF#32) }

def dstEncode (P : Pipe F) (c : Rgba F) : U32 :=
  let r := toU32 (clamp255 c.r + lit (1 / 2))
  let g := toU32 (clamp255 c.g + lit (1 / 2))
  let b := toU32 (clamp255 c.b + lit (1 / 2))
  let a := toU32 (clamp255 c.a + lit (1 / 2))
  if P.dstType = 4#32 then ((r >>> 3) <<< 11) ||| ((g >>> 2) <<< 5) ||| (b >>> 3)
  else if P.dstType = 3#32 then
    ((a >>> 7) <<< 15) ||| ((r >>> 3) <<< 10) ||| ((g >>> 3) <<< 5) ||| (b >>> 3)
  else (a <<< 24) ||| (r <<< 16) ||| (g <<< 8) ||| b

/-! ## Blending -/

def blendFactor (sel : U32) (s d : Rgba F) (isSrc : Bool) : Rgba F :=
  let all (x : F) : Rgba F := ⟨x, x, x, x⟩
  let c255 : F := lit 255
  match sel.toNat with
  | 0 => all (lit 0)
  | 2 => s
  | 3 => ⟨c255 - s.a, c255 - s.r, c255 - s.g, c255 - s.b⟩
  | 4 => all s.a
  | 5 => all (c255 - s.a)
  | 6 => all d.a
  | 7 => all (c255 - d.a)
  | 8 => d
  | 9 => ⟨c255 - d.a, c255 - d.r, c255 - d.g, c255 - d.b⟩
  | 10 =>
    let m := if lt s.a (c255 - d.a) then s.a else c255 - d.a
    ⟨c255, m, m, m⟩
  | 11 => if isSrc then all s.a else all (c255 - s.a)
  | 12 => if isSrc then all (c255 - s.a) else all s.a
  | _ => all c255

/-- The blended colour, over a destination of `dst`. -/
def blend (P : Pipe F) (color dst : Rgba F) : Rgba F :=
  let fs := blendFactor P.blendSrc color dst true
  let fd := if P.blendSrc = 11#32 ∨ P.blendSrc = 12#32 then blendFactor P.blendSrc color dst false
    else blendFactor P.blendDst color dst true
  let ch (sc dc sf df : F) : F :=
    let v := if 2#32 ≤ P.blendComb then (sc * sf - dc * df) / lit 255
      else (sc * sf + dc * df) / lit 255
    if P.blendComb &&& 1#32 = 0#32 then clamp255 v else v
  { r := ch color.r dst.r fs.r fd.r
    g := ch color.g dst.g fs.g fd.g
    b := ch color.b dst.b fs.b fd.b
    a := ch color.a dst.a fs.a fd.a }

/-! ## Z and stencil -/

/-- The bytes of a Z cell. -/
def zb (P : Pipe F) : ℕ := if P.zw = 16#32 then 2 else 4

/-- `zAddr`; the coordinates are `int`s. -/
def zAddr (P : Pipe F) (px py : U32) : Option U64 :=
  let at_ := P.zOff.setWidth 64 + py.signExtend 64 * P.zStride.setWidth 64
    + px.signExtend 64 * BitVec.ofNat 64 (zb P)
  if P.zStride ≠ 0#32 ∧ (at_ + BitVec.ofNat 64 (zb P)).toNat ≤ P.vramSize then some at_ else none

def zRead (P : Pipe F) (m : ℕ → U8) (at_ : U64) : U32 := readCell m at_ (zb P)

def zStore (P : Pipe F) (m : ℕ → U8) (at_ : U64) (v : U32) : ℕ → U8 := writeCell m at_ (zb P) v

def cmp8 (fn src ref : U32) : Bool :=
  match fn.toNat with
  | 0 => false
  | 1 => decide (src < ref)
  | 2 => decide (src ≤ ref)
  | 3 => decide (src = ref)
  | 4 => decide (ref ≤ src)
  | 5 => decide (ref < src)
  | 6 => decide (src ≠ ref)
  | _ => true

def stencilOp (op cur ref : U32) : U32 :=
  match op.toNat with
  | 1 => 0#32
  | 2 => ref
  | 3 => if cur = 0xFF#32 then 0xFF#32 else cur + 1#32
  | 4 => if cur = 0#32 then 0#32 else cur - 1#32
  | 5 => ~~~cur &&& 0xFF#32
  | _ => cur

/-- `zsrc`: the fragment's depth in the units of the Z buffer. `D` is `double`. -/
def zsrc {D : Type} [CFloat D] (P : Pipe F) (widen : F → D) (fr : Frag F) : U32 :=
  let zf := widen fr.z
  let zf := if lt zf (lit 0) then lit 0 else if lt (lit 1) zf then lit 1 else zf
  if P.zw = 16#32 then toU32 (zf * lit 65535 + lit (1 / 2))
  else if P.zw = 24#32 then toU32 (zf * lit 16777215 + lit (1 / 2))
  else toU32 (zf * lit 4294967295)

/-- The depth of a cell. -/
def depth (P : Pipe F) (cell : U32) : U32 := if P.zw = 24#32 then cell &&& 0xFFFFFF#32 else cell

/-! ## The fragment -/

/-- The first part of `shadeFragment`: the colour, unless the chroma key or the alpha test
rejects it. -/
def shadeColor (P : Pipe F) (m : ℕ → U8) (fr : Frag F) : Option (Rgba F) := do
  let t0 := P.tex 0
  let t1 := P.tex 1
  let color ←
    if P.texAny then
      let tex0 := t0.sample m fr.s1 fr.t1 fr.lod1
      let t32 := (toU32 (tex0.a + lit (1 / 2)) <<< 24) ||| (toU32 (tex0.r + lit (1 / 2)) <<< 16)
        ||| (toU32 (tex0.g + lit (1 / 2)) <<< 8) ||| toU32 (tex0.b + lit (1 / 2))
      -- the colour key is on the first texture's texel, before any combining
      if P.chromaEn ∧ t32 &&& P.chromaMsk = P.chromaClr &&& P.chromaMsk then none
      else
        let out := combineUnit P t0 tex0 fr.diffuse fr.diffuse
        let out :=
          if t1.on then
            let tex1 := t1.sample m (if t1.useSecondSt then fr.s2 else fr.s1)
              (if t1.useSecondSt then fr.t2 else fr.t1)
              (if t1.useSecondSt then fr.lod2 else fr.lod1)
            combineUnit P t1 tex1 fr.diffuse out
          else out
        some (texLight P out fr.diffuse)
    else some fr.diffuse
  let color : Rgba F :=
    if P.specEn then
      { color with
        r := clamp255 (color.r + fr.spec.r)
        g := clamp255 (color.g + fr.spec.g)
        b := clamp255 (color.b + fr.spec.b) }
    else color
  let color : Rgba F :=
    if P.fogEn then
      let idx := toInt (fr.z * lit 255 + lit (1 / 2))
      let f := if P.fogTable then
          ofU32 ((P.fogTab (max 0 (min idx 255)).toNat).setWidth 32)
        else fr.fog
      { color with
        r := (color.r * f + P.fogR * (lit 255 - f)) / lit 255
        g := (color.g * f + P.fogG * (lit 255 - f)) / lit 255
        b := (color.b * f + P.fogB * (lit 255 - f)) / lit 255 }
    else color
  -- the alpha test is the last
  if P.alphaTestEn ∧ cmp8 P.alphaOp (toU32 (clamp255 color.a + lit (1 / 2))) P.refAlpha = false then
    none
  else some color

/-- The second part: Z and stencil. The fragment's depth is `zs`. -/
def shadeDepth (P : Pipe F) (px py zs : U32) (m : ℕ → U8) : Bool × (ℕ → U8) :=
  if P.zEn ∨ (P.stEn ∧ P.zw = 24#32) then
    match zAddr P px py with
    | none => (false, m)
    | some za =>
      let cell := zRead P m za
      let zdst := depth P cell
      -- the stencil lies over a 24-bit depth, and only there
      if P.stEn ∧ P.zw = 24#32 then
        let sCur := cell >>> 24
        let sPass := cmp8 P.stTest (P.stRef &&& P.stMask) (sCur &&& P.stMask)
        let zPass := !P.zEn || cmp8 P.zTest zs zdst
        let op := if !sPass then P.stSFail else if zPass then P.stZPass else P.stZFail
        let sNew := stencilOp op sCur P.stRef
        let sOut := (sCur &&& ~~~P.stWrMask) ||| (sNew &&& P.stWrMask)
        let zOut := if sPass ∧ zPass ∧ P.zEn ∧ P.zWr then zs &&& 0xFFFFFF#32 else zdst
        (sPass && zPass, zStore P m za ((sOut <<< 24) ||| zOut))
      else if P.zEn then
        if cmp8 P.zTest zs zdst then
          (true, if P.zWr then
              zStore P m za (if P.zw = 24#32 then (cell &&& 0xFF000000#32) ||| (zs &&& 0xFFFFFF#32)
                else zs)
            else m)
        else (false, m)
      else (true, m)
  else (true, m)

/-- The address of a pixel's colour cell. -/
def dstAddr (P : Pipe F) (px py : U32) : U64 :=
  P.dstOff.setWidth 64 + py.signExtend 64 * P.dstStride.setWidth 64
    + px.signExtend 64 * P.bypp.setWidth 64

/-- The colour cell is inside video memory. -/
def DstInside (P : Pipe F) (px py : U32) : Prop :=
  (dstAddr P px py + P.bypp.setWidth 64).toNat ≤ P.vramSize

instance (P : Pipe F) (px py : U32) : Decidable (DstInside P px py) :=
  inferInstanceAs (Decidable (_ ≤ _))

/-- The word that is written for a colour over what the cell holds. -/
def dstPixel (P : Pipe F) (m : ℕ → U8) (at_ : U64) (color : Rgba F) : U32 :=
  dstEncode P (if P.blendEn then blend P color (dstDecode P (dstRead P m at_)) else color)

/-- `shadeFragment`: whether the fragment was drawn, and video memory after it. -/
def shadeFragment {D : Type} [CFloat D] (P : Pipe F) (widen : F → D) (px py : U32) (fr : Frag F)
    (m : ℕ → U8) : Bool × (ℕ → U8) :=
  match shadeColor P m fr with
  | none => (false, m)
  | some color =>
    let d := shadeDepth P px py (zsrc P widen fr) m
    if d.1 = false then (false, d.2)
    else
      let at_ := dstAddr P px py
      if DstInside P px py then (true, dstWrite P d.2 at_ (dstPixel P d.2 at_ color))
      else (false, d.2)

end

end R128Pipe

end OpenPowerMac
