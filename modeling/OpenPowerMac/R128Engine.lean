/-
The Rage 128's 2D engine: `rop3`, `engBlit` and `engWrite` of `machine/src/r128.cpp`, with the
3D unit's share of the block (`r128Eng3dWrite` of `machine/src/r128_3d.cpp`).

`engBlit` is in two parts: what it makes of the registers, up to where it declines (`blitOf`),
and what it draws. The memory it draws in keeps a list of every byte it was asked for, whether
or not it has that byte.
-/
import OpenPowerMac.Cce3d

set_option autoImplicit false

namespace OpenPowerMac

/-! ## Pixels -/

/-- The card's memory: its size, its bytes, and every byte that was read or written. -/
structure Vram where
  size : ℕ
  bytes : ℕ → U8
  touched : List ℕ

/-- `pixAt`: the most significant byte first. -/
def pixOf (bytes : ℕ → U8) (bypp o : ℕ) : U32 :=
  (List.range bypp).foldl (fun v k => (v <<< 8) ||| (bytes (o + k)).setWidth 32) 0#32

/-- The bytes with a pixel stored over them. -/
def putBytes (bytes : ℕ → U8) (bypp o : ℕ) (v : U32) : ℕ → U8 := fun a =>
  if o ≤ a ∧ a < o + bypp then (v >>> (8 * (bypp - 1 - (a - o)))).setWidth 8 else bytes a

/-- The bytes with a run of them moved, as from a copy. -/
def moveBytes (bytes : ℕ → U8) (d s n : ℕ) : ℕ → U8 := fun a =>
  if d ≤ a ∧ a < d + n then bytes (s + (a - d)) else bytes a

namespace Vram

variable (v : Vram)

def touch (o n : ℕ) : Vram := { v with touched := v.touched ++ (List.range n).map (o + ·) }

def pixAt (bypp o : ℕ) : U32 × Vram := (pixOf v.bytes bypp o, v.touch o bypp)

/-- `putPix`: under a mask that is not all ones the pixel is read first. -/
def putPix (bypp : ℕ) (mask : U32) (o : ℕ) (x : U32) : Vram :=
  if mask ≠ 0xFFFFFFFF#32 then
    let r := v.pixAt bypp o
    let x := (r.1 &&& ~~~mask) ||| (x &&& mask)
    { r.2.touch o bypp with bytes := putBytes v.bytes bypp o x }
  else { v.touch o bypp with bytes := putBytes v.bytes bypp o x }

def memmove (d s n : ℕ) : Vram :=
  { (v.touch s n).touch d n with bytes := moveBytes v.bytes d s n }

end Vram

/-- `rop3`: the code's bit at (P, S, D) is the result there. -/
def rop3 (rop P S D : U32) : U32 :=
  (if rop &&& 0x01#32 ≠ 0#32 then ~~~P &&& ~~~S &&& ~~~D else 0#32)
    ||| (if rop &&& 0x02#32 ≠ 0#32 then ~~~P &&& ~~~S &&& D else 0#32)
    ||| (if rop &&& 0x04#32 ≠ 0#32 then ~~~P &&& S &&& ~~~D else 0#32)
    ||| (if rop &&& 0x08#32 ≠ 0#32 then ~~~P &&& S &&& D else 0#32)
    ||| (if rop &&& 0x10#32 ≠ 0#32 then P &&& ~~~S &&& ~~~D else 0#32)
    ||| (if rop &&& 0x20#32 ≠ 0#32 then P &&& ~~~S &&& D else 0#32)
    ||| (if rop &&& 0x40#32 ≠ 0#32 then P &&& S &&& ~~~D else 0#32)
    ||| (if rop &&& 0x80#32 ≠ 0#32 then P &&& S &&& D else 0#32)

def ropUsesSrc (rop : U32) : Bool := decide (rop &&& 0x33#32 ≠ (rop >>> 2) &&& 0x33#32)
def ropUsesPat (rop : U32) : Bool := decide (rop &&& 0x0F#32 ≠ (rop >>> 4) &&& 0x0F#32)
def ropUsesDst (rop : U32) : Bool := decide (rop &&& 0x55#32 ≠ (rop >>> 1) &&& 0x55#32)

/-- `sx14`: a coordinate of 14 bits with a sign. -/
def sx14 (v : U32) : ℤ :=
  let t : ℤ := (v &&& 0x3FFF#32).toNat
  if 0x2000 ≤ t then t - 0x4000 else t

/-! ## What a blit is -/

/-- The operation and the surfaces of a blit. -/
structure Raster where
  bpp : ℕ
  rop : U32
  pat : U32
  mask : U32
  dstStride : ℕ
  srcStride : ℕ
  dstOff : ℕ
  srcOff : ℕ
  deriving DecidableEq

namespace Raster

variable (r : Raster)

def bypp : ℕ := r.bpp / 8
def usesSrc : Bool := ropUsesSrc r.rop
def usesDst : Bool := ropUsesDst r.rop
def plain : Bool := decide (r.mask = 0xFFFFFFFF#32)

end Raster

/-- The clipped rectangle of a blit, its source and the way it is walked. -/
structure Rect where
  l2r : Bool
  t2b : Bool
  x0 : ℤ
  y0 : ℤ
  csx : ℤ
  csy : ℤ
  cw : ℕ
  ch : ℕ
  deriving DecidableEq

structure Blit extends Raster, Rect
  deriving DecidableEq

namespace Blit

variable (b : Blit)

/-- A row of the destination, and the row of the source it is drawn from. -/
def dstAt (r : ℕ) : ℕ := b.dstOff + (b.y0.toNat + r) * b.dstStride + b.x0.toNat * b.bypp
def srcAt (r : ℕ) : ℕ := b.srcOff + (b.csy.toNat + r) * b.srcStride + b.csx.toNat * b.bypp

/-- The row and the column drawn at a turn of the loops. -/
def rowAt (r : ℕ) : ℕ := if b.t2b then r else b.ch - 1 - r
def colAt (c : ℕ) : ℕ := if b.l2r then c else b.cw - 1 - c

/-- An operation that is constant over the rectangle. -/
def drawFill (v : Vram) : Vram :=
  (List.range b.ch).foldl (fun v r =>
    (List.range b.cw).foldl (fun v c =>
      v.putPix b.bypp b.mask (b.dstAt r + c * b.bypp) (rop3 b.rop b.pat 0#32 0#32)) v) v

/-- A straight copy, whole rows at a time. -/
def drawCopy (v : Vram) : Vram :=
  (List.range b.ch).foldl (fun v r =>
    v.memmove (b.dstAt (b.rowAt r)) (b.srcAt (b.rowAt r)) (b.cw * b.bypp)) v

/-- One pixel by the truth table. -/
def drawPixel (v : Vram) (dp sp : ℕ) : Vram :=
  let s := if b.usesSrc then v.pixAt b.bypp sp else (0#32, v)
  let d := if b.usesDst then s.2.pixAt b.bypp dp else (0#32, s.2)
  d.2.putPix b.bypp b.mask dp (rop3 b.rop b.pat s.1 d.1)

/-- The general case: pixel by pixel, the way the directions say. -/
def drawPixels (v : Vram) : Vram :=
  (List.range b.ch).foldl (fun v r =>
    (List.range b.cw).foldl (fun v c =>
      b.drawPixel v (b.dstAt (b.rowAt r) + b.colAt c * b.bypp)
        (b.srcAt (b.rowAt r) + b.colAt c * b.bypp)) v) v

def draw (v : Vram) : Vram :=
  if ¬ b.usesSrc ∧ ¬ b.usesDst then b.drawFill v
  else if b.rop = 0xCC#32 ∧ b.plain then b.drawCopy v
  else b.drawPixels v

end Blit

/-! ## What the registers say -/

namespace R128Cell

def kDstOffset : U32 := 0x1404#32
def kDstPitch : U32 := 0x1408#32
def kDstWidth : U32 := 0x140C#32
def kDstHeight : U32 := 0x1410#32
def kSrcX : U32 := 0x1414#32
def kSrcY : U32 := 0x1418#32
def kDstX : U32 := 0x141C#32
def kDstY : U32 := 0x1420#32
def kSrcPitchOffset : U32 := 0x1428#32
def kDstPitchOffset : U32 := 0x142C#32
def kSrcYX : U32 := 0x1434#32
def kDstYX : U32 := 0x1438#32
def kDstHeightWidth : U32 := 0x143C#32
def kDpGuiMasterCntl : U32 := 0x146C#32
def kDpBrushFrgdClr : U32 := 0x147C#32
def kDstWidthX : U32 := 0x1588#32
def kSrcXY : U32 := 0x1590#32
def kDstXY : U32 := 0x1594#32
def kDstWidthHeight : U32 := 0x1598#32
def kDstWidthXIncy : U32 := 0x159C#32
def kDstHeightY : U32 := 0x15A0#32
def kSrcOffset : U32 := 0x15AC#32
def kSrcPitch : U32 := 0x15B0#32
def kDstWidthBw : U32 := 0x15B4#32
def kClrCmpCntl : U32 := 0x15C0#32
def kClrCmpMsk : U32 := 0x15CC#32
def kScLeft : U32 := 0x1640#32
def kScRight : U32 := 0x1644#32
def kScTop : U32 := 0x1648#32
def kScBottom : U32 := 0x164C#32
def kSrcScRight : U32 := 0x1654#32
def kSrcScBottom : U32 := 0x165C#32
def kAuxScCntl : U32 := 0x1660#32
def kDpCntl : U32 := 0x16C0#32
def kDpDatatype : U32 := 0x16C4#32
def kDpMix : U32 := 0x16C8#32
def kDpWriteMsk : U32 := 0x16CC#32
def kDefaultOffset : U32 := 0x16E0#32
def kDefaultPitch : U32 := 0x16E4#32
def kDefaultScBr : U32 := 0x16E8#32
def kScTopLeft : U32 := 0x16EC#32
def kScBottomRight : U32 := 0x16F0#32
def kSrcScBottomRight : U32 := 0x16F4#32
def kWaitUntil : U32 := 0x1720#32
def kPcGuiCtlstat : U32 := 0x1748#32
def kDstPitchOffsetC : U32 := 0x1C80#32
def kDpGuiMasterCntlC : U32 := 0x1C84#32
def kScTopLeftC : U32 := 0x1C88#32
def kScBottomRightC : U32 := 0x1C8C#32
def kEngAddrMask : U32 := 0x03FFFFF0#32
def kVramSpan : ℕ := 32 * 2 ^ 20

/-- The width of a pixel, for the datatypes the engine draws. -/
def bppOf (dt : U32) : Option ℕ :=
  match (dt &&& 0xF#32).toNat with
  | 2 | 7 | 8 | 9 => some 8
  | 3 | 4 => some 16
  | 5 => some 24
  | 6 => some 32
  | _ => none

/-- A pitch register's stride in bytes: at 24 bits a pixel it counts bytes. -/
def strideOf (bpp : ℕ) (v : U32) : ℕ :=
  let p := (v &&& 0x3FF#32).toNat
  if bpp = 24 then p * 8 else p * bpp

/-- Where a side starts: running backwards, what is programmed is its far end. -/
def originOf (forward : Bool) (n : ℤ) (v : U32) : ℤ := if forward then sx14 v else sx14 v + 1 - n

variable (c : R128Cell)

/-- The operation and its surfaces, where `engBlit` takes them. -/
def rasterOf : Option Raster :=
  let dt := c.rd kDpDatatype
  match bppOf dt with
  | none => none
  | some bpp =>
    let mix := c.rd kDpMix
    let rop := (mix >>> 16) &&& 0xFF#32
    let srcSource := (mix >>> 8) &&& 0x7#32
    let brush := (dt >>> 8) &&& 0xF#32
    let dstStride := strideOf bpp (c.rd kDstPitch)
    let srcStride := strideOf bpp (c.rd kSrcPitch)
    let dstOff := (c.rd kDstOffset &&& kEngAddrMask).toNat
    let srcOff := (c.rd kSrcOffset &&& kEngAddrMask).toNat
    let wmask := c.rd kDpWriteMsk
    -- host data is not drawn from here
    if srcSource = 3#32 ∨ srcSource = 4#32 then none
    -- of the brushes the solid ones alone, of the sources the colour one alone
    else if ropUsesPat rop ∧ brush ≠ 13#32 ∧ brush ≠ 15#32 then none
    else if ropUsesSrc rop ∧ (dt >>> 16) &&& 0x3#32 ≠ 3#32 then none
    else if dstStride = 0 ∨ (ropUsesSrc rop ∧ srcStride = 0) then none
    else if kVramSpan ≤ dstOff ∨ (ropUsesSrc rop ∧ kVramSpan ≤ srcOff) then none
    else some {
      bpp := bpp
      rop := rop
      pat := if ropUsesPat rop then c.rd kDpBrushFrgdClr else 0#32
      -- a write mask of zero lets everything through
      mask := if wmask ≠ 0#32 then wmask else 0xFFFFFFFF#32
      dstStride := dstStride
      srcStride := srcStride
      dstOff := dstOff
      srcOff := srcOff }

/-- The rectangle under the scissor, where anything addressable is left of it. -/
def rectOf (usesSrc : Bool) : Option Rect :=
  let dpc := c.rd kDpCntl
  let l2r := decide (dpc &&& 0x1#32 ≠ 0#32)
  let t2b := decide (dpc &&& 0x2#32 ≠ 0#32)
  let w : ℤ := (c.rd kDstWidth &&& 0x1FFF#32).toNat
  let h : ℤ := (c.rd kDstHeight &&& 0x1FFF#32).toNat
  if w ≤ 0 ∨ h ≤ 0 then none
  else
    let dx0 := originOf l2r w (c.rd kDstX)
    let dy0 := originOf t2b h (c.rd kDstY)
    let sx0 := originOf l2r w (c.rd kSrcX)
    let sy0 := originOf t2b h (c.rd kSrcY)
    let x0 := max dx0 (sx14 (c.rd kScLeft))
    let y0 := max dy0 (sx14 (c.rd kScTop))
    let x1 := min (dx0 + w - 1) (sx14 (c.rd kScRight))
    let y1 := min (dy0 + h - 1) (sx14 (c.rd kScBottom))
    -- the source moves with what the clip cuts off
    let csx := sx0 + (x0 - dx0)
    let csy := sy0 + (y0 - dy0)
    if x1 < x0 ∨ y1 < y0 ∨ x0 < 0 ∨ y0 < 0 then none
    else if usesSrc ∧ (csx < 0 ∨ csy < 0) then none
    else some {
      l2r := l2r
      t2b := t2b
      x0 := x0
      y0 := y0
      csx := csx
      csy := csy
      cw := (x1 - x0 + 1).toNat
      ch := (y1 - y0 + 1).toNat }

/-- `lastByte`. -/
def lastByte (bypp off stride : ℕ) (px py : ℤ) (rows : ℕ) : ℕ :=
  off + (py + rows - 1).toNat * stride + px.toNat * bypp + bypp

/-- The blit the registers describe, where it passes every check. -/
def blitOf (size : ℕ) : Option Blit :=
  match c.rasterOf with
  | none => none
  | some r =>
    match c.rectOf r.usesSrc with
    | none => none
    | some t =>
      if size < lastByte r.bypp r.dstOff r.dstStride t.x0 t.y0 t.ch
          ∨ (r.usesSrc ∧ size < lastByte r.bypp r.srcOff r.srcStride t.csx t.csy t.ch) then none
      else some { toRaster := r, toRect := t }

end R128Cell

/-! ## The engine -/

/-- The card with its engine: the cell, the memory, and the 3D unit. -/
structure R128Eng where
  cell : R128Cell
  vram : Vram
  cce3d : Cce3d

namespace R128Eng

open R128Cell

variable (e : R128Eng)

def setReg (off v : U32) : R128Eng := { e with cell := e.cell.setReg off v }

/-- `engBlit`. -/
def engBlit : R128Eng :=
  match e.cell.blitOf e.vram.size with
  | none => e
  | some b => { e with vram := b.draw e.vram }

def kFogTableIndex : U32 := 0x1A14#32
def kFogTableData : U32 := 0x1A18#32
def kScale3dCntl : U32 := 0x1A00#32
def kZOffsetC : U32 := 0x1C90#32
def kMisc3dStateCntl : U32 := 0x1CA0#32
def kPlane3dMaskC : U32 := 0x1D44#32

/-- `r128Eng3dWrite`, but for the fog table itself. -/
def eng3dWrite (off v : U32) : Bool × R128Eng :=
  if off = kFogTableIndex then (true, e.setReg kFogTableIndex (v &&& 0xFF#32))
  else if off = kFogTableData then
    let idx := e.cell.rd kFogTableIndex &&& 0xFF#32
    (true, e.setReg kFogTableIndex ((idx + 1#32) &&& 0xFF#32))
  else if off = kMisc3dStateCntl ∨ off = kScale3dCntl then
    let miscV := if off = kMisc3dStateCntl then v else e.cell.rd kMisc3dStateCntl
    let scaleV := if off = kScale3dCntl then v else e.cell.rd kScale3dCntl
    let fnMisc := (miscV >>> 8) &&& 3#32
    let fnScale := (scaleV >>> 6) &&& 3#32
    (false, { e with
      cce3d := { e.cce3d with gGate3d := if fnMisc ≠ 0#32 ∨ fnScale ≠ 0#32 then 1 else 0 } })
  else if kZOffsetC ≤ off ∧ off ≤ kPlane3dMaskC ∧ off ≠ kMisc3dStateCntl then
    if e.cce3d.gGate3d = 0 then (true, e) else (true, e.setReg off v)
  else (false, e)

/-- A composite register: its low half and its high half into two others. -/
def setPair (lo hi v : U32) : R128Eng :=
  (e.setReg lo (v &&& 0x3FFF#32)).setReg hi ((v >>> 16) &&& 0x3FFF#32)

/-- A pitch and an offset in one. -/
def setPitchOffset (offset pitch v : U32) : R128Eng :=
  (e.setReg offset ((v &&& 0x1FFFFF#32) <<< 5)).setReg pitch ((v >>> 21) &&& 0x3FF#32)

/-- The master control's side effects. -/
def guiMasterCntl (v : U32) : R128Eng :=
  let e := e.setReg kDpGuiMasterCntl v
  let e := e.setReg kDpDatatype (((v &&& 0x0F00#32) >>> 8) ||| ((v &&& 0x30F0#32) <<< 4)
    ||| ((v &&& 0x4000#32) <<< 16))
  let e := e.setReg kDpMix ((v &&& 0x00FF0000#32) ||| ((v &&& 0x07000000#32) >>> 16))
  let e := e.setReg kDpCntl (e.cell.rd kDpCntl ||| 0x3#32)
  let e := if v &&& 0x1#32 = 0#32 then
      (e.setReg kSrcOffset (e.cell.rd kDefaultOffset)).setReg kSrcPitch (e.cell.rd kDefaultPitch)
    else e
  let e := if v &&& 0x2#32 = 0#32 then
      (e.setReg kDstOffset (e.cell.rd kDefaultOffset)).setReg kDstPitch (e.cell.rd kDefaultPitch)
    else e
  let e := if v &&& 0x4#32 = 0#32 then
      e.setPair kSrcScRight kSrcScBottom (e.cell.rd kDefaultScBr)
    else e
  let e := if v &&& 0x8#32 = 0#32 then
      ((e.setReg kScLeft 0#32).setReg kScTop 0#32).setPair kScRight kScBottom
        (e.cell.rd kDefaultScBr)
    else e
  let e := if v &&& 0x10000000#32 ≠ 0#32 then e.setReg kClrCmpCntl 0#32 else e
  let e := if v &&& 0x20000000#32 ≠ 0#32 then
      e.setReg kAuxScCntl (e.cell.rd kAuxScCntl &&& ~~~0x00010101#32)
    else e
  if v &&& 0x40000000#32 ≠ 0#32 then
    (e.setReg kDpWriteMsk 0xFFFFFFFF#32).setReg kClrCmpMsk 0xFFFFFFFF#32
  else e

/-- An initiator: the registers it stores before the engine starts. -/
def initiate (off v : U32) : Option R128Eng :=
  if off = kDstWidth ∨ off = kDstWidthBw then some (e.setReg kDstWidth (v &&& 0x3FFF#32))
  else if off = kDstHeightWidth then some (e.setPair kDstWidth kDstHeight v)
  else if off = kDstWidthHeight then some (e.setPair kDstHeight kDstWidth v)
  else if off = kDstWidthX ∨ off = kDstWidthXIncy then some (e.setPair kDstX kDstWidth v)
  else none

/-- The engine's own registers: the aliases, the master control and the commands. -/
def engStore (off v : U32) : Bool × R128Eng :=
  if off = kDstPitchOffset ∨ off = kDstPitchOffsetC then
    (true, e.setPitchOffset kDstOffset kDstPitch v)
  else if off = kSrcPitchOffset then (true, e.setPitchOffset kSrcOffset kSrcPitch v)
  else if off = kSrcYX then (true, e.setPair kSrcX kSrcY v)
  else if off = kDstYX then (true, e.setPair kDstX kDstY v)
  else if off = kSrcXY then (true, e.setPair kSrcY kSrcX v)
  else if off = kDstXY then (true, e.setPair kDstY kDstX v)
  else if off = kDstHeightY then (true, e.setPair kDstY kDstHeight v)
  else if off = kScTopLeft ∨ off = kScTopLeftC then (true, e.setPair kScLeft kScTop v)
  else if off = kScBottomRight ∨ off = kScBottomRightC then
    (true, e.setPair kScRight kScBottom v)
  else if off = kSrcScBottomRight then (true, e.setPair kSrcScRight kSrcScBottom v)
  else if off = kDpGuiMasterCntlC ∨ off = kDpGuiMasterCntl then (true, e.guiMasterCntl v)
  else if off = kPcGuiCtlstat then (true, e.setReg kPcGuiCtlstat 0#32)
  else if off = kWaitUntil then (true, e)
  else (false, e)

/-- The 2D half of `engWrite`. -/
def eng2dWrite (off v : U32) : Bool × R128Eng :=
  match e.initiate off v with
  | some e' =>
    let e' := e'.engBlit
    -- INCY steps down a line behind the row it drew
    if off = kDstWidthXIncy then
      (true, e'.setReg kDstY ((e'.cell.rd kDstY + 1#32) &&& 0x3FFF#32))
    else (true, e')
  | none => e.engStore off v

/-- `engWrite`: whether the write was absorbed, and the engine after it. -/
def engWrite (off v : U32) : Bool × R128Eng :=
  if 0x1A00#32 ≤ off then
    let r := e.eng3dWrite off v
    if r.1 then r else r.2.eng2dWrite off v
  else e.eng2dWrite off v

/-- `R128Cell::write`: the GUI block first, and what it does not absorb to the registers. -/
def write (off v : U32) (len : ℕ) : R128Eng :=
  let native := e.cell.native off v len
  let aligned := off &&& ~~~3#32
  if e.cell.eng2dOn ∧ 0x1400#32 ≤ aligned ∧ aligned < 0x2000#32 then
    let r := e.engWrite aligned native
    if r.1 then r.2 else { r.2 with cell := r.2.cell.write off v len }
  else { e with cell := e.cell.write off v len }

end R128Eng

end OpenPowerMac
