/-
The packets of the 3D unit that carry vertices: `r128Cce3dOp` of `machine/src/r128_3d.cpp` with
the vertex walker under it, and the AGP read of `machine/src/r128.cpp` the walker is fed by.

A vertex is the words of the stream it is decoded from. What the rasteriser makes of a
primitive, its shading and its decoding included, lies beyond: the unit is left here where it
hands one over.
-/
import OpenPowerMac.R128

set_option autoImplicit false

namespace OpenPowerMac

/-- `CceMem`: the memory packets are fed from. -/
structure CceMem where
  ram : ℕ → U8
  ramSize : U32
  gartBase : U32
  aperBase : U32

namespace CceMem

variable (m : CceMem)

def le32 (at' : ℕ) : U32 := m.ram (at' + 3) ++ m.ram (at' + 2) ++ m.ram (at' + 1) ++ m.ram at'

/-- `r128CceGartRead`: the low bits of the table's base are flags, and addresses are taken from
the aperture's own base. -/
def gartRead (agp : U32) : Option U32 :=
  let aper := m.aperBase &&& 0xFFFFF000#32
  if aper ≠ 0#32 ∧ agp < aper then none
  else
    let agp := agp - aper
    let base := m.gartBase &&& ~~~0xFFF#32
    let ea := base.toNat + (agp >>> 12).toNat * 4
    if base ≠ 0#32 ∧ ea + 4 ≤ m.ramSize.toNat then
      let entry := m.le32 ea
      let pa := (entry &&& 0xFFFFF000#32) ||| (agp &&& 0xFFF#32)
      if entry &&& 1#32 ≠ 0#32 ∧ pa.toNat + 4 ≤ m.ramSize.toNat then some (m.le32 pa.toNat)
      else none
    else none

end CceMem

/-- A vertex, as the words it is decoded from. -/
abbrev Vtx := List U32

/-- What a primitive is drawn as: the last winds the other way at every other one of a strip. -/
inductive Shape where
  | point
  | line
  | triangle (odd : Bool)
  deriving DecidableEq

/-- A primitive over its vertices, or over where they stand. -/
structure Prim (α : Type) where
  shape : Shape
  verts : List α
  deriving DecidableEq

/-- What a packet has read and drawn: the words of its body, the vertices of the buffer, and
the primitives. -/
structure Traffic where
  words : List ℕ
  fetched : List U32
  drawn : List (Prim Vtx)
  deriving DecidableEq

namespace Traffic

def none : Traffic := ⟨[], [], []⟩

variable (t : Traffic)

def readWords (ws : List ℕ) : Traffic := { t with words := t.words ++ ws }

def readVertex (index : U32) : Traffic := { t with fetched := t.fetched ++ [index] }

def draw (p : Prim Vtx) : Traffic := { t with drawn := t.drawn ++ [p] }

end Traffic

/-- `vtxDwords`. -/
def vtxDwords (fmt : U32) : ℕ :=
  3 + (if fmt &&& 0x001#32 ≠ 0#32 then 1 else 0) + (if fmt &&& 0x002#32 ≠ 0#32 then 3 else 0)
    + (if fmt &&& 0x004#32 ≠ 0#32 then 1 else 0) + (if fmt &&& 0x008#32 ≠ 0#32 then 1 else 0)
    + (if fmt &&& 0x010#32 ≠ 0#32 then 3 else 0) + (if fmt &&& 0x020#32 ≠ 0#32 then 1 else 0)
    + (if fmt &&& 0x040#32 ≠ 0#32 then 1 else 0) + (if fmt &&& 0x080#32 ≠ 0#32 then 2 else 0)
    + (if fmt &&& 0x100#32 ≠ 0#32 then 2 else 0) + (if fmt &&& 0x200#32 ≠ 0#32 then 1 else 0)

/-- `VtxSource`: where the assembler pulls vertices from, the body from `words` on or the
buffer. The index words start at `indexWords`, where there are any. -/
structure VtxSource where
  m : CceMem
  body : List U32
  words : ℕ
  vloff : U32
  vsize : U32
  buffered : Bool
  stride : ℕ
  indexed : Bool
  indexWords : ℕ

namespace VtxSource

variable (src : VtxSource)

/-- The words of a vertex of the buffer, up to the first that cannot be read. -/
def readVtx (index : U32) : Option Vtx :=
  (List.range src.stride).mapM fun i => src.m.gartRead
    (src.vloff + index * BitVec.ofNat 32 src.stride * 4#32 + BitVec.ofNat 32 i * 4#32)

/-- `VtxSource::fetch`. -/
def fetch (index : U32) (t : Traffic) : Option Vtx × Traffic :=
  if src.buffered = false then
    let at' := index.toNat * src.stride
    if src.body.length - src.words < at' + src.stride then (none, t)
    else
      let ws := (List.range src.stride).map fun i => src.words + at' + i
      (some (ws.map fun w => src.body.getD w 0#32), t.readWords ws)
  -- an index past the end of the buffer is refused
  else if src.vsize ≠ 0#32 ∧ src.vsize ≤ index then (none, t)
  else if 20 < src.stride then (none, t)
  else (src.readVtx index, t.readVertex index)

/-- `vertexAt`. -/
def vertexAt (i : ℕ) (t : Traffic) : Option Vtx × Traffic :=
  if src.indexed then
    let at' := src.indexWords + i / 2
    let w := src.body.getD at' 0#32
    src.fetch (if i % 2 = 1 then w >>> 16 else w &&& 0xFFFF#32) (t.readWords [at'])
  else src.fetch (BitVec.ofNat 32 i) t

/-- The vertices of a primitive in order, up to the first that is refused. -/
def fetchEach : List ℕ → Traffic → Option (List Vtx) × Traffic
  | [], t => (some [], t)
  | i :: is, t =>
    match src.vertexAt i t with
    | (none, t) => (none, t)
    | (some v, t) =>
      match fetchEach is t with
      | (none, t) => (none, t)
      | (some vs, t) => (some (v :: vs), t)

/-- The loop of the assembler: a refused vertex ends it. -/
def drawEach : List (Prim ℕ) → Traffic → Traffic
  | [], t => t
  | p :: ps, t =>
    match src.fetchEach p.verts t with
    | (none, t) => t
    | (some vs, t) => drawEach ps (t.draw ⟨p.shape, vs⟩)

/-- `assemble`: the positions each loop takes, by the packet's primitive type. -/
def assemble (primType : U32) (count : ℕ) (t : Traffic) : Traffic :=
  match primType.toNat with
  | 1 => src.drawEach ((List.range count).map fun i => ⟨.point, [i]⟩) t
  | 2 => src.drawEach ((List.range (count / 2)).map fun k => ⟨.line, [2 * k, 2 * k + 1]⟩) t
  | 3 => src.drawEach ((List.range (count - 1)).map fun i => ⟨.line, [i, i + 1]⟩) t
  | 4 =>
    src.drawEach ((List.range (count / 3)).map fun k =>
      ⟨.triangle false, [3 * k, 3 * k + 1, 3 * k + 2]⟩) t
  | 5 =>
    src.drawEach ((List.range (count - 2)).map fun i => ⟨.triangle false, [0, i + 1, i + 2]⟩) t
  | 6 | 7 =>
    src.drawEach ((List.range (count - 2)).map fun i =>
      ⟨.triangle (decide (i % 2 = 1)), [i, i + 1, i + 2]⟩) t
  | _ => t

end VtxSource

/-- `WalkLatch`: what a bundle goes on with. -/
structure WalkLatch where
  valid : Bool
  vloff : U32
  vsize : U32
  fmt : U32
  cntl : U32
  deriving DecidableEq

/-- The 3D unit's own state: the walk, and the function gate (-1 where no guest has steered
it). -/
structure Cce3d where
  gWalk : WalkLatch
  gGate3d : ℤ
  deriving DecidableEq

namespace Cce3d

def kDpDatatype : U32 := 0x16C4#32
def kDstOffset : U32 := 0x1404#32
def kDstPitch : U32 := 0x1408#32
def kEngAddrMask : U32 := 0x03FFFFF0#32

/-- `r128Cce3dReset`. -/
def reset : Cce3d where
  gWalk := ⟨false, 0#32, 0#32, 0#32, 0#32⟩
  gGate3d := -1

/-- The bytes of a pixel the pipe can draw, by the destination's type. -/
def pipeBypp (dt : U32) : Option U32 :=
  match dt.toNat with
  | 3 | 4 => some 2#32
  | 6 => some 4#32
  | _ => none

/-- Where `gatherPipe` does not decline. -/
def Gathers (c : R128Cell) : Prop :=
  ∃ bypp, pipeBypp (c.rd kDpDatatype &&& 0xF#32) = some bypp
    ∧ (c.rd kDstPitch &&& 0x3FF#32) * 8#32 * bypp ≠ 0#32
    ∧ c.rd kDstOffset &&& kEngAddrMask < 0x02000000#32

instance (c : R128Cell) : Decidable (Gathers c) :=
  match h : pipeBypp (c.rd kDpDatatype &&& 0xF#32) with
  | none => isFalse (by rintro ⟨b, hb, -⟩; rw [h] at hb; cases hb)
  | some b =>
    decidable_of_iff ((c.rd kDstPitch &&& 0x3FF#32) * 8#32 * b ≠ 0#32
        ∧ c.rd kDstOffset &&& kEngAddrMask < 0x02000000#32)
      ⟨fun h' => ⟨b, h, h'⟩, by rintro ⟨b', hb, h'⟩; rw [h] at hb; cases hb; exact h'⟩

variable (g : Cce3d)

/-- `pipeReady`. -/
def PipeReady (c : R128Cell) : Prop := g.gGate3d ≠ 0 ∧ Gathers c

instance (c : R128Cell) : Decidable (g.PipeReady c) := inferInstanceAs (Decidable (_ ∧ _))

/-- 3D_RNDR_GEN_PRIM, with its vertices in the body. -/
def genPrim (c : R128Cell) (m : CceMem) (body : List U32) : Bool × Traffic :=
  if body.length < 2 then (false, .none)
  else if ¬ g.PipeReady c then (false, .none)
  else
    let fmt := body.getD 0 0#32
    let cntl := body.getD 1 0#32
    if (cntl >>> 4) &&& 3#32 ≠ 3#32 then (false, .none)
    else
      let stride := vtxDwords fmt
      let count := min (cntl >>> 16).toNat ((body.length - 2) / stride)
      let src : VtxSource :=
        ⟨m, body, 2, 0#32, 0#32, false, stride, false, 0⟩
      (true, src.assemble (cntl &&& 0xF#32) count .none)

/-- A walk over the buffer, in order or by the indices from `indexWords` on. -/
def walk (c : R128Cell) (m : CceMem) (bundle : Bool) (w : WalkLatch) (body : List U32)
    (indexWords : ℕ) : Bool × Traffic :=
  if ¬ g.PipeReady c then (false, .none)
  else
    let walk := (w.cntl >>> 4) &&& 3#32
    let stride := vtxDwords w.fmt
    if 20 < stride ∨ walk = 0#32 ∨ walk = 3#32 ∨ (bundle ∧ walk ≠ 1#32) then (false, .none)
    else
      let idxAvail := body.length - indexWords
      let count := (w.cntl >>> 16).toNat
      let count :=
        -- a bundle's count is its own length
        if bundle then idxAvail * 2
        else if walk = 1#32 then min count (idxAvail * 2)
        else if w.vsize ≠ 0#32 ∧ w.vsize.toNat < count then w.vsize.toNat
        else count
      let src : VtxSource :=
        ⟨m, body, 0, w.vloff, w.vsize, true, stride, decide (walk = 1#32), indexWords⟩
      (true, src.assemble (w.cntl &&& 0xF#32) count .none)

/-- `r128Cce3dOp`, but for the palette: whether the packet was taken, the unit after it, and
what it read and drew. -/
def cce3dOp (c : R128Cell) (m : CceMem) (op : U32) (body : List U32) : Bool × Cce3d × Traffic :=
  if op = 0x25#32 then
    let r := g.genPrim c m body
    (r.1, g, r.2)
  else if op = 0x23#32 then
    if body.length < 4 then (false, g, .none)
    else
      let w : WalkLatch :=
        ⟨true, body.getD 0 0#32, body.getD 1 0#32, body.getD 2 0#32, body.getD 3 0#32⟩
      let r := g.walk c m false w body 4
      (r.1, { g with gWalk := w }, r.2)
  else if op = 0x2E#32 then
    if g.gWalk.valid = false then (false, g, .none)
    else
      let r := g.walk c m true g.gWalk body 0
      (r.1, g, r.2)
  else (false, g, .none)

end Cce3d

end OpenPowerMac
