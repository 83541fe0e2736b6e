/-
The screen-to-screen packets: `cceSettings` and `cceOpBitbltMulti` of `machine/src/r128.cpp`.

The settings are read off the body one after the other, and a body that ends inside them
declines the packet with what it has stored by then. The offsets they store to are fixed ones,
none of them the one that dispatches an indirect buffer.
-/
import OpenPowerMac.R128Engine

set_option autoImplicit false

namespace OpenPowerMac

namespace R128Eng

open R128Cell

variable (e : R128Eng)

/-- `cceRegWrite`: through the front door, with the swapped image a store of four bytes has. -/
def cceRegWrite (off native : U32) : R128Eng := e.write (off &&& 0x3FFC#32) (swap32 native) 4

/-- Words off the body, where they are there, to registers in turn. -/
def cceTake (want : Bool) (offs : List U32) (r : R128Eng × Option (List U32)) :
    R128Eng × Option (List U32) :=
  match r with
  | (e, none) => (e, none)
  | (e, some body) =>
    if want then
      if body.length < offs.length then (e, none)
      else ((offs.zip body).foldl (fun e w => e.cceRegWrite w.1 w.2) e,
        some (body.drop offs.length))
    else (e, some body)

/-- The words of a brush, for the types that have a fixed number. -/
def kBrushDwords (brush : U32) : Option ℕ :=
  match brush.toNat with
  | 0 => some 4
  | 1 | 2 => some 3
  | 3 => some 2
  | 4 => some 3
  | 5 => some 2
  | 6 => some 3
  | 7 => some 2
  | 8 => some 34
  | 9 | 10 => some 33
  | 13 => some 1
  | 15 => some 0
  | _ => none

/-- The bytes of a pixel by DST_TYPE, where a colour pattern has them. -/
def kBpp (dst : U32) : Option ℕ :=
  match dst.toNat with
  | 2 => some 1
  | 3 | 4 => some 2
  | 5 => some 3
  | 6 => some 4
  | 7 => some 1
  | _ => none

def brushDwords (gc : U32) : Option ℕ :=
  let brush := (gc >>> 4) &&& 0xF#32
  match kBrushDwords brush with
  | some bn => some bn
  | none => (kBpp ((gc >>> 8) &&& 0xF#32)).map fun bpp => (if brush = 11#32 then 16 else 2) * bpp

/-- The registers a brush's first words go to. -/
def brushRegs (gc : U32) : List U32 :=
  match ((gc >>> 4) &&& 0xF#32).toNat with
  | 0 | 2 | 4 | 6 | 8 => [0x1478#32, 0x147C#32]
  | 1 | 3 | 5 | 7 | 9 | 10 | 13 => [0x147C#32]
  | _ => []

/-- The brush packet, all its words or none. -/
def cceBrush (gc : U32) (r : R128Eng × Option (List U32)) : R128Eng × Option (List U32) :=
  match r with
  | (e, none) => (e, none)
  | (e, some body) =>
    match brushDwords gc with
    | none => (e, none)
    | some bn =>
      if body.length < bn then (e, none)
      else (((brushRegs gc).zip body).foldl (fun e w => e.cceRegWrite w.1 w.2) e,
        some (body.drop bn))

/-- `cceSettings`: the engine after it, and the rest of the body or none to decline. -/
def cceSettings : List U32 → R128Eng × Option (List U32)
  | [] => (e, none)
  | gc :: body =>
    let r := cceTake (gc.getLsbD 0) [0x1428#32] (e, some body)
    let r := cceTake (gc.getLsbD 1) [0x142C#32] r
    let r := cceTake (gc.getLsbD 2) [0x16F4#32] r
    let r := cceTake (gc.getLsbD 3) [0x16EC#32, 0x16F0#32] r
    let r := cceBrush gc r
    let r := cceTake (gc.getLsbD 31) [0x1474#32] r
    match r with
    | (e, none) => (e, none)
    | (e, some body) => (e.cceRegWrite 0x146C#32 gc, some body)

/-- One rectangle: walked away from the overlap, from its far corner where it is reversed. -/
def cceRect (s d wh : U32) : R128Eng :=
  let w := wh >>> 16
  let h := wh &&& 0x3FFF#32
  if w = 0#32 ∨ h = 0#32 then e
  else
    let sx := s >>> 16
    let sy := s &&& 0xFFFF#32
    let dx := d >>> 16
    let dy := d &&& 0xFFFF#32
    let l2r := decide (dx ≤ sx)
    let t2b := decide (dy ≤ sy)
    let sx' := if l2r then sx else sx + (w - 1#32)
    let dx' := if l2r then dx else dx + (w - 1#32)
    let sy' := if t2b then sy else sy + (h - 1#32)
    let dy' := if t2b then dy else dy + (h - 1#32)
    let dir := (e.cell.rd kDpCntl &&& ~~~3#32) ||| (if l2r then 1#32 else 0#32)
      ||| (if t2b then 2#32 else 0#32)
    (((e.cceRegWrite kDpCntl dir).cceRegWrite 0x1434#32 ((sy' <<< 16) ||| sx')).cceRegWrite
      0x1438#32 ((dy' <<< 16) ||| dx')).cceRegWrite 0x143C#32 ((h <<< 16) ||| w)

/-- The rectangles of a body, three words each. -/
def cceRects : R128Eng → List U32 → R128Eng
  | e, s :: d :: wh :: body => cceRects (e.cceRect s d wh) body
  | e, _ => e

/-- `cceOpBitbltMulti`, which both packets are. -/
def cceOpBitbltMulti (body : List U32) : Bool × R128Eng :=
  match e.cceSettings body with
  | (e, none) => (false, e)
  | (e, some rest) => (true, e.cceRects rest)

end R128Eng

end OpenPowerMac
