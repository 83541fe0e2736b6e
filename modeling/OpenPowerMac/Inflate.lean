/-
`inflateRaw` and the two structures it is made of, from `machine/src/cdimage.cpp`.

Every access to an array is checked: a `Fault` is what the code must not do, an
index outside its array or a loop that does not end within its budget. A length, a
symbol or a count is a natural number here; the one difference of two of them that
the code forms without a test, `code - first`, is taken in 32 bits.
-/
import OpenPowerMac.Word

set_option autoImplicit false

namespace OpenPowerMac

namespace Inflate

inductive Fault where
  | outOfRange
  | outOfFuel
  deriving DecidableEq

abbrev Checked (α : Type) : Type := Except Fault α

def get {α : Type} (l : List α) (i : ℕ) : Checked α :=
  match l[i]? with
  | some a => .ok a
  | none => .error .outOfRange

def put {α : Type} (l : List α) (i : ℕ) (a : α) : Checked (List α) :=
  if i < l.length then .ok (l.set i a) else .error .outOfRange

/-! ## The bits -/

/-- `BitIn`: where the next bit is, and whether one was taken past the end. -/
structure BitIn where
  at_ : ℕ := 0
  bit : ℕ := 0
  bad : Bool := false
  deriving DecidableEq

namespace BitIn

def step (i : BitIn) : BitIn :=
  if i.bit + 1 = 8 then { i with bit := 0, at_ := i.at_ + 1 } else { i with bit := i.bit + 1 }

/-- The loop of `BitIn::take`, from bit `k` of the value on. -/
def takeFrom (p : List U8) : ℕ → ℕ → ℕ → BitIn → Checked (ℕ × BitIn)
  | 0, _, v, i => .ok (v, i)
  | count + 1, k, v, i =>
      if p.length ≤ i.at_ then .ok (0, { i with bad := true })
      else do
        let x ← get p i.at_
        takeFrom p count (k + 1) (v ||| (((x >>> i.bit) &&& 1#8).toNat <<< k)) i.step

/-- `BitIn::take`. -/
def take (p : List U8) (count : ℕ) (i : BitIn) : Checked (ℕ × BitIn) := takeFrom p count 0 0 i

/-- `BitIn::align`. -/
def align (i : BitIn) : BitIn :=
  if i.bit ≠ 0 then { i with bit := 0, at_ := i.at_ + 1 } else i

end BitIn

/-! ## The codes -/

/-- `Huff`. -/
structure Huff where
  count : List ℕ
  sym : List ℕ

namespace Huff

/-- The codes of each length, those of length 0 forgotten. -/
def tally (lens : List ℕ) (n : ℕ) : Checked (List ℕ) := do
  let count ← (List.range n).foldlM (fun count k => do
    let l ← get lens k
    let c ← get count l
    put count l (c + 1)) (List.replicate 16 0)
  put count 0 0

/-- Whether the code is not over-subscribed, for the lengths from `l` on. -/
def fits (count : List ℕ) : ℕ → ℕ → ℤ → Checked Bool
  | 0, _, _ => .ok true
  | n + 1, l, left => do
      let c ← get count l
      if 2 * left - c < 0 then .ok false else fits count n (l + 1) (2 * left - c)

/-- Where the symbols of each length begin. -/
def offsets (count : List ℕ) : Checked (List ℕ) :=
  (List.range' 1 14).foldlM (fun offs l => do
    let o ← get offs l
    let c ← get count l
    put offs (l + 1) (o + c)) (List.replicate 16 0)

/-- The symbols in the order of their codes. -/
def fill (lens : List ℕ) (n : ℕ) (offs : List ℕ) : Checked (List ℕ × List ℕ) :=
  (List.range n).foldlM (fun (offs, sym) k => do
    let l ← get lens k
    if l ≠ 0 then do
      let o ← get offs l
      let sym ← put sym o k
      let offs ← put offs l (o + 1)
      pure (offs, sym)
    else pure (offs, sym)) (offs, List.replicate 288 0)

/-- `Huff::build`; `none` is false. -/
def build (lens : List ℕ) (n : ℕ) : Checked (Option Huff) := do
  let count ← tally lens n
  let ok ← fits count 15 1 1
  if !ok then pure none
  else do
    let offs ← offsets count
    let (_, sym) ← fill lens n offs
    pure (some ⟨count, sym⟩)

/-- The loop of `Huff::decode`, from length `len` on. -/
def decodeFrom (p : List U8) (h : Huff) :
    ℕ → ℕ → ℕ → ℕ → ℕ → BitIn → Checked (Option ℕ × BitIn)
  | 0, _, _, _, _, i => .ok (none, i)
  | n + 1, len, code, first, index, i => do
      let (b, i) ← i.take p 1
      let code := code ||| b
      let c ← get h.count len
      if code < first + c then do
        let s ← get h.sym ((index + (code + 2 ^ 32 - first)) % 2 ^ 32)
        pure (some s, i)
      else decodeFrom p h n (len + 1) (code <<< 1) ((first + c) <<< 1) (index + c) i

/-- `Huff::decode`; `none` is -1. -/
def decode (p : List U8) (h : Huff) (i : BitIn) : Checked (Option ℕ × BitIn) :=
  decodeFrom p h 15 1 0 0 0 i

end Huff

/-! ## The tables -/

def kLenBase : List ℕ :=
  [3, 4, 5, 6, 7, 8, 9, 10, 11, 13, 15, 17, 19, 23, 27, 31, 35, 43, 51, 59, 67, 83, 99, 115,
    131, 163, 195, 227, 258]

def kLenExtra : List ℕ :=
  [0, 0, 0, 0, 0, 0, 0, 0, 1, 1, 1, 1, 2, 2, 2, 2, 3, 3, 3, 3, 4, 4, 4, 4, 5, 5, 5, 5, 0]

def kDistBase : List ℕ :=
  [1, 2, 3, 4, 5, 7, 9, 13, 17, 25, 33, 49, 65, 97, 129, 193, 257, 385, 513, 769, 1025, 1537,
    2049, 3073, 4097, 6145, 8193, 12289, 16385, 24577]

def kDistExtra : List ℕ :=
  [0, 0, 0, 0, 1, 1, 2, 2, 3, 3, 4, 4, 5, 5, 6, 6, 7, 7, 8, 8, 9, 9, 10, 10, 11, 11, 12, 12,
    13, 13]

def kClOrder : List ℕ := [16, 17, 18, 0, 8, 7, 9, 6, 10, 5, 11, 4, 12, 3, 13, 2, 14, 1, 15]

/-- The code lengths of a fixed block. -/
def fixedLens : List ℕ :=
  List.replicate 144 8 ++ List.replicate (256 - 144) 9 ++ List.replicate (280 - 256) 7
    ++ List.replicate (288 - 280) 8

def fixedTables : Checked (Option (Huff × Huff)) := do
  match ← Huff.build fixedLens 288 with
  | none => pure none
  | some lit =>
      match ← Huff.build (List.replicate 30 5) 30 with
      | none => pure none
      | some dist => pure (some (lit, dist))

/-! ## The head of a dynamic block -/

variable (p : List U8)

/-- The lengths of the code length code. -/
def clLens (hclen : ℕ) (i : BitIn) : Checked (List ℕ × BitIn) :=
  (List.range hclen).foldlM (fun (cl, i) k => do
    let o ← get kClOrder k
    let (v, i) ← i.take p 3
    let cl ← put cl o v
    pure (cl, i)) (List.replicate 19 0, i)

/-- `while (rep-- && got < hlit + hdist) lens[got++] = x`. -/
def repeatLen (total x : ℕ) : ℕ → List ℕ → ℕ → Checked (List ℕ × ℕ)
  | 0, lens, got => .ok (lens, got)
  | rep + 1, lens, got =>
      if got < total then do
        let lens ← put lens got x
        repeatLen total x rep lens (got + 1)
      else .ok (lens, got)

/-- The loop that decodes the code lengths; `none` is a return of false. -/
def codeLens (clh : Huff) (total : ℕ) : ℕ → List ℕ → ℕ → BitIn → Checked (Option (List ℕ) × BitIn)
  | 0, lens, got, i => if got < total then .error .outOfFuel else .ok (some lens, i)
  | n + 1, lens, got, i =>
      if got < total then do
        let (s, i) ← clh.decode p i
        match s with
        | none => pure (none, i)
        | some s =>
            if i.bad then pure (none, i)
            else if s < 16 then do
              let lens ← put lens got s
              codeLens clh total n lens (got + 1) i
            -- 16 repeats the length before it, 17 and 18 repeat zero
            else if s = 16 then
              if got = 0 then pure (none, i)
              else do
                let prev ← get lens (got - 1)
                let (e, i) ← i.take p 2
                let (lens, got) ← repeatLen total prev (3 + e) lens got
                codeLens clh total n lens got i
            else do
              let (e, i) ← i.take p (if s = 17 then 3 else 7)
              let (lens, got) ← repeatLen total 0 ((if s = 17 then 3 else 11) + e) lens got
              codeLens clh total n lens got i
      else .ok (some lens, i)

def dynamicTables (i : BitIn) : Checked (Option (Huff × Huff) × BitIn) := do
  let (v, i) ← i.take p 5
  let hlit := v + 257
  let (v, i) ← i.take p 5
  let hdist := v + 1
  let (v, i) ← i.take p 4
  let hclen := v + 4
  -- more codes than there are symbols for them
  if 286 < hlit ∨ 30 < hdist then pure (none, i)
  else do
    let (cl, i) ← clLens p hclen i
    if i.bad then pure (none, i)
    else
      match ← Huff.build cl 19 with
      | none => pure (none, i)
      | some clh =>
          let (lens, i) ← codeLens p clh (hlit + hdist) (hlit + hdist) (List.replicate 318 0) 0 i
          match lens with
          | none => pure (none, i)
          | some lens =>
              match ← Huff.build lens hlit with
              | none => pure (none, i)
              | some lit =>
                  match ← Huff.build (lens.drop hlit) hdist with
                  | none => pure (none, i)
                  | some dist => pure (some (lit, dist), i)

/-! ## The blocks -/

variable (cap : ℕ)

/-- `for (k < len) out.push_back(out[out.size() - back])`. -/
def copy (back : ℕ) : ℕ → List U8 → Checked (List U8)
  | 0, out => .ok out
  | len + 1, out => do
      let x ← get out (out.length - back)
      copy back len (out ++ [x])

/-- The loop over the symbols of a block; false is a return of false. -/
def symbols (lit dist : Huff) : ℕ → BitIn → List U8 → Checked (Bool × BitIn × List U8)
  | 0, _, _ => .error .outOfFuel
  | n + 1, i, out => do
      let (s, i) ← lit.decode p i
      match s with
      | none => pure (false, i, out)
      | some s =>
          if i.bad then pure (false, i, out)
          else if s < 256 then
            if cap ≤ out.length then pure (false, i, out)
            else symbols lit dist n i (out ++ [BitVec.ofNat 8 s])
          else if s = 256 then pure (true, i, out)
          -- symbols 286 and 287 are in the fixed code but mean nothing
          else if 29 ≤ s - 257 then pure (false, i, out)
          else do
            let base ← get kLenBase (s - 257)
            let extra ← get kLenExtra (s - 257)
            let (e, i) ← i.take p extra
            let len := base + e
            let (d, i) ← dist.decode p i
            match d with
            | none => pure (false, i, out)
            | some d =>
                -- nor do the distances 30 and 31
                if 30 ≤ d ∨ i.bad then pure (false, i, out)
                else do
                  let base ← get kDistBase d
                  let extra ← get kDistExtra d
                  let (f, i) ← i.take p extra
                  let back := base + f
                  if out.length < back ∨ cap < out.length + len then pure (false, i, out)
                  else do
                    let out ← copy back len out
                    symbols lit dist n i out

/-- A stored block. -/
def stored (i : BitIn) (out : List U8) : Checked (Bool × BitIn × List U8) := do
  let i := i.align
  if p.length < i.at_ + 4 then pure (false, i, out)
  else do
    let b0 ← get p i.at_
    let b1 ← get p (i.at_ + 1)
    let len := b0.toNat ||| (b1.toNat <<< 8)
    let b2 ← get p (i.at_ + 2)
    let b3 ← get p (i.at_ + 3)
    let nlen := b2.toNat ||| (b3.toNat <<< 8)
    let i := { i with at_ := i.at_ + 4 }
    if len ^^^ 0xFFFF ≠ nlen ∨ p.length < i.at_ + len ∨ cap < out.length + len then
      pure (false, i, out)
    else do
      let bytes ← (List.range len).mapM fun k => get p (i.at_ + k)
      pure (true, { i with at_ := i.at_ + len }, out ++ bytes)

/-- A block, behind its header. -/
def block (type : ℕ) (i : BitIn) (out : List U8) : Checked (Bool × BitIn × List U8) :=
  if type = 0 then stored p cap i out
  else if type = 1 ∨ type = 2 then do
    let (tables, i) ← if type = 1 then do
        let t ← fixedTables
        pure (t, i)
      else dynamicTables p i
    match tables with
    | none => pure (false, i, out)
    | some (lit, dist) => symbols p cap lit dist (8 * p.length + 1) i out
  else pure (false, i, out)

/-- The loop of `inflateRaw`. -/
def blocks : ℕ → BitIn → List U8 → Checked (Bool × List U8)
  | 0, _, _ => .error .outOfFuel
  | n + 1, i, out => do
      let (fin, i) ← i.take p 1
      let (type, i) ← i.take p 2
      if i.bad then pure (false, out)
      else do
        let (ok, i, out) ← block p cap type i out
        if !ok then pure (false, out)
        else if fin ≠ 0 then pure (!i.bad, out)
        else blocks n i out

/-- `inflateRaw`, for an `out` that comes empty: what it returns, and `out`. -/
def inflateRaw : Checked (Bool × List U8) := blocks p cap (8 * p.length + 1) {} []

end Inflate

end OpenPowerMac
