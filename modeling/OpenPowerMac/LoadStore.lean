/-
The loads and stores: `core/src/exec_int.cpp` from the `LOAD` macro to
`h_ecowx`, the vector loads and stores of `core/src/altivec.cpp`, and the two
format conversions of `core/src/softfp.cpp` they use.

Every handler goes to memory through `readV` and `writeV`, and an access that
raises ends the instruction where it stands. Which registers have been written by
then differs from one family to the next: the update forms write theirs last, the
multiple and string forms as they go.

The source's macros are definitions with parameters here, and a handler is one of
them at its own values.
-/
import OpenPowerMac.Mmu
import OpenPowerMac.Softfp

set_option autoImplicit false

namespace OpenPowerMac

/-! ## Conversions -/

/-- `sf::loadSingle`: single to double format, exact. -/
def loadSingle (w : U32) : U64 :=
  let s : U64 := (w >>> 31).setWidth 64 <<< 63
  let e := (w >>> 23) &&& 0xFF#32
  let frac := w &&& 0x7FFFFF#32
  if e = 255#32 then s ||| 0x7FF0000000000000#64 ||| (frac.setWidth 64 <<< 29)
  else if e = 0#32 then
    if frac = 0#32 then s
    else
      let m := frac.toNat.log2
      let mant := (frac.setWidth 64 <<< (52 - m)) &&& 0x000FFFFFFFFFFFFF#64
      s ||| (BitVec.ofInt 64 ((m : ℤ) - 149 + 1023) <<< 52) ||| mant
  else s ||| ((e + 896#32).setWidth 64 <<< 52) ||| (frac.setWidth 64 <<< 29)

/-- `sf::storeSingle`: double to single format, truncating. -/
def storeSingle (f : U64) : U32 :=
  let sign : U32 := (f >>> 63).setWidth 32 <<< 31
  let e := (f >>> 52).setWidth 32 &&& 0x7FF#32
  if 896#32 < e ∨ f &&& 0x7FFFFFFFFFFFFFFF#64 = 0#64 then
    ((f >>> 62).setWidth 32 <<< 30) ||| ((f >>> 29).setWidth 32 &&& 0x3FFFFFFF#32)
  else if 874#32 ≤ e then
    let frac := (1#64 <<< 52) ||| (f &&& 0x000FFFFFFFFFFFFF#64)
    let sh := 896 + 1 - e.toNat
    sign ||| ((frac >>> (sh + 29)).setWidth 32 &&& 0x7FFFFF#32)
  else sign

/-- The four bytes of a word the other way round. -/
def byteReverse32 (v : U32) : U32 :=
  ((v &&& 0xFF#32) <<< 24) ||| ((v &&& 0xFF00#32) <<< 8) ||| ((v >>> 8) &&& 0xFF00#32) ||| (v >>> 24)

/-- The two bytes of a halfword the other way round. -/
def byteReverse16 (v : U32) : U32 := ((v &&& 0xFF#32) <<< 8) ||| ((v >>> 8) &&& 0xFF#32)

/-! ## The registers a program works in -/

/-- The part of `CpuState` that instructions read and write as their operands. -/
structure UserRegs where
  gpr : BitVec 5 → U32
  fpr : BitVec 5 → U64
  vr : BitVec 5 → BitVec 4 → U8
  pc : U32
  cr : U32
  xer : U32
  lr : U32
  ctr : U32
  fpscr : U32
  vscr : U32
  vrsave : U32
  resvValid : Bool
  resvAddr : U32

/-- The operands of a state. -/
def CpuState.user (s : CpuState) : UserRegs :=
  { gpr := s.gpr, fpr := s.fpr, vr := s.vr, pc := s.pc, cr := s.cr, xer := s.xer, lr := s.lr,
    ctr := s.ctr, fpscr := s.fpscr, vscr := s.vscr, vrsave := s.vrsave, resvValid := s.resvValid,
    resvAddr := s.resvAddr }

/-- The state with other operands. -/
def CpuState.withUser (s : CpuState) (u : UserRegs) : CpuState :=
  { s with
    gpr := u.gpr, fpr := u.fpr, vr := u.vr, pc := u.pc, cr := u.cr, xer := u.xer, lr := u.lr,
    ctr := u.ctr, fpscr := u.fpscr, vscr := u.vscr, vrsave := u.vrsave, resvValid := u.resvValid,
    resvAddr := u.resvAddr }

@[simp] theorem CpuState.withUser_user (s : CpuState) (u : UserRegs) :
    (s.withUser u).user = u := rfl

@[simp] theorem CpuState.withUser_self (s : CpuState) : s.withUser s.user = s := rfl

namespace UserRegs

def setGpr (u : UserRegs) (r : BitVec 5) (v : U32) : UserRegs :=
  { u with gpr := Function.update u.gpr r v }

def setFpr (u : UserRegs) (r : BitVec 5) (v : U64) : UserRegs :=
  { u with fpr := Function.update u.fpr r v }

def setVr (u : UserRegs) (r : BitVec 5) (v : BitVec 4 → U8) : UserRegs :=
  { u with vr := Function.update u.vr r v }

/-- `setCrField`. -/
def setCrField (u : UserRegs) (field : BitVec 3) (nibble : U32) : UserRegs :=
  let sh := (7 - field.toNat) * 4
  { u with cr := (u.cr &&& ~~~(0xF#32 <<< sh)) ||| ((nibble &&& 0xF#32) <<< sh) }

/-- `gpr0`: register 0 names the value 0. -/
def gpr0 (u : UserRegs) (ra : BitVec 5) : U32 := if ra = 0#5 then 0#32 else u.gpr ra

/-- `eaD`. -/
def eaD (u : UserRegs) (insn : U32) : U32 := u.gpr0 (f_ra insn) + sext16 (f_d insn)

/-- `eaX`; `eaVX` of the vector forms is the same sum. -/
def eaX (u : UserRegs) (insn : U32) : U32 := u.gpr0 (f_ra insn) + u.gpr (f_rb insn)

end UserRegs

/-- A handler; the row it is given is used by none of those here. -/
abbrev Handler (β : Type) := Cpu β → U32 → Cpu β

namespace Cpu

variable {β : Type}

/-- The processor with its operands changed. -/
def onUser (c : Cpu β) (f : UserRegs → UserRegs) : Cpu β :=
  { c with st := c.st.withUser (f c.st.user) }

/-- `raiseAlign`. -/
def raiseAlign (c : Cpu β) (insn ea : U32) : Cpu β :=
  let c := { c with st := { c.st with dar := ea, dsisr := alignDsisr insn } }
  c.raiseExc Exc.Alignment (c.st.pc - 4#32) 0#32

/-- The effective address of a form, `eaD` or `eaX`. -/
abbrev EaKind := UserRegs → U32 → U32

section Handlers

variable [Bus β]

/-! ## Integer loads and stores -/

/-- `LOAD`. -/
def load (eakind : EaKind) (len : ℕ) (xf : U32 → U32) : Handler β := fun c i =>
  match c.readV (eakind c.st.user i) len with
  | (none, c) => c
  | (some v, c) => c.onUser fun u => u.setGpr (f_rt i) (xf (v.setWidth 32))

/-- `LOADU`: rA is written after rD, and neither when the access raises. -/
def loadu (eakind : EaKind) (len : ℕ) (xf : U32 → U32) : Handler β := fun c i =>
  let ea := eakind c.st.user i
  match c.readV ea len with
  | (none, c) => c
  | (some v, c) => c.onUser fun u => (u.setGpr (f_rt i) (xf (v.setWidth 32))).setGpr (f_ra i) ea

/-- The sign extension of a loaded halfword. -/
def sextHalf (v : U32) : U32 := sext16 (v.setWidth 16)

def h_lwz : Handler β := load UserRegs.eaD 4 id
def h_lbz : Handler β := load UserRegs.eaD 1 id
def h_lhz : Handler β := load UserRegs.eaD 2 id
def h_lha : Handler β := load UserRegs.eaD 2 sextHalf
def h_lwzx : Handler β := load UserRegs.eaX 4 id
def h_lbzx : Handler β := load UserRegs.eaX 1 id
def h_lhzx : Handler β := load UserRegs.eaX 2 id
def h_lhax : Handler β := load UserRegs.eaX 2 sextHalf
def h_lwzu : Handler β := loadu UserRegs.eaD 4 id
def h_lbzu : Handler β := loadu UserRegs.eaD 1 id
def h_lhzu : Handler β := loadu UserRegs.eaD 2 id
def h_lhau : Handler β := loadu UserRegs.eaD 2 sextHalf
def h_lwzux : Handler β := loadu UserRegs.eaX 4 id
def h_lbzux : Handler β := loadu UserRegs.eaX 1 id
def h_lhzux : Handler β := loadu UserRegs.eaX 2 id
def h_lhaux : Handler β := loadu UserRegs.eaX 2 sextHalf

def h_lwbrx : Handler β := load UserRegs.eaX 4 byteReverse32
def h_lhbrx : Handler β := load UserRegs.eaX 2 byteReverse16

/-- The masks of `writeV8` and `writeV16`. -/
def storeMask (len : ℕ) (v : U32) : U64 :=
  (if len = 1 then v &&& 0xFF#32 else if len = 2 then v &&& 0xFFFF#32 else v).setWidth 64

/-- The plain stores. -/
def store (eakind : EaKind) (len : ℕ) (xf : U32 → U32) : Handler β := fun c i =>
  (c.writeV (eakind c.st.user i) len (storeMask len (xf (c.st.gpr (f_rt i))))).2

/-- The update stores: rA is written once the store is done. -/
def storeu (eakind : EaKind) (len : ℕ) : Handler β := fun c i =>
  let ea := eakind c.st.user i
  match c.writeV ea len (storeMask len (c.st.gpr (f_rt i))) with
  | (false, c) => c
  | (true, c) => c.onUser fun u => u.setGpr (f_ra i) ea

def h_stw : Handler β := store UserRegs.eaD 4 id
def h_stb : Handler β := store UserRegs.eaD 1 id
def h_sth : Handler β := store UserRegs.eaD 2 id
def h_stwx : Handler β := store UserRegs.eaX 4 id
def h_stbx : Handler β := store UserRegs.eaX 1 id
def h_sthx : Handler β := store UserRegs.eaX 2 id
def h_stwu : Handler β := storeu UserRegs.eaD 4
def h_stbu : Handler β := storeu UserRegs.eaD 1
def h_sthu : Handler β := storeu UserRegs.eaD 2
def h_stwux : Handler β := storeu UserRegs.eaX 4
def h_stbux : Handler β := storeu UserRegs.eaX 1
def h_sthux : Handler β := storeu UserRegs.eaX 2

def h_stwbrx : Handler β := store UserRegs.eaX 4 byteReverse32
def h_sthbrx : Handler β := store UserRegs.eaX 2 byteReverse16

/-! ## Multiples and strings -/

/-- The loop of `h_lmw`, over the registers left. -/
def lmwLoop : List (BitVec 5) → U32 → Cpu β → Cpu β
  | [], _, c => c
  | r :: rest, ea, c =>
      match c.readV ea 4 with
      | (none, c) => c
      | (some v, c) => lmwLoop rest (ea + 4#32) (c.onUser fun u => u.setGpr r (v.setWidth 32))

/-- The loop of `h_stmw`. -/
def stmwLoop : List (BitVec 5) → U32 → Cpu β → Cpu β
  | [], _, c => c
  | r :: rest, ea, c =>
      match c.writeV ea 4 ((c.st.gpr r).setWidth 64) with
      | (false, c) => c
      | (true, c) => stmwLoop rest (ea + 4#32) c

/-- The registers from rD to 31. -/
def multipleRegs (rt : BitVec 5) : List (BitVec 5) :=
  (List.range (32 - rt.toNat)).map fun k => rt + BitVec.ofNat 5 k

/-- The multiple forms refuse a misaligned address, and little-endian mode. -/
def multipleTraps (c : Cpu β) (ea : U32) : Bool :=
  ea &&& 3#32 != 0#32 || c.st.msr &&& msr.LE != 0#32

def h_lmw : Handler β := fun c i =>
  let ea := c.st.user.eaD i
  if c.multipleTraps ea then c.raiseAlign i ea else lmwLoop (multipleRegs (f_rt i)) ea c

def h_stmw : Handler β := fun c i =>
  let ea := c.st.user.eaD i
  if c.multipleTraps ea then c.raiseAlign i ea else stmwLoop (multipleRegs (f_rt i)) ea c

/-- `loadString`, from the byte that goes to register `r` at shift `sh`. -/
def loadStringLoop : ℕ → BitVec 5 → ℕ → U32 → Cpu β → Cpu β
  | 0, _, _, _, c => c
  | n + 1, r, sh, ea, c =>
      match c.readV ea 1 with
      | (none, c) => c
      | (some v, c) =>
          let c := c.onUser fun u => u.setGpr r (u.gpr r ||| (v.setWidth 32 <<< sh))
          if sh = 0 then
            let r := r + 1#5
            let c := if n = 0 then c else c.onUser fun u => u.setGpr r 0#32
            loadStringLoop n r 24 (ea + 1#32) c
          else loadStringLoop n r (sh - 8) (ea + 1#32) c

/-- `loadString`. -/
def loadString (c : Cpu β) (rt : BitVec 5) (ea : U32) (n : ℕ) : Cpu β :=
  loadStringLoop n rt 24 ea (if n = 0 then c else c.onUser fun u => u.setGpr rt 0#32)

/-- `storeString`, from the byte of register `r` at shift `sh`. -/
def storeStringLoop : ℕ → BitVec 5 → ℕ → U32 → Cpu β → Cpu β
  | 0, _, _, _, c => c
  | n + 1, r, sh, ea, c =>
      match c.writeV ea 1 (storeMask 1 (c.st.gpr r >>> sh)) with
      | (false, c) => c
      | (true, c) =>
          if sh = 0 then storeStringLoop n (r + 1#5) 24 (ea + 1#32) c
          else storeStringLoop n r (sh - 8) (ea + 1#32) c

/-- `storeString`. -/
def storeString (c : Cpu β) (rs : BitVec 5) (ea : U32) (n : ℕ) : Cpu β :=
  storeStringLoop n rs 24 ea c

/-- The byte count of the immediate string forms. -/
def nbCount (i : U32) : ℕ := if f_nb i = 0#5 then 32 else (f_nb i).toNat

/-- The byte count of the indexed string forms. -/
def xerCount (xer : U32) : ℕ := (xer &&& 0x7F#32).toNat

/-- `leStringFault`. -/
def leMode (c : Cpu β) : Bool := c.st.msr &&& msr.LE != 0#32

def h_lswi : Handler β := fun c i =>
  let ea := c.st.user.gpr0 (f_ra i)
  if c.leMode then c.raiseAlign i ea else c.loadString (f_rt i) ea (nbCount i)

def h_stswi : Handler β := fun c i =>
  let ea := c.st.user.gpr0 (f_ra i)
  if c.leMode then c.raiseAlign i ea else c.storeString (f_rt i) ea (nbCount i)

def h_lswx : Handler β := fun c i =>
  let ea := c.st.user.eaX i
  if c.leMode then c.raiseAlign i ea else c.loadString (f_rt i) ea (xerCount c.st.xer)

def h_stswx : Handler β := fun c i =>
  let ea := c.st.user.eaX i
  if c.leMode then c.raiseAlign i ea else c.storeString (f_rt i) ea (xerCount c.st.xer)

/-! ## Floating-point loads and stores -/

/-- `FLOAD`. -/
def fload (eakind : EaKind) (conv : U64 → U64) (len : ℕ) (upd : Bool) : Handler β := fun c i =>
  let ea := eakind c.st.user i
  if ea &&& 3#32 ≠ 0#32 then c.raiseAlign i ea
  else
    match c.readV ea len with
    | (none, c) => c
    | (some v, c) => c.onUser fun u =>
        let u := u.setFpr (f_rt i) (conv v)
        if upd then u.setGpr (f_ra i) ea else u

/-- `FSTORE`. -/
def fstore (eakind : EaKind) (val : U64 → U64) (len : ℕ) (upd : Bool) : Handler β := fun c i =>
  let ea := eakind c.st.user i
  if ea &&& 3#32 ≠ 0#32 then c.raiseAlign i ea
  else
    match c.writeV ea len (val (c.st.fpr (f_rt i))) with
    | (false, c) => c
    | (true, c) => if upd then c.onUser fun u => u.setGpr (f_ra i) ea else c

/-- The conversion of the single loads. -/
def convSingle (v : U64) : U64 := loadSingle (v.setWidth 32)

/-- The value of the single stores. -/
def valSingle (f : U64) : U64 := (storeSingle f).setWidth 64

def h_lfs : Handler β := fload UserRegs.eaD convSingle 4 false
def h_lfsu : Handler β := fload UserRegs.eaD convSingle 4 true
def h_lfsx : Handler β := fload UserRegs.eaX convSingle 4 false
def h_lfsux : Handler β := fload UserRegs.eaX convSingle 4 true
def h_lfd : Handler β := fload UserRegs.eaD id 8 false
def h_lfdu : Handler β := fload UserRegs.eaD id 8 true
def h_lfdx : Handler β := fload UserRegs.eaX id 8 false
def h_lfdux : Handler β := fload UserRegs.eaX id 8 true
def h_stfs : Handler β := fstore UserRegs.eaD valSingle 4 false
def h_stfsu : Handler β := fstore UserRegs.eaD valSingle 4 true
def h_stfsx : Handler β := fstore UserRegs.eaX valSingle 4 false
def h_stfsux : Handler β := fstore UserRegs.eaX valSingle 4 true
def h_stfd : Handler β := fstore UserRegs.eaD id 8 false
def h_stfdu : Handler β := fstore UserRegs.eaD id 8 true
def h_stfdx : Handler β := fstore UserRegs.eaX id 8 false
def h_stfdux : Handler β := fstore UserRegs.eaX id 8 true
def h_stfiwx : Handler β := fstore UserRegs.eaX (fun f => f &&& 0xFFFFFFFF#64) 4 false

/-! ## Reservations and external control -/

def h_lwarx : Handler β := fun c i =>
  let ea := c.st.user.eaX i
  if ea &&& 3#32 ≠ 0#32 then c.raiseAlign i ea
  else
    match c.translate ea false false with
    | (none, c) => c
    | (some (pa, _), c) =>
        match c.readV ea 4 with
        | (none, c) => c
        | (some v, c) => c.onUser fun u =>
            { u with resvValid := true, resvAddr := pa &&& ~~~31#32 }.setGpr (f_rt i) (v.setWidth 32)

/-- CR0 of a conditional store. -/
def stwcxCr (ok : Bool) (u : UserRegs) : UserRegs :=
  { u with resvValid := false }.setCrField 0#3
    ((if ok then 2#32 else 0#32) ||| ((u.xer >>> 31) &&& 1#32))

def h_stwcx : Handler β := fun c i =>
  let ea := c.st.user.eaX i
  if ea &&& 3#32 ≠ 0#32 then c.raiseAlign i ea
  else
    match c.translate ea true false with
    | (none, c) => c
    | (some _, c) =>
        if c.st.resvValid then
          match c.writeV ea 4 ((c.st.gpr (f_rt i)).setWidth 64) with
          | (false, c) => c
          | (true, c) => c.onUser (stwcxCr true)
        else c.onUser (stwcxCr false)

/-- EAR[E] clear: the DSI of the external control forms. -/
def earTrap (c : Cpu β) (ea bits : U32) : Cpu β :=
  let c := { c with st := { c.st with dar := ea, dsisr := bits } }
  c.raiseExc Exc.Dsi (c.st.pc - 4#32) 0#32

def h_eciwx : Handler β := fun c i =>
  let ea := c.st.user.eaX i
  if ea &&& 3#32 ≠ 0#32 then c.raiseAlign i ea
  else if c.st.ear &&& 0x80000000#32 = 0#32 then c.earTrap ea 0x00100000#32
  else
    match c.readV ea 4 with
    | (none, c) => c
    | (some v, c) => c.onUser fun u => u.setGpr (f_rt i) (v.setWidth 32)

def h_ecowx : Handler β := fun c i =>
  let ea := c.st.user.eaX i
  if ea &&& 3#32 ≠ 0#32 then c.raiseAlign i ea
  else if c.st.ear &&& 0x80000000#32 = 0#32 then c.earTrap ea (0x00100000#32 ||| 0x02000000#32)
  else (c.writeV ea 4 ((c.st.gpr (f_rt i)).setWidth 64)).2

/-! ## Vector loads and stores -/

/-- The sixteen reads of `h_lvx`, over the bytes left; `v` is the vector so far. -/
def lvxLoop (ea : U32) : List ℕ → List U8 → Cpu β → Option (List U8) × Cpu β
  | [], v, c => (some v, c)
  | k :: rest, v, c =>
      match c.readV (ea + BitVec.ofNat 32 k) 1 with
      | (none, c) => (none, c)
      | (some b, c) => lvxLoop ea rest (v ++ [b.setWidth 8]) c

/-- `V128` from its bytes. -/
def ofBytes (v : List U8) : BitVec 4 → U8 := fun k => v.getD k.toNat 0#8

/-- `h_lvx`, which `lvxl` is bound to as well. -/
def h_lvx : Handler β := fun c i =>
  match lvxLoop (c.st.user.eaX i &&& ~~~15#32) (List.range 16) [] c with
  | (none, c) => c
  | (some v, c) => c.onUser fun u => u.setVr (f_rt i) (ofBytes v)

/-- The sixteen writes of `h_stvx`. -/
def stvxLoop (ea : U32) (v : BitVec 4 → U8) : List ℕ → Cpu β → Cpu β
  | [], c => c
  | k :: rest, c =>
      match c.writeV (ea + BitVec.ofNat 32 k) 1 ((v (BitVec.ofNat 4 k)).setWidth 64) with
      | (false, c) => c
      | (true, c) => stvxLoop ea v rest c

/-- `h_stvx`, which `stvxl` is bound to as well. -/
def h_stvx : Handler β := fun c i =>
  stvxLoop (c.st.user.eaX i &&& ~~~15#32) (c.st.vr (f_rt i)) (List.range 16) c

/-- One element of `len` bytes at its place in a vector of zeros: `ph`, `pw`. -/
def putElement (ea : U32) (len : ℕ) (x : U64) : BitVec 4 → U8 := fun k =>
  let first := (ea &&& 15#32).toNat
  if first ≤ k.toNat ∧ k.toNat < first + len then byteBE len (k.toNat - first) x else 0#8

/-- One element of `len` bytes, from its place in the vector: `gh`, `gw`. -/
def getElement (ea : U32) (len : ℕ) (v : BitVec 4 → U8) : U64 :=
  ofBytesBE ((List.range len).map fun k => v (BitVec.ofNat 4 ((ea &&& 15#32).toNat + k)))

/-- `h_lvebx`, `h_lvehx`, `h_lvewx`: the address is truncated to the element. -/
def loadElement (len : ℕ) : Handler β := fun c i =>
  let ea := c.st.user.eaX i &&& ~~~(BitVec.ofNat 32 len - 1#32)
  match c.readV ea len with
  | (none, c) => c
  | (some x, c) => c.onUser fun u => u.setVr (f_rt i) (putElement ea len x)

/-- `h_stvebx`, `h_stvehx`, `h_stvewx`. -/
def storeElement (len : ℕ) : Handler β := fun c i =>
  let ea := c.st.user.eaX i &&& ~~~(BitVec.ofNat 32 len - 1#32)
  (c.writeV ea len (getElement ea len (c.st.vr (f_rt i)))).2

def h_lvebx : Handler β := loadElement 1
def h_lvehx : Handler β := loadElement 2
def h_lvewx : Handler β := loadElement 4
def h_stvebx : Handler β := storeElement 1
def h_stvehx : Handler β := storeElement 2
def h_stvewx : Handler β := storeElement 4

end Handlers

/-! ## The dispatch -/

/-- `execRow` up to the handler's return: the exception flag is cleared, the word
is filed, and the pc is moved on before the handler sees it. -/
def dispatch (c : Cpu β) (h : Handler β) (insn : U32) : Cpu β :=
  h { c with
    raisedThisStep := false
    curInsn := insn
    st := { c.st with pc := c.st.pc + 4#32 } } insn

end Cpu

end OpenPowerMac
