/-
The MMU and the fetch path: `core/src/mmu.cpp`.

`translate` goes real mode, BATs, segment, TLB, hashed page table, in that
order. A failed translation has already raised its exception, so the functions
here return the processor either way and the address only on success. The table
search reads and writes through the data cache like any other access, which is
why a fetch can move memory.

In front of it stand the one-page translation caches (`xlateFetch`'s for
instructions, `xlateData`'s for data) and the fetch blocks (`fetchAt`).
`fetchAtOff` is the fetch path with those switched off: peek the L1, then the
L2, then read the bus, and decode.
-/
import OpenPowerMac.Cache
import OpenPowerMac.Isa

set_option autoImplicit false

namespace OpenPowerMac

def kWimgG : U32 := 1#32
def kWimgReal : U32 := 3#32

/-- `BatHit`. -/
structure BatHit where
  pa : U32
  pp : U32
  wimg : U32

/-- One trip of `batLookup`: the pair matches, or it does not. -/
def batMatch (u l ea : U32) (user : Bool) : Option BatHit :=
  let valid := if user then u &&& 1#32 else u &&& 2#32
  if valid = 0#32 then none
  else
    let blMask := (u >>> 2) &&& 0x7FF#32
    let eaHi := ea >>> 17
    let bepi := u >>> 17
    if (eaHi ^^^ bepi) &&& (0x7FFF#32 &&& ~~~blMask) ≠ 0#32 then none
    else
      let brpn := l >>> 17
      let paHi := (brpn &&& ~~~blMask) ||| (eaHi &&& blMask)
      some
        { pa := (paHi <<< 17) ||| (ea &&& 0x1FFFF#32), pp := l &&& 3#32,
          wimg := (l >>> 3) &&& 0xF#32 }

/-- `batLookup`: the first matching pair. -/
def batLookup (batu batl : BitVec 2 → U32) (ea : U32) (user : Bool) : Option BatHit :=
  [0#2, 1#2, 2#2, 3#2].findSome? fun i => batMatch (batu i) (batl i) ea user

/-- `ppAllows`: PP and key protection. -/
def ppAllows (pp : U32) (key write : Bool) : Bool :=
  if key then
    match pp with
    | 0#32 => false
    | 1#32 => !write
    | 2#32 => true
    | _ => !write
  else if pp = 3#32 then !write
  else true

namespace Cpu

variable {β : Type}

/-! ## Translation -/

/-- `translate`'s `dsi`: DAR, DSISR and the exception. -/
def dsi (c : Cpu β) (ea cia bits : U32) (write : Bool) : Cpu β :=
  let c := { c with
    st := { c.st with
      dar := ea
      dsisr := bits ||| (if write then 0x02000000#32 else 0#32) } }
  c.raiseExc Exc.Dsi cia 0#32

/-- A refused access: an ISI for a fetch, a DSI for data. -/
def xlFault (c : Cpu β) (ea cia : U32) (write fetch : Bool) (isiBits dsiBits : U32) : Cpu β :=
  if fetch then c.raiseExc Exc.Isi cia isiBits else c.dsi ea cia dsiBits write

/-- One side's TLB. -/
def tlbOf (c : Cpu β) (fetch : Bool) : BitVec 6 → Fin 2 → TlbEntry := if fetch then c.itlb else c.dtlb

def tlbLruOf (c : Cpu β) (fetch : Bool) : BitVec 6 → Fin 2 :=
  if fetch then c.itlbLru else c.dtlbLru

def setTlb (c : Cpu β) (fetch : Bool) (s : BitVec 6) (w : Fin 2) (e : TlbEntry) : Cpu β :=
  if fetch then { c with itlb := Function.update c.itlb s (Function.update (c.itlb s) w e) }
  else { c with dtlb := Function.update c.dtlb s (Function.update (c.dtlb s) w e) }

def setTlbLru (c : Cpu β) (fetch : Bool) (s : BitVec 6) (w : Fin 2) : Cpu β :=
  if fetch then { c with itlbLru := Function.update c.itlbLru s w }
  else { c with dtlbLru := Function.update c.dtlbLru s w }

/-- What `translate` works out before the TLB: the page and its protection key. -/
structure PageReq where
  ea : U32
  cia : U32
  write : Bool
  fetch : Bool
  key : Bool
  vsid : U32
  pageIndex : U32

/-- The TLB set EA[14-19] selects. -/
def PageReq.set (q : PageReq) : BitVec 6 := q.pageIndex.setWidth 6

/-- The physical address and the WIMG bits of a translated access. -/
abbrev Xlated := U32 × U32

section Walk

variable [Bus β]

/-- The table search's read of one PTE word. -/
def pteRead (c : Cpu β) (a : U32) : U32 × Cpu β :=
  if c.mmuProbe then
    let r := Bus.read32 c.bus a
    (r.1, c.setBus r.2)
  else
    let r := c.memRead a 4 2#32
    (r.1.setWidth 32, r.2)

/-- The write-back of R and C, when it changes the word. -/
def pteUpdate (c : Cpu β) (a w1 nw1 : U32) : Cpu β :=
  if nw1 ≠ w1 ∧ c.mmuProbe = false then c.memWrite a 4 (nw1.setWidth 64) 2#32 else c

/-- The first word names the page: valid, the segment, the hash and the index. -/
def pteMatches (w0 : U32) (q : PageReq) (secondary : Bool) : Bool :=
  w0 &&& 0x80000000#32 != 0#32 && (w0 >>> 7) &&& 0xFFFFFF#32 == q.vsid
    && (w0 >>> 6) &&& 1#32 == (if secondary then 1#32 else 0#32)
    && w0 &&& 0x3F#32 == q.pageIndex >>> 10

/-- A matching PTE: protection, R and C, and the TLB reload. -/
def pteUse (c : Cpu β) (q : PageReq) (pteAddr : U32) : Option Xlated × Cpu β :=
  let (w1, c) := c.pteRead (pteAddr + 4#32)
  if q.fetch ∧ w1 &&& (kWimgG <<< 3) ≠ 0#32 then (none, c.raiseExc Exc.Isi q.cia 0x10000000#32)
  else
    let nw1 := w1 ||| 0x00000100#32
    let pp := w1 &&& 3#32
    -- a refused access still sets the referenced bit
    if !ppAllows pp q.key q.write then
      let c := c.pteUpdate (pteAddr + 4#32) w1 nw1
      (none, c.xlFault q.ea q.cia q.write q.fetch 0x08000000#32 0x08000000#32)
    else
      let nw1 := if q.write then nw1 ||| 0x00000080#32 else nw1
      let c := c.pteUpdate (pteAddr + 4#32) w1 nw1
      let wimg := (w1 >>> 3) &&& 0xF#32
      let c :=
        -- a probe leaves the TLB alone
        if c.mmuProbe then c
        else
          let way := c.tlbLruOf q.fetch q.set
          (c.setTlb q.fetch q.set way
            { v := true, c := nw1 &&& 0x80#32 != 0#32, vsid := q.vsid, pi := q.pageIndex,
              rpn := w1 &&& 0xFFFFF000#32, wimg := wimg, pp := pp }).setTlbLru
            q.fetch q.set (way + 1)
      (some ((w1 &&& 0xFFFFF000#32) ||| (q.ea &&& 0xFFF#32), wimg), c)

/-- The group address of the primary or the secondary hash. -/
def ptegAddr (c : Cpu β) (q : PageReq) (secondary : Bool) : U32 :=
  let h := (q.vsid &&& 0x7FFFF#32) ^^^ q.pageIndex
  let hash := if secondary then ~~~h &&& 0x7FFFF#32 else h
  (c.st.sdr1 &&& 0xFFFF0000#32)
    ||| ((((hash >>> 10) &&& 0x1FF#32) &&& (c.st.sdr1 &&& 0x1FF#32)) <<< 16)
    ||| ((hash &&& 0x3FF#32) <<< 6)

/-- The hashed page table search, over the slots left to look at. -/
def pteSearch (q : PageReq) : List (Bool × ℕ) → Cpu β → Option Xlated × Cpu β
  | [], c => (none, c.xlFault q.ea q.cia q.write q.fetch 0x40000000#32 0x40000000#32)
  | (secondary, slot) :: rest, c =>
      let pteAddr := c.ptegAddr q secondary + BitVec.ofNat 32 slot * 8#32
      let (w0, c) := c.pteRead pteAddr
      if pteMatches w0 q secondary then c.pteUse q pteAddr else pteSearch q rest c

/-- The order of the search: the primary group's eight slots, then the
secondary's. -/
def pteSlots : List (Bool × ℕ) :=
  (List.range 8).map (Prod.mk false) ++ (List.range 8).map (Prod.mk true)

/-- The way of the TLB set that holds the page. -/
def tlbWay (c : Cpu β) (q : PageReq) : Option (Fin 2) :=
  [0, 1].find? fun w =>
    let e := c.tlbOf q.fetch q.set w
    e.v && e.vsid == q.vsid && e.pi == q.pageIndex

/-- The TLB, and the table search behind it. The first store through an entry
drops it, so that the search sets C. -/
def pageXlate (c : Cpu β) (q : PageReq) : Option Xlated × Cpu β :=
  match (if c.mmuProbe then none else c.tlbWay q) with
  | none => pteSearch q pteSlots c
  | some w =>
      let e := c.tlbOf q.fetch q.set w
      if q.fetch ∧ e.wimg &&& kWimgG ≠ 0#32 then (none, c.raiseExc Exc.Isi q.cia 0x10000000#32)
      else if !ppAllows e.pp q.key q.write then
        (none, c.xlFault q.ea q.cia q.write q.fetch 0x08000000#32 0x08000000#32)
      else if q.write && !e.c then
        pteSearch q pteSlots (c.setTlb q.fetch q.set w { e with v := false, c := e.c })
      else (some (e.rpn ||| (q.ea &&& 0xFFF#32), e.wimg), c.setTlbLru q.fetch q.set (w + 1))

/-- A matching BAT. -/
def batXlate (c : Cpu β) (b : BatHit) (ea cia : U32) (write fetch : Bool) :
    Option Xlated × Cpu β :=
  if fetch ∧ b.wimg &&& kWimgG ≠ 0#32 then (none, c.raiseExc Exc.Isi cia 0x10000000#32)
  else if b.pp = 0#32 ∨ (write ∧ b.pp &&& 1#32 ≠ 0#32) then
    (none, c.xlFault ea cia write fetch 0x08000000#32 0x08000000#32)
  else (some (b.pa, b.wimg), c)

/-- The segment, then the page. -/
def segXlate (c : Cpu β) (ea cia : U32) (write fetch : Bool) : Option Xlated × Cpu β :=
  let sr := c.st.sr (ea.extractLsb' 28 4)
  if sr &&& 0x80000000#32 ≠ 0#32 then
    (none, c.xlFault ea cia write fetch 0x10000000#32 0x04000000#32)
  else if fetch ∧ sr &&& 0x10000000#32 ≠ 0#32 then
    (none, c.raiseExc Exc.Isi cia 0x10000000#32)
  else
    let key := sr &&& (if c.userMode then 0x20000000#32 else 0x40000000#32) != 0#32
    c.pageXlate
      { ea := ea, cia := cia, write := write, fetch := fetch, key := key,
        vsid := sr &&& 0x00FFFFFF#32, pageIndex := (ea >>> 12) &&& 0xFFFF#32 }

/-- `Cpu::translate`. -/
def translate (c : Cpu β) (ea : U32) (write fetch : Bool) : Option Xlated × Cpu β :=
  if c.st.msr &&& (if fetch then msr.IR else msr.DR) = 0#32 then
    (some (ea, if c.realModeInhibitBase ≠ 0#32 ∧ c.realModeInhibitBase ≤ ea
      then kWimgReal ||| kWimgI else kWimgReal), c)
  else
    let cia := if fetch then ea else c.st.pc - 4#32
    let bat :=
      if fetch then batLookup c.st.ibatu c.st.ibatl ea c.userMode
      else batLookup c.st.dbatu c.st.dbatl ea c.userMode
    match bat with
    | some b => c.batXlate b ea cia write fetch
    | none => c.segXlate ea cia write fetch

/-- `Cpu::tlbInvalidateClass`: `tlbie`. -/
def tlbInvalidateClass (c : Cpu β) (ea : U32) : Cpu β :=
  let s : BitVec 6 := ea.extractLsb' 12 6
  { c with
    mmuGen := c.mmuGen + 1#64
    batchBreak := true
    itlb := Function.update c.itlb s fun w => { c.itlb s w with v := false, c := (c.itlb s w).c }
    dtlb := Function.update c.dtlb s fun w => { c.dtlb s w with v := false, c := (c.dtlb s w).c } }

/-- `Cpu::tlbFlushAll`. -/
def tlbFlushAll (c : Cpu β) : Cpu β :=
  { c with
    mmuGen := c.mmuGen + 1#64
    batchBreak := true
    itlb := fun _ _ => {}
    dtlb := fun _ _ => {}
    itlbLru := fun _ => 0
    dtlbLru := fun _ => 0 }

/-! ## Virtual accesses -/

/-- `dabrHit`: the data breakpoint. -/
def dabrHit (s : CpuState) (ea : U32) (write : Bool) : Bool :=
  let en := if write then 2#32 else 1#32
  s.dabr &&& en != 0#32
    && ((s.dabr >>> 2) &&& 1#32 != 0#32) == (s.msr &&& msr.DR != 0#32)
    && ((ea ^^^ s.dabr) >>> 3) &&& (s.bamr >>> 3) &&& 0x1FFFFFFF#32 == 0#32

/-- `Cpu::leAlignCheck`: in little-endian mode a misaligned access traps. -/
def leAlignCheck (c : Cpu β) (ea : U32) (len : ℕ) : Bool × Cpu β :=
  if c.st.msr &&& msr.LE = 0#32 ∨ ea &&& (BitVec.ofNat 32 len - 1#32) = 0#32 then (true, c)
  else
    let c := { c with st := { c.st with dar := ea, dsisr := alignDsisr c.curInsn } }
    (false, c.raiseExc Exc.Alignment (c.st.pc - 4#32) 0#32)

/-- `Cpu::xlateData`: `translate` through the one-page cache of the access's
direction. -/
def xlateData (c : Cpu β) (ea : U32) (write : Bool) : Option Xlated × Cpu β :=
  if c.dxlCacheOff then c.translate ea write false
  else
    let page := ea >>> 12
    -- every register the answer depends on is part of the key
    let msrKey := c.st.msr &&& (msr.DR ||| msr.PR ||| msr.LE)
    let srKey := c.st.sr (ea.extractLsb' 28 4)
    if c.dxlGen write = c.mmuGen ∧ c.dxlPage write = page ∧ c.dxlMsr write = msrKey
        ∧ c.dxlSr write = srKey then
      (some (c.dxlPa write ||| (ea &&& 0xFFF#32), c.dxlWimg write), c)
    else
      match c.translate ea write false with
      | (none, c) => (none, c)
      | (some (pa, wimg), c) =>
          (some (pa, wimg),
            { c with
              dxlGen := Function.update c.dxlGen write c.mmuGen
              dxlPage := Function.update c.dxlPage write page
              dxlMsr := Function.update c.dxlMsr write msrKey
              dxlSr := Function.update c.dxlSr write srKey
              dxlPa := Function.update c.dxlPa write (pa &&& ~~~0xFFF#32)
              dxlWimg := Function.update c.dxlWimg write wimg })

/-- The little-endian address of an access of `len` bytes. -/
def leMunge (ea : U32) (len : ℕ) : U32 :=
  ea ^^^ (if len = 1 then 7#32 else if len = 2 then 6#32 else 4#32)

/-- The access lies inside one page. -/
def onePage (ea : U32) (len : ℕ) : Bool :=
  (ea ^^^ (ea + BitVec.ofNat 32 len - 1#32)) &&& ~~~0xFFF#32 == 0#32

/-- The data breakpoint's exception. -/
def dabrTrap (c : Cpu β) (ea bits : U32) : Cpu β :=
  let c := { c with st := { c.st with dar := ea, dsisr := bits } }
  c.raiseExc Exc.Dsi (c.st.pc - 4#32) 0#32

/-- A translated read of one piece of an access. -/
def readPiece (c : Cpu β) (ea : U32) (len : ℕ) : Option U64 × Cpu β :=
  match c.translate ea false false with
  | (none, c) => (none, c)
  | (some (pa, wimg), c) => let r := c.memRead pa len wimg; (some r.1, r.2)

/-- A page-crossing read: byte by byte, each translated. -/
def readBytes (ea : U32) : List ℕ → U64 → Cpu β → Option U64 × Cpu β
  | [], out, c => (some out, c)
  | i :: rest, out, c =>
      match c.readPiece (ea + BitVec.ofNat 32 i) 1 with
      | (none, c) => (none, c)
      | (some b, c) => readBytes ea rest ((out <<< 8) ||| b) c

/-- `Cpu::readV`, from the address munging on. -/
def readVAt (c : Cpu β) (ea : U32) (len : ℕ) : Option U64 × Cpu β :=
  if onePage ea len then
    match c.xlateData ea false with
    | (none, c) => (none, c)
    | (some (pa, wimg), c) => let r := c.memRead pa len wimg; (some r.1, r.2)
  else readBytes ea (List.range len) 0#64 c

/-- `Cpu::readV`. -/
def readV (c : Cpu β) (ea : U32) (len : ℕ) : Option U64 × Cpu β :=
  let (aligned, c) := c.leAlignCheck ea len
  if !aligned then (none, c)
  else if dabrHit c.st ea false then (none, c.dabrTrap ea 0x00400000#32)
  else if c.st.msr &&& msr.LE ≠ 0#32 then
    if len = 8 then
      -- two munged word accesses; the words swap
      match c.readPiece (ea ^^^ 4#32) 4 with
      | (none, c) => (none, c)
      | (some hi, c) =>
          match c.readPiece ((ea + 4#32) ^^^ 4#32) 4 with
          | (none, c) => (none, c)
          | (some lo, c) => (some ((hi <<< 32) ||| lo), c)
    else c.readVAt (leMunge ea len) len
  else c.readVAt ea len

/-- A translated write of one piece of an access. -/
def writePiece (c : Cpu β) (ea : U32) (len : ℕ) (v : U64) : Bool × Cpu β :=
  match c.translate ea true false with
  | (none, c) => (false, c)
  | (some (pa, wimg), c) => (true, c.memWrite pa len v wimg)

/-- A page-crossing write: byte by byte, each translated. -/
def writeBytes (ea : U32) (len : ℕ) (v : U64) : List ℕ → Cpu β → Bool × Cpu β
  | [], c => (true, c)
  | i :: rest, c =>
      match c.writePiece (ea + BitVec.ofNat 32 i) 1 ((byteBE len i v).setWidth 64) with
      | (false, c) => (false, c)
      | (true, c) => writeBytes ea len v rest c

/-- `Cpu::writeV`, from the address munging on. -/
def writeVAt (c : Cpu β) (ea : U32) (len : ℕ) (v : U64) : Bool × Cpu β :=
  if onePage ea len then
    match c.xlateData ea true with
    | (none, c) => (false, c)
    | (some (pa, wimg), c) => (true, c.memWrite pa len v wimg)
  else writeBytes ea len v (List.range len) c

/-- `Cpu::writeV`. -/
def writeV (c : Cpu β) (ea : U32) (len : ℕ) (v : U64) : Bool × Cpu β :=
  let (aligned, c) := c.leAlignCheck ea len
  if !aligned then (false, c)
  else if dabrHit c.st ea true then (false, c.dabrTrap ea (0x00400000#32 ||| 0x02000000#32))
  else if c.st.msr &&& msr.LE ≠ 0#32 then
    if len = 8 then
      match c.writePiece (ea ^^^ 4#32) 4 ((v >>> 32).setWidth 32 |>.setWidth 64) with
      | (false, c) => (false, c)
      | (true, c) => c.writePiece ((ea + 4#32) ^^^ 4#32) 4 (v.setWidth 32 |>.setWidth 64)
    else c.writeVAt (leMunge ea len) len v
  else c.writeVAt ea len v

/-! ## The fetch path -/

/-- The row index of a word, as the fetch path files it. -/
def rowOf (insn : U32) : U16 :=
  match decode insn with
  | some i => BitVec.ofNat 16 i
  | none => kNoRow

/-- The translation of a fetch, from the one-page cache when its inputs are
unchanged. -/
def xlateFetch (c : Cpu β) (ea : U32) : Option U32 × Cpu β :=
  let page := ea >>> 12
  let msrKey := c.st.msr &&& (msr.IR ||| msr.PR ||| msr.LE)
  let srKey := c.st.sr (ea.extractLsb' 28 4)
  if c.xlGen = c.mmuGen ∧ c.xlPage = page ∧ c.xlMsr = msrKey ∧ c.xlSr = srKey then
    (some (c.xlPa ||| (ea &&& 0xFFF#32)), c)
  else
    match c.translate ea false true with
    | (none, c) => (none, c)
    | (some (pa, _), c) =>
        (some pa,
          { c with xlGen := c.mmuGen, xlPage := page, xlMsr := msrKey, xlSr := srKey,
                   xlPa := pa &&& ~~~0xFFF#32 })

/-- The word of a block, `k` of eight. -/
def blockWord (raw : Line) (k : BitVec 3) : U32 :=
  (lineLoadBE raw (k ++ 0#2) 4).setWidth 32

/-- A block as it is filed: its words and their rows. -/
def fetchFill (base : U32) (raw : Line) : FetchLine where
  base := base
  w := blockWord raw
  row := fun k => rowOf (blockWord raw k)

/-- The bytes of a block, from a cache or from memory: `none` where the bus says
it is not memory. -/
def fetchRaw (c : Cpu β) (base : U32) : Option Line × Cpu β :=
  match c.l1dReadLine base with
  | some raw => (some raw, c)
  | none =>
      match c.l2ReadLine base with
      | (some raw, c) => (some raw, c)
      | (none, c) =>
          if Bus.memoryAt c.bus base 32#32 then
            let r := Bus.readLine32 c.bus base
            (some r.1, c.setBus r.2)
          else (none, c)

/-- The word of a block an address names. -/
def wordOf (pa : U32) : BitVec 3 := pa.extractLsb' 2 3

/-- `fetchDecoded` with the physical address in hand: the block buffer, a fill,
or the one word of a device window. -/
def fetchAt (c : Cpu β) (pa : U32) : (U32 × U16) × Cpu β :=
  let base := blockBase pa
  let fl := c.fetchLine (fetchSlot pa)
  if fl.base = base then ((fl.w (wordOf pa), fl.row (wordOf pa)), c)
  else
    match c.fetchRaw base with
    | (some raw, c) =>
        let fl := fetchFill base raw
        ((fl.w (wordOf pa), fl.row (wordOf pa)), c.setFetchLine (fetchSlot pa) fl)
    | (none, c) =>
        let fl := c.fetchLine (fetchSlot pa)
        let c := c.setFetchLine (fetchSlot pa) { fl with base := 1#32 }
        let r := Bus.read32 c.bus pa
        ((r.1, rowOf r.1), c.setBus r.2)

/-- The same with every cache of the fetch path switched off. -/
def fetchAtOff (c : Cpu β) (pa : U32) : (U32 × U16) × Cpu β :=
  match c.l1dPeek32 pa with
  | some w => ((w, rowOf w), c)
  | none =>
      match c.l2Peek32 pa with
      | (some w, c) => ((w, rowOf w), c)
      | (none, c) =>
          let r := Bus.read32 c.bus pa
          ((r.1, rowOf r.1), c.setBus r.2)

/-- The address a fetch presents: in little-endian mode munged like word data. -/
def fetchEa (c : Cpu β) (ea : U32) : U32 :=
  if c.st.msr &&& msr.LE ≠ 0#32 then ea ^^^ 4#32 else ea

/-- `fetchDecoded` under `fetchCacheOff`: translate every fetch, and look at the
caches and the bus for the one word. -/
def fetchDecodedOff (c : Cpu β) (ea : U32) : Option (U32 × U16) × Cpu β :=
  match c.translate (c.fetchEa ea) false true with
  | (none, c) => (none, c)
  | (some (pa, _), c) => let r := c.fetchAtOff pa; (some r.1, r.2)

/-- `Cpu::fetchDecoded`. -/
def fetchDecoded (c : Cpu β) (ea : U32) : Option (U32 × U16) × Cpu β :=
  if c.fetchCacheOff then c.fetchDecodedOff ea
  else
    match c.xlateFetch (c.fetchEa ea) with
    | (none, c) => (none, c)
    | (some pa, c) => let r := c.fetchAt pa; (some r.1, r.2)

/-- `Cpu::fetchBlockFast`: the slot of the block covering `ea`, if it is already
here, and the word in it. -/
def fetchBlockFast (c : Cpu β) (ea : U32) : Option (BitVec 12 × BitVec 3) :=
  if c.fetchCacheOff then none
  else
    let ea := c.fetchEa ea
    if c.xlGen ≠ c.mmuGen ∨ c.xlPage ≠ ea >>> 12
        ∨ c.xlMsr ≠ c.st.msr &&& (msr.IR ||| msr.PR ||| msr.LE)
        ∨ c.xlSr ≠ c.st.sr (ea.extractLsb' 28 4) then none
    else
      let pa := c.xlPa ||| (ea &&& 0xFFF#32)
      if (c.fetchLine (fetchSlot pa)).base ≠ blockBase pa then none
      else some (fetchSlot pa, wordOf pa)

end Walk

end Cpu

end OpenPowerMac
