/-
The caches: the L1 data cache and the backside L2 of `core/src/cache.cpp`, with
the fetch blocks' drops (`fetchDrop`, `fetchDropAt`, `fetchDropRange` of
`core/include/opm/cpu.hpp`) that every path into memory makes.

This module is the translation only. Where the source holds a reference to a
way or to an L2 line, the functions here pass its index. The `L2Line*` of
`l2Find` is an index into the array, and the loops over the two ways of a set
are written out. The two early returns of `lineVictim`'s walk are the two cases
here: the first invalid way, and, when there is none, the oldest.

The watchpoints and the `noteL2Skew` census are instruments that nothing reads
back, and are left out.
-/
import OpenPowerMac.Cpu

set_option autoImplicit false

namespace OpenPowerMac

def kWimgW : U32 := 8#32
def kWimgI : U32 := 4#32

/-- `setOf`: the L1 set of an address. -/
def setOf (pa : U32) : BitVec 7 := pa.extractLsb' 5 7

/-- `tagOf`. -/
def tagOf (pa : U32) : U32 := pa >>> 12

/-- `tvOf`: the lookup word of a live block. -/
def tvOf (pa : U32) : U32 := (tagOf pa <<< 1) ||| 1#32

/-- The block an address lies in: `pa & ~31`. -/
def blockBase (pa : U32) : U32 := pa &&& ~~~31#32

/-- The offset of an address in its block: `pa & 31`. -/
def blockOff (pa : U32) : BitVec 5 := pa.setWidth 5

/-- `lineLoadBE`: `len` bytes of a block from `o` on. -/
def lineLoadBE (l : Line) (o : BitVec 5) (len : ℕ) : U64 :=
  ofBytesBE ((List.range len).map fun i => l (o + BitVec.ofNat 5 i))

/-- `lineStoreBE`. -/
def lineStoreBE (l : Line) (o : BitVec 5) (len : ℕ) (v : U64) : Line :=
  (List.range len).foldl
    (fun m i => Function.update m (o + BitVec.ofNat 5 i) (byteBE len i v)) l

namespace Cpu

variable {β : Type}

/-! ## The fetch blocks -/

/-- `fetchSlot`: the direct-mapped slot of a block. -/
def fetchSlot (pa : U32) : BitVec 12 := pa.extractLsb' 5 12

def setFetchLine (c : Cpu β) (s : BitVec 12) (fl : FetchLine) : Cpu β :=
  { c with fetchLine := Function.update c.fetchLine s fl }

/-- `fetchDrop`: every slot is marked empty. -/
def fetchDrop (c : Cpu β) : Cpu β :=
  { c with fetchLine := fun s => { c.fetchLine s with base := 1#32 } }

/-- `fetchDropAt`. -/
def fetchDropAt (c : Cpu β) (pa : U32) : Cpu β :=
  let fl := c.fetchLine (fetchSlot pa)
  if fl.base = blockBase pa then c.setFetchLine (fetchSlot pa) { fl with base := 1#32 } else c

/-- `fetchDropRange`: the block of the first byte and, when it is another, the
block of the last. -/
def fetchDropRange (c : Cpu β) (pa : U32) (len : ℕ) : Cpu β :=
  let last := pa + BitVec.ofNat 32 len - 1#32
  let c := c.fetchDropAt pa
  if (pa ^^^ last) &&& ~~~31#32 ≠ 0#32 then c.fetchDropAt last else c

section Caches

variable [Bus β]

def setBus (c : Cpu β) (b : β) : Cpu β := { c with bus := b }

/-- `busWriteLine`: a burst write, after dropping the fetch block it rewrites. -/
def busWriteLine (c : Cpu β) (base : U32) (b : Line) : Cpu β :=
  let c := c.fetchDropAt base
  c.setBus (Bus.writeLine32 c.bus base b)

/-! ## The L1 index -/

/-- One way's lookup word. -/
def setTv (c : Cpu β) (s : BitVec 7) (w : Fin 8) (tv : U32) : Cpu β :=
  { c with l1x := Function.update c.l1x s { c.l1x s with tv := Function.update (c.l1x s).tv w tv } }

/-- One way's age, from the advanced clock: `age[w] = ++l1dClock`. -/
def touchWay (c : Cpu β) (s : BitVec 7) (w : Fin 8) : Cpu β :=
  { c with
    l1dClock := c.l1dClock + 1#32
    l1x := Function.update c.l1x s
      { c.l1x s with age := Function.update (c.l1x s).age w (c.l1dClock + 1#32) } }

/-- One way's bytes and dirty bit. -/
def setDLine (c : Cpu β) (s : BitVec 7) (w : Fin 8) (e : DLine) : Cpu β :=
  { c with l1d := Function.update c.l1d s (Function.update (c.l1d s) w e) }

/-- `lineWayQuiet`: the way that holds the block, found without touching its age. -/
def lineWayQuiet (c : Cpu β) (pa : U32) : Option (Fin 8) :=
  (List.finRange 8).find? fun w => (c.l1x (setOf pa)).tv w == tvOf pa

/-- `lineWay`. -/
def lineWay (c : Cpu β) (pa : U32) : Option (Fin 8) × Cpu β :=
  match c.lineWayQuiet pa with
  | some w => (some w, c.touchWay (setOf pa) w)
  | none => (none, c)

/-! ## The backside L2 -/

def l2At (c : Cpu β) (i : ℕ) : L2Line := c.l2.getD i {}

def l2Put (c : Cpu β) (i : ℕ) (e : L2Line) : Cpu β := { c with l2 := c.l2.setIfInBounds i e }

/-- `++l2Clock`. -/
def l2Tick (c : Cpu β) : Cpu β := { c with l2Clock := c.l2Clock + 1#32 }

/-- `l2SetOf`: the set index, by mask where the set count is a power of two. The
source keeps the mask beside the count it was computed for. -/
def l2SetOf (c : Cpu β) (pa : U32) : ℕ :=
  let mask : U32 :=
    if c.l2Sets ≠ 0#32 ∧ c.l2Sets &&& (c.l2Sets - 1#32) = 0#32 then c.l2Sets - 1#32 else 0#32
  let line := pa >>> 5
  if mask ≠ 0#32 then (line &&& mask).toNat else line.toNat % c.l2Sets.toNat

/-- The walk over the two ways of a set. -/
def l2Way (c : Cpu β) (pa : U32) : Option ℕ :=
  let i := c.l2SetOf pa * 2
  if (c.l2At i).v ∧ (c.l2At i).tag = pa >>> 5 then some i
  else if (c.l2At (i + 1)).v ∧ (c.l2At (i + 1)).tag = pa >>> 5 then some (i + 1)
  else none

/-- One line of `l2FlushAll`. -/
def l2FlushEntry (writeback : Bool) (c : Cpu β) (i : ℕ) : Cpu β :=
  let e := c.l2At i
  let c := if e.v && e.d && writeback then c.busWriteLine (e.tag <<< 5) e.b else c
  c.l2Put i { e with v := false, d := false }

/-- `l2FlushAll`. -/
def l2FlushAll (c : Cpu β) (writeback : Bool) : Cpu β :=
  (List.range c.l2.size).foldl (l2FlushEntry writeback) c.fetchDrop

/-- The set count L2CR[L2SIZ] asks for: the size in bytes over 32-byte lines
and two ways. -/
def l2SizeSets (l2cr : U32) : U32 :=
  match (l2cr >>> 28) &&& 3#32 with
  | 0#32 => 0x8000#32
  | 1#32 => 0x1000#32
  | 2#32 => 0x2000#32
  | _ => 0x4000#32

/-- `l2Resize`. -/
def l2Resize (c : Cpu β) : Cpu β :=
  let sets := l2SizeSets c.st.l2cr
  if sets ≠ c.l2Sets then
    { c.l2FlushAll true with l2Sets := sets, l2 := Array.replicate (sets.toNat * 2) {} }
  else c

/-- `l2Find`: the line that holds the block, its age advanced. -/
def l2Find (c : Cpu β) (pa : U32) : Option ℕ × Cpu β :=
  if !c.l2On || c.l2Sets == 0#32 || c.l2Inert then (none, c)
  else
    match c.l2Way pa with
    | some i => (some i, c.l2Tick.l2Put i { c.l2At i with age := c.l2Clock + 1#32 })
    | none => (none, c)

/-- The line an allocation takes: the block's own, an invalid one, or the older. -/
def l2Victim (c : Cpu β) (pa : U32) : ℕ :=
  let i := c.l2SetOf pa * 2
  if !(c.l2At i).v then i
  else if !(c.l2At (i + 1)).v then i + 1
  else if (c.l2At i).age ≤ (c.l2At (i + 1)).age then i else i + 1

/-- `l2Install`. -/
def l2Install (c : Cpu β) (pa : U32) (bytes : Line) (dirty : Bool) : Cpu β :=
  if !c.l2On then c
  else
    let c := if dirty then c.fetchDropAt pa else c
    if c.l2Inert then if dirty then c.busWriteLine pa bytes else c
    else
      let c := if c.l2Sets = 0#32 then c.l2Resize else c
      let hit := c.l2Way pa
      let i := hit.getD (c.l2Victim pa)
      let old := c.l2At i
      let c := if hit.isNone && old.v && old.d then c.busWriteLine (old.tag <<< 5) old.b else c
      c.l2Tick.l2Put i
        { v := true, d := dirty || (hit.isSome && old.d), tag := pa >>> 5,
          age := c.l2Clock + 1#32, b := bytes }

/-- `l2ReadLine`. -/
def l2ReadLine (c : Cpu β) (pa : U32) : Option Line × Cpu β :=
  let (i, c) := c.l2Find pa
  (i.map fun i => (c.l2At i).b, c)

/-- One way of `l2Invalidate`'s walk. -/
def l2Unset (c : Cpu β) (tag : U32) (i : ℕ) : Cpu β :=
  let e := c.l2At i
  if e.v ∧ e.tag = tag then c.l2Put i { e with v := false } else c

/-- `l2Invalidate`. -/
def l2Invalidate (c : Cpu β) (pa : U32) : Cpu β :=
  let c := c.fetchDropAt pa
  if c.l2Sets = 0#32 then c
  else
    let i := c.l2SetOf pa * 2
    (c.l2Unset (pa >>> 5) i).l2Unset (pa >>> 5) (i + 1)

/-- The word of a block that holds `pa`, big-endian: `o = pa & 31 & ~3`. -/
def lineWord (l : Line) (pa : U32) : U32 :=
  (lineLoadBE l (blockOff pa &&& ~~~3#5) 4).setWidth 32

/-- `l2Peek32`. -/
def l2Peek32 (c : Cpu β) (pa : U32) : Option U32 × Cpu β :=
  let (i, c) := c.l2Find pa
  (i.map fun i => lineWord (c.l2At i).b pa, c)

/-! ## L1 castout, push, fill and victim -/

/-- `lineCastout`: replacement allocates into an enabled L2, else memory. -/
def lineCastout (c : Cpu β) (s : BitVec 7) (w : Fin 8) (tag : U32) : Cpu β :=
  let base := (tag <<< 12) ||| (s.setWidth 32 <<< 5)
  let e := c.l1d s w
  let c := if c.l2On then c.l2Install base e.b true else c.busWriteLine base e.b
  c.setDLine s w { b := e.b, d := false }

/-- `linePush`: a push goes to memory and kills the L2 copy, unless L2CR[L2TS]
parks it in the L2. -/
def linePush (c : Cpu β) (s : BitVec 7) (w : Fin 8) (tag : U32) : Cpu β :=
  let base := (tag <<< 12) ||| (s.setWidth 32 <<< 5)
  let e := c.l1d s w
  let c :=
    if c.l2On && c.st.l2cr &&& 0x00040000#32 != 0#32 then c.l2Install base e.b true
    else (c.busWriteLine base e.b).l2Invalidate base
  c.setDLine s w { b := e.b, d := false }

/-- `lineFill`: from the L2, else from the bus with a clean copy left in the L2. -/
def lineFill (c : Cpu β) (s : BitVec 7) (w : Fin 8) (pa : U32) : Cpu β :=
  let base := blockBase pa
  let (hit, c) := c.l2ReadLine base
  let (b, c) :=
    match hit with
    | some b => (b, c)
    | none =>
        let (b, bus) := Bus.readLine32 c.bus base
        let c := c.setBus bus
        (b, if c.l2On then c.l2Install base b false else c)
  (c.setTv s w (tvOf pa)).setDLine s w { b := b, d := false }

/-- The first way of a set that holds nothing. -/
def invalidWay (x : DIdx) : Option (Fin 8) :=
  (List.finRange 8).find? fun w => x.tv w &&& 1#32 == 0#32

/-- The least recently used way, the first of them on a tie. -/
def oldestWay (x : DIdx) : Fin 8 :=
  (List.finRange 8).foldl (fun best w => if x.age w < x.age best then w else best) 0

/-- `lineVictim`: the way a fill lands in, emptied. -/
def lineVictim (c : Cpu β) (pa : U32) : Fin 8 × Cpu β :=
  let s := setOf pa
  match invalidWay (c.l1x s) with
  | some w => (w, c)
  | none =>
      let best := oldestWay (c.l1x s)
      let c := if (c.l1d s best).d then c.lineCastout s best ((c.l1x s).tv best >>> 1) else c
      (best, c.setTv s best 0#32)

/-! ## Reads and writes -/

/-- The bus read of `memRead`, by length. -/
def busRead (c : Cpu β) (pa : U32) (len : ℕ) : U64 × Cpu β :=
  match len with
  | 1 => let r := Bus.read8 c.bus pa; (r.1.setWidth 64, c.setBus r.2)
  | 2 => let r := Bus.read16 c.bus pa; (r.1.setWidth 64, c.setBus r.2)
  | 4 => let r := Bus.read32 c.bus pa; (r.1.setWidth 64, c.setBus r.2)
  | _ => let r := Bus.read64 c.bus pa; (r.1, c.setBus r.2)

/-- The bus write of `memWrite`, by length. -/
def busWrite (c : Cpu β) (pa : U32) (len : ℕ) (v : U64) : Cpu β :=
  match len with
  | 1 => c.setBus (Bus.write8 c.bus pa (v.setWidth 8))
  | 2 => c.setBus (Bus.write16 c.bus pa (v.setWidth 16))
  | 4 => c.setBus (Bus.write32 c.bus pa (v.setWidth 32))
  | _ => c.setBus (Bus.write64 c.bus pa v)

/-- The way a read or an allocating write works on: the one that holds the
block, else a freshly filled one. -/
def lineAlloc (c : Cpu β) (pa : U32) (way : Option (Fin 8)) : Fin 8 × Cpu β :=
  match way with
  | some w => (w, c)
  | none =>
      let (w, c) := c.lineVictim pa
      (w, (c.lineFill (setOf pa) w pa).touchWay (setOf pa) w)

/-- `memRead` from the block test on: the access lies inside one block. -/
def memReadBlock (c : Cpu β) (pa : U32) (len : ℕ) : U64 × Cpu β :=
  let (way, c) := c.lineWay pa
  let (w, c) := c.lineAlloc pa way
  (lineLoadBE (c.l1d (setOf pa) w).b (blockOff pa) len, c)

/-- The access bypasses the caches. -/
def bypasses (c : Cpu β) (wimg : U32) : Bool := !c.dceOn || wimg &&& kWimgI != 0#32

/-- The access leaves the block it starts in. -/
def crosses (pa : U32) (len : ℕ) : Bool := decide (32 < (blockOff pa).toNat + len)

/-- One trip of `memRead`'s splitting loop. A single byte never crosses, so the
recursive call is the block read. -/
def memReadByte (pa : U32) (p : U64 × Cpu β) (i : ℕ) : U64 × Cpu β :=
  let r := p.2.memReadBlock (pa + BitVec.ofNat 32 i) 1
  ((p.1 <<< 8) ||| r.1, r.2)

/-- `Cpu::memRead`. -/
def memRead (c : Cpu β) (pa : U32) (len : ℕ) (wimg : U32) : U64 × Cpu β :=
  if c.bypasses wimg then c.busRead pa len
  else if crosses pa len then (List.range len).foldl (memReadByte pa) (0#64, c)
  else c.memReadBlock pa len

/-- `memWrite` from the block test on. -/
def memWriteBlock (c : Cpu β) (pa : U32) (len : ℕ) (v : U64) (wimg : U32) : Cpu β :=
  let s := setOf pa
  let (way, c) := c.lineWay pa
  if wimg &&& kWimgW ≠ 0#32 then
    -- write-through: a hit is merged, a miss allocates nothing
    let c :=
      match way with
      | some w =>
          let e := c.l1d s w
          c.setDLine s w { b := lineStoreBE e.b (blockOff pa) len v, d := e.d }
      | none => c
    c.busWrite pa len v
  else
    let (w, c) := c.lineAlloc pa way
    c.setDLine s w { b := lineStoreBE (c.l1d s w).b (blockOff pa) len v, d := true }

/-- One trip of `memWrite`'s splitting loop. -/
def memWriteByte (pa : U32) (len : ℕ) (v : U64) (wimg : U32) (c : Cpu β) (i : ℕ) : Cpu β :=
  let a := pa + BitVec.ofNat 32 i
  (c.fetchDropRange a 1).memWriteBlock a 1 ((byteBE len i v).setWidth 64) wimg

/-- `Cpu::memWrite`. -/
def memWrite (c : Cpu β) (pa : U32) (len : ℕ) (v : U64) (wimg : U32) : Cpu β :=
  let c := c.fetchDropRange pa len
  if c.bypasses wimg then c.busWrite pa len v
  else if crosses pa len then (List.range len).foldl (memWriteByte pa len v wimg) c
  else c.memWriteBlock pa len v wimg

/-- `l1dReadLine`: the block the fetch path may take from the L1. -/
def l1dReadLine (c : Cpu β) (pa : U32) : Option Line :=
  if c.dceOn then (c.lineWayQuiet pa).map fun w => (c.l1d (setOf pa) w).b else none

/-- `l1dPeek32`. -/
def l1dPeek32 (c : Cpu β) (pa : U32) : Option U32 :=
  if c.dceOn then (c.lineWayQuiet pa).map fun w => lineWord (c.l1d (setOf pa) w).b pa else none

/-! ## Block operations -/

/-- `dcbzLine`: the zeros are conjured in the cache, not filled. -/
def dcbzLine (c : Cpu β) (pa : U32) : Cpu β :=
  let c := c.fetchDropAt pa
  let s := setOf pa
  let (way, c) := c.lineWay pa
  let (w, c) :=
    match way with
    | some w => (w, c)
    | none =>
        let (w, c) := c.lineVictim pa
        (w, (c.setTv s w (tvOf pa)).touchWay s w)
  c.setDLine s w { b := fun _ => 0#8, d := true }

/-- `dcbClean`: `dcbst`, and `dcbf` when it invalidates. -/
def dcbClean (c : Cpu β) (pa : U32) (invalidate : Bool) : Cpu β :=
  let c := c.fetchDropAt pa
  let s := setOf pa
  let (way, c) := c.lineWay pa
  match way with
  | none => c
  | some w =>
      let c := if (c.l1d s w).d then c.linePush s w ((c.l1x s).tv w >>> 1) else c
      if invalidate then c.setTv s w 0#32 else c

/-- `dcbKill`: `dcbi`. -/
def dcbKill (c : Cpu β) (pa : U32) : Cpu β :=
  let c := c.fetchDropAt pa
  let (way, c) := c.lineWay pa
  let c := match way with
    | some w => c.setTv (setOf pa) w 0#32
    | none => c
  c.l2Invalidate (blockBase pa)

/-- The L1 half of one snooped block. -/
def snoopL1 (c : Cpu β) (a : U32) (invalidate : Bool) : Cpu β :=
  if c.dceOn then
    match c.lineWayQuiet a with
    | none => c
    | some w =>
        let s := setOf a
        let e := c.l1d s w
        let c :=
          if e.d then
            ((c.busWriteLine a e.b).setDLine s w { b := e.b, d := false }).l2Invalidate a
          else c
        if invalidate then c.setTv s w 0#32 else c
  else c

/-- The L2 half. -/
def snoopL2 (c : Cpu β) (a : U32) (invalidate : Bool) : Cpu β :=
  let (hit, c) := c.l2Find a
  match hit with
  | none => c
  | some i =>
      let q := c.l2At i
      let c := if q.d then (c.busWriteLine a q.b).l2Put i { q with d := false } else c
      if invalidate then c.l2Put i { c.l2At i with v := false } else c

/-- One block of `snoopPush`. -/
def snoopBlock (c : Cpu β) (a : U32) (invalidate : Bool) : Cpu β :=
  let c := if invalidate then c.fetchDropAt a else c
  (c.snoopL1 a invalidate).snoopL2 a invalidate

/-- `snoopPush`'s loop. It leaves on the last block, and where the next block's
address would wrap to zero. -/
def snoopLoop (invalidate : Bool) (last : U32) : ℕ → U32 → Cpu β → Cpu β
  | 0, _, c => c
  | fuel + 1, a, c =>
      let c := c.snoopBlock a invalidate
      if a = last ∨ a + 32#32 < a then c else snoopLoop invalidate last fuel (a + 32#32) c

/-- `Cpu::snoopPush`. There are at most `2^27` blocks before the wrap. -/
def snoopPush (c : Cpu β) (pa len : U32) (invalidate : Bool) : Cpu β :=
  if len = 0#32 then c
  else snoopLoop invalidate (blockBase (pa + len - 1#32)) (2 ^ 27) (blockBase pa) c

/-- One way of `l1dFlushAll`. -/
def l1dFlushWay (writeback : Bool) (c : Cpu β) (p : BitVec 7 × Fin 8) : Cpu β :=
  let (s, w) := p
  let e := c.l1d s w
  let tv := (c.l1x s).tv w
  let c :=
    if tv &&& 1#32 != 0#32 && e.d then
      let base := ((tv >>> 1) <<< 12) ||| (s.setWidth 32 <<< 5)
      (if writeback then c.busWriteLine base e.b else c).l2Invalidate base
    else c
  (c.setTv s w 0#32).setDLine s w { b := e.b, d := false }

/-- `l1dFlushAll`'s walk: every way of every set. -/
def l1dSlots : List (BitVec 7 × Fin 8) :=
  (List.range 128).flatMap fun s => (List.finRange 8).map fun w => (BitVec.ofNat 7 s, w)

/-- `Cpu::l1dFlushAll`. -/
def l1dFlushAll (c : Cpu β) (writeback : Bool) : Cpu β :=
  (l1dSlots.foldl (l1dFlushWay writeback) c.fetchDrop).l2FlushAll writeback

end Caches

end Cpu

end OpenPowerMac
