/-
The processor's data: `CpuState` and `Cpu` of `core/include/opm/cpu.hpp`, and
the physical bus of `core/include/opm/bus.hpp`.

`Cpu` is one record, as in the source: the architected state `st`, the pending
and asynchronous flags, the clock's private remainder, the TLBs, the two cache
levels and the fetch blocks. What is left out is what nothing in the machine
reads back: the harness's counters, logs and watchpoints, and the compiled-line
cache, which is switched off wherever this development runs a batch.

Fixed-size arrays are functions on the exact index type, so an index cannot be
out of range and two states with equal entries are equal. The L2 is the one
array whose size moves (`l2Resize`); it stays an `Array`.
-/
import OpenPowerMac.Word

set_option autoImplicit false

namespace OpenPowerMac

/-- One 32-byte cache block, in guest order. -/
abbrev Line := BitVec 5 → U8

/-! ## The bus -/

/-- `Bus`: the physical-address bus as the processor sees it. A read may change
the bus (a device register), so each access returns the bus it leaves. -/
class Bus (β : Type) where
  read8 : β → U32 → U8 × β
  read16 : β → U32 → U16 × β
  read32 : β → U32 → U32 × β
  read64 : β → U32 → U64 × β
  write8 : β → U32 → U8 → β
  write16 : β → U32 → U16 → β
  write32 : β → U32 → U32 → β
  write64 : β → U32 → U64 → β
  readLine32 : β → U32 → Line × β
  writeLine32 : β → U32 → Line → β
  memoryAt : β → U32 → U32 → Bool

/-- The `len` bytes of a storage from `pa` on, assembled big-endian. -/
def loadBytes (m : U32 → U8) (pa : U32) (len : ℕ) : U64 :=
  ofBytesBE ((List.range len).map fun i => m (pa + BitVec.ofNat 32 i))

/-- The storage with the low `len` bytes of `v` stored from `pa` on, big-endian. -/
def storeBytes (m : U32 → U8) (pa : U32) (len : ℕ) (v : U64) : U32 → U8 :=
  (List.range len).foldl
    (fun m i => Function.update m (pa + BitVec.ofNat 32 i) (byteBE len i v)) m

/-- A bus that is plain byte storage: `mem` is the storage, `isMem` which
ranges it declares to be memory (`Bus::memoryAt`), a question only the
instruction fetch asks. -/
structure PlainBus where
  mem : U32 → U8
  isMem : U32 → U32 → Bool := fun _ _ => true

namespace PlainBus

/-- A read of `len` bytes. -/
def load (b : PlainBus) (pa : U32) (len : ℕ) : U64 := loadBytes b.mem pa len

/-- A write of `len` bytes. -/
def store (b : PlainBus) (pa : U32) (len : ℕ) (v : U64) : PlainBus :=
  { b with mem := storeBytes b.mem pa len v }

/-- A burst read: the 32 bytes of the block. -/
def loadLine (b : PlainBus) (pa : U32) : Line := fun k => b.mem (pa + k.setWidth 32)

/-- A burst write: the 32 bytes of the block, and nothing else. -/
def storeLine (b : PlainBus) (pa : U32) (l : Line) : PlainBus :=
  { b with mem := fun a => if a - pa < 32#32 then l ((a - pa).setWidth 5) else b.mem a }

end PlainBus

instance : Bus PlainBus where
  read8 b pa := ((b.load pa 1).setWidth 8, b)
  read16 b pa := ((b.load pa 2).setWidth 16, b)
  read32 b pa := ((b.load pa 4).setWidth 32, b)
  read64 b pa := (b.load pa 8, b)
  write8 b pa v := b.store pa 1 (v.setWidth 64)
  write16 b pa v := b.store pa 2 (v.setWidth 64)
  write32 b pa v := b.store pa 4 (v.setWidth 64)
  write64 b pa v := b.store pa 8 v
  readLine32 b pa := (b.loadLine pa, b)
  writeLine32 b pa l := b.storeLine pa l
  memoryAt b pa len := b.isMem pa len

/-! ## MSR bits and vectors -/

namespace msr

def VEC : U32 := 0x02000000#32
def POW : U32 := 0x00040000#32
def ILE : U32 := 0x00010000#32
def EE : U32 := 0x00008000#32
def PR : U32 := 0x00004000#32
def FP : U32 := 0x00002000#32
def ME : U32 := 0x00001000#32
def FE0 : U32 := 0x00000800#32
def SE : U32 := 0x00000400#32
def BE : U32 := 0x00000200#32
def FE1 : U32 := 0x00000100#32
def IP : U32 := 0x00000040#32
def IR : U32 := 0x00000020#32
def DR : U32 := 0x00000010#32
def PM : U32 := 0x00000004#32
def RI : U32 := 0x00000002#32
def LE : U32 := 0x00000001#32
/-- The bits the processor implements: the `mtmsr` and `rfi` mask. -/
def VALID : U32 :=
  VEC ||| POW ||| ILE ||| EE ||| PR ||| FP ||| ME ||| FE0 ||| SE ||| BE ||| FE1 |||
    IP ||| IR ||| DR ||| PM ||| RI ||| LE

end msr

/-- `Exc`: the exception vectors. -/
inductive Exc where
  | SystemReset | MachineCheck | Dsi | Isi | External | Alignment | Program
  | FpUnavailable | Decrementer | SystemCall | Trace | PerfMon | VecUnavailable
  | Iabr | Smi | VecAssist | Thermal
  deriving DecidableEq, Repr

/-- The vector's offset from the exception base. -/
def Exc.vector : Exc → U32
  | SystemReset => 0x00100#32
  | MachineCheck => 0x00200#32
  | Dsi => 0x00300#32
  | Isi => 0x00400#32
  | External => 0x00500#32
  | Alignment => 0x00600#32
  | Program => 0x00700#32
  | FpUnavailable => 0x00800#32
  | Decrementer => 0x00900#32
  | SystemCall => 0x00C00#32
  | Trace => 0x00D00#32
  | PerfMon => 0x00F00#32
  | VecUnavailable => 0x00F20#32
  | Iabr => 0x01300#32
  | Smi => 0x01400#32
  | VecAssist => 0x01600#32
  | Thermal => 0x01700#32

def kSrr1ProgFpEnabled : U32 := 0x00100000#32
def kSrr1ProgIllegal : U32 := 0x00080000#32
def kSrr1ProgPrivileged : U32 := 0x00040000#32
def kSrr1ProgTrap : U32 := 0x00020000#32

/-! ## The processor -/

/-- `CpuState`: the architected registers, with their hard-reset values. -/
structure CpuState where
  gpr : BitVec 5 → U32 := fun _ => 0#32
  fpr : BitVec 5 → U64 := fun _ => 0#64
  vr : BitVec 5 → BitVec 4 → U8 := fun _ _ => 0#8
  pc : U32 := 0xFFF00100#32
  cr : U32 := 0#32
  xer : U32 := 0#32
  lr : U32 := 0#32
  ctr : U32 := 0#32
  msr : U32 := 0x00000040#32
  fpscr : U32 := 0#32
  vscr : U32 := 0#32
  vrsave : U32 := 0#32
  srr0 : U32 := 0#32
  srr1 : U32 := 0#32
  sprg : BitVec 2 → U32 := fun _ => 0#32
  dar : U32 := 0#32
  dsisr : U32 := 0#32
  sdr1 : U32 := 0#32
  ear : U32 := 0#32
  pir : U32 := 0#32
  sr : BitVec 4 → U32 := fun _ => 0#32
  ibatu : BitVec 2 → U32 := fun _ => 0#32
  ibatl : BitVec 2 → U32 := fun _ => 0#32
  dbatu : BitVec 2 → U32 := fun _ => 0#32
  dbatl : BitVec 2 → U32 := fun _ => 0#32
  hid0 : U32 := 0#32
  hid1 : U32 := 0#32
  msscr0 : U32 := 0x00400000#32
  msscr1 : U32 := 0#32
  l2cr : U32 := 0#32
  ictc : U32 := 0#32
  thrm : Fin 3 → U32 := fun _ => 0#32
  iabr : U32 := 0#32
  dabr : U32 := 0#32
  bamr : U32 := 0#32
  mmcr0 : U32 := 0#32
  mmcr1 : U32 := 0#32
  pmc : BitVec 2 → U32 := fun _ => 0#32
  siar : U32 := 0#32
  sdar : U32 := 0#32
  tb : U64 := 0#64
  dec : U32 := 0xFFFFFFFF#32
  pvr : U32 := 0x000C0209#32
  resvValid : Bool := false
  resvAddr : U32 := 0#32

/-- `TlbEntry`: one cached page-table entry. -/
structure TlbEntry where
  v : Bool := false
  c : Bool := false
  vsid : U32 := 0#32
  pi : U32 := 0#32
  rpn : U32 := 0#32
  wimg : U32 := 0#32
  pp : U32 := 0#32

/-- `DLine`: an L1 block's bytes and dirty bit. -/
structure DLine where
  b : Line := fun _ => 0#8
  d : Bool := false

/-- `DIdx`: one L1 set's lookup state. `tv` is the tag shifted left with the
valid bit below it. -/
structure DIdx where
  tv : Fin 8 → U32 := fun _ => 0#32
  age : Fin 8 → U32 := fun _ => 0#32

/-- `L2Line`: an L2 line; the tag is the whole line number `pa >> 5`. -/
structure L2Line where
  v : Bool := false
  d : Bool := false
  tag : U32 := 0#32
  age : U32 := 0#32
  b : Line := fun _ => 0#8

instance : Inhabited L2Line := ⟨{}⟩

/-- The row index that means "decodes to nothing". -/
def kNoRow : U16 := 0xFFFF#16

/-- `FetchLine`: one resident instruction block, its words and their decode.
Base `1` is no block's base, so it marks the slot empty. -/
structure FetchLine where
  base : U32 := 1#32
  row : BitVec 3 → U16 := fun _ => kNoRow
  w : BitVec 3 → U32 := fun _ => 0#32

/-- `Cpu`. -/
structure Cpu (β : Type) where
  st : CpuState := {}
  bus : β
  extIrqLine : Bool := false
  smiPending : Bool := false
  decPending : Bool := false
  pmPending : Bool := false
  raisedThisStep : Bool := false
  napping : Bool := false
  curInsn : U32 := 0#32
  cycleAccum : U32 := 0#32
  cyclesPerTbTick : U32 := 4#32
  extraCycles : U32 := 0#32
  insnCycles : U32 := 1#32
  pendCycles : U64 := 0#64
  batching : Bool := false
  batchBreak : Bool := false
  halted : Bool := false
  haltReason : String := ""
  itlb : BitVec 6 → Fin 2 → TlbEntry := fun _ _ => {}
  dtlb : BitVec 6 → Fin 2 → TlbEntry := fun _ _ => {}
  itlbLru : BitVec 6 → Fin 2 := fun _ => 0
  dtlbLru : BitVec 6 → Fin 2 := fun _ => 0
  mmuProbe : Bool := false
  realModeInhibitBase : U32 := 0#32
  l1x : BitVec 7 → DIdx := fun _ => {}
  l1d : BitVec 7 → Fin 8 → DLine := fun _ _ => {}
  l1dClock : U32 := 0#32
  fetchLine : BitVec 12 → FetchLine := fun _ => {}
  mmuGen : U64 := 0#64
  xlGen : U64 := 0xFFFFFFFFFFFFFFFF#64
  xlPage : U32 := 0#32
  xlPa : U32 := 0#32
  xlMsr : U32 := 0#32
  xlSr : U32 := 0#32
  dxlGen : Bool → U64 := fun _ => 0xFFFFFFFFFFFFFFFF#64
  dxlPage : Bool → U32 := fun _ => 0#32
  dxlPa : Bool → U32 := fun _ => 0#32
  dxlMsr : Bool → U32 := fun _ => 0#32
  dxlSr : Bool → U32 := fun _ => 0#32
  dxlWimg : Bool → U32 := fun _ => 0#32
  fetchCacheOff : Bool := false
  dxlCacheOff : Bool := false
  napSkipped : U64 := 0#64
  lineExecOff : Bool := false
  l2 : Array L2Line := #[]
  l2Sets : U32 := 0#32
  l2Clock : U32 := 0#32
  l2Inert : Bool := false

namespace Cpu

variable {β : Type}

/-- `Cpu::userMode`. -/
def userMode (c : Cpu β) : Bool := c.st.msr &&& msr.PR != 0#32

/-- `Cpu::dceOn`: HID0[DCE]. -/
def dceOn (c : Cpu β) : Bool := c.st.hid0 &&& 0x00004000#32 != 0#32

/-- `Cpu::l2On`: L2CR[L2E]. -/
def l2On (c : Cpu β) : Bool := c.st.l2cr &&& 0x80000000#32 != 0#32

/-- `Cpu::raiseExc`: SRR0/SRR1, the MSR transition and the vector. The source
also files the exception in a ring that only a diagnostic reads. -/
def raiseExc (c : Cpu β) (v : Exc) (srr0 extra : U32) : Cpu β :=
  let m0 := c.st.msr &&& (msr.ME ||| msr.IP ||| msr.ILE)
  let m1 := if c.st.msr &&& msr.ILE ≠ 0#32 then m0 ||| msr.LE else m0
  let m := if v = Exc.MachineCheck then m1 &&& ~~~msr.ME else m1
  let base : U32 := if m &&& msr.IP ≠ 0#32 then 0xFFF00000#32 else 0#32
  { c with
    raisedThisStep := true
    st := { c.st with
      srr0 := srr0
      srr1 := (c.st.msr &&& 0x87C0FFFF#32) ||| (extra &&& 0x783F0000#32)
      msr := m
      pc := base ||| v.vector } }

/-- `Cpu::halt`. -/
def halt (c : Cpu β) (reason : String) : Cpu β :=
  { c with halted := true, haltReason := reason }

end Cpu

end OpenPowerMac
