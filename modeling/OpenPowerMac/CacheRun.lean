/-
The caches over a whole run.

`MemOp` is everything that happens to memory behind write-back pages: the
processor's reads, writes and block operations, the harness's flushes, and a
bus master's access inside its snoop bracket. A run of them over the real
caches, started empty, answers exactly what the same run answers over one flat
byte memory with no cache at all (`caches_transparent`): the flat memory is the
caches' view, and each operation moves both the same way.

A master's range has to end by the top of the address space. One that runs over
it wraps for the master but not for `snoopPush`, and the master then reads what
memory held before the caches wrote it back (`wrapped_masterRead_stale`).
-/
import OpenPowerMac.Snoop

set_option autoImplicit false

namespace OpenPowerMac

open Hierarchy

/-! ## Operations -/

/-- One operation on memory. `mg` is the M and G bits of an access whose W and I
are clear; `data i` is the master's `i`-th byte. -/
inductive MemOp where
  | read (pa : U32) (len : ℕ) (mg : BitVec 2)
  | write (pa : U32) (len : ℕ) (v : U64) (mg : BitVec 2)
  | dcbz (pa : U32)
  | dcbClean (pa : U32) (invalidate : Bool)
  | masterRead (pa len : U32)
  | masterWrite (pa len : U32) (data : ℕ → U8)
  | l1dFlush
  | l2Flush

/-- What an operation answers. -/
inductive MemOut where
  | done
  | value (v : U64)
  | bytes (bs : List U8)
  deriving DecidableEq

/-- The bytes a master reads. -/
def masterLoad (m : U32 → U8) (pa len : U32) : List U8 :=
  (List.range len.toNat).map fun i => m (pa + BitVec.ofNat 32 i)

/-- The bytes a master writes. -/
def masterStore (m : U32 → U8) (pa len : U32) (data : ℕ → U8) : U32 → U8 :=
  (List.range len.toNat).foldl (fun m i => Function.update m (pa + BitVec.ofNat 32 i) (data i)) m

namespace MemOp

/-- The master's range ends by the top of the address space. -/
def InRange : MemOp → Prop
  | masterRead pa len => pa.toNat + len.toNat ≤ 2 ^ 32
  | masterWrite pa len _ => pa.toNat + len.toNat ≤ 2 ^ 32
  | _ => True

/-- The operation on the processor. -/
def exec (c : Cpu PlainBus) : MemOp → MemOut × Cpu PlainBus
  | read pa len mg => let r := c.memRead pa len (mg.setWidth 32); (.value r.1, r.2)
  | write pa len v mg => (.done, c.memWrite pa len v (mg.setWidth 32))
  | dcbz pa => (.done, c.dcbzLine pa)
  | dcbClean pa invalidate => (.done, c.dcbClean pa invalidate)
  | masterRead pa len =>
      let c := c.snoopPush pa len false
      (.bytes (masterLoad c.bus.mem pa len), c)
  | masterWrite pa len data =>
      let c := c.snoopPush pa len true
      (.done, c.setBus { c.bus with mem := masterStore c.bus.mem pa len data })
  | l1dFlush => (.done, c.l1dFlushAll true)
  | l2Flush => (.done, c.l2FlushAll true)

/-- The operation on one flat byte memory: what the caches are for. -/
def flatExec (m : U32 → U8) : MemOp → MemOut × (U32 → U8)
  | read pa len _ => (.value (loadBytes m pa len), m)
  | write pa len v _ => (.done, storeBytes m pa len v)
  | dcbz pa => (.done, fun a => if blkOf a = blkOf pa then 0#8 else m a)
  | dcbClean _ _ => (.done, m)
  | masterRead pa len => (.bytes (masterLoad m pa len), m)
  | masterWrite pa len data => (.done, masterStore m pa len data)
  | l1dFlush => (.done, m)
  | l2Flush => (.done, m)

end MemOp

/-- The answers of a run over the caches. -/
def runMem (c : Cpu PlainBus) : List MemOp → List MemOut
  | [] => []
  | op :: ops => (op.exec c).1 :: runMem (op.exec c).2 ops

/-- The answers of a run over a flat memory. -/
def runFlat (m : U32 → U8) : List MemOp → List MemOut
  | [] => []
  | op :: ops => (op.flatExec m).1 :: runFlat (op.flatExec m).2 ops

namespace Cpu

variable {c : Cpu PlainBus}

/-- Both caches hold nothing. -/
structure EmptyCaches (c : Cpu PlainBus) : Prop where
  l1 : ∀ s w, (c.l1x s).tv w = 0#32
  l2 : ∀ i, (c.l2At i).v = false
  l2Size : c.l2.size = c.l2Sets.toNat * 2

theorem EmptyCaches.l1Entry (h : EmptyCaches c) (p : BitVec 7 × Fin 8) : c.l1Entry p = none := by
  unfold Cpu.l1Entry
  rw [h.l1]
  exact wayEntry_zero _ _

theorem EmptyCaches.l2Entry (h : EmptyCaches c) (i : ℕ) : c.l2Entry i = none := by
  unfold Cpu.l2Entry
  rw [h.l2]
  rfl

/-- Empty caches satisfy the invariant, and the view is memory. -/
theorem EmptyCaches.cacheOk (h : EmptyCaches c) : CacheOk c ∧ c.flat = c.bus.mem := by
  have hnear : c.levels.near = fun _ => none := lookup_empty h.l1Entry
  have hfar : c.levels.far = fun _ => none := lookup_empty h.l2Entry
  refine ⟨⟨⟨?_, ?_, h.l2Size, ?_, ?_, fun _ => h.l2⟩, ?_⟩, ?_⟩
  · intro s w
    rw [h.l1]
    decide
  · intro i j k v v' hi
    rw [h.l1Entry] at hi
    exact absurd hi (by simp)
  · intro i hv
    rw [h.l2] at hv
    exact absurd hv (by simp)
  · intro i j k v v' hi
    rw [h.l2Entry] at hi
    exact absurd hi (by simp)
  · exact Levels.coherent_of_empty (fun k => by rw [hnear]) (fun k => by rw [hfar])
  · funext a
    have hview : c.levels.view (blkOf a) = memLine c.bus (blkOf a) := by
      rw [Levels.view_of_none (by rw [hnear]), Levels.below_of_none (by rw [hfar])]
      rfl
    unfold Cpu.flat flatOf
    rw [hview, memLine, byteAddr_blkOf]

/-! ## One operation -/

theorem cached_of_dce (hdce : c.dceOn = true) (mg : BitVec 2) :
    Cached c (mg.setWidth 32) := by
  have hbits : ∀ mg : BitVec 2, (mg.setWidth 32 : U32) &&& kWimgW = 0#32
      ∧ (mg.setWidth 32 : U32) &&& kWimgI = 0#32 := by decide
  exact ⟨hdce, (hbits mg).1, (hbits mg).2⟩

/-- `dcbz` at the level of bytes. -/
theorem Stores.flat_zero {c' : Cpu PlainBus} {pa : U32}
    (h : Stores c c' (blkOf pa) (fun _ => 0#8)) :
    c'.flat = fun a => if blkOf a = blkOf pa then 0#8 else c.flat a := by
  funext a
  unfold Cpu.flat flatOf
  rw [h.view]
  by_cases ha : blkOf a = blkOf pa
  · rw [ha, Function.update_self, if_pos rfl]
  · rw [Function.update_of_ne ha, if_neg ha]

/-- Memory under a settled range is what every read finds. -/
theorem masterLoad_of_settled (hok : CacheOk c) {pa len : U32} {empty : Bool}
    (hs : ∀ i < len.toNat, c.levels.Settled (blkOf (pa + BitVec.ofNat 32 i)) empty) :
    masterLoad c.bus.mem pa len = masterLoad c.flat pa len := by
  unfold masterLoad
  apply List.map_congr_left
  intro i hi
  have hview := (hs i (List.mem_range.mp hi)).view hok.coherent
  have hmem : ∀ a, c.bus.mem a = c.levels.mem (blkOf a) (blockOff a) := by
    intro a
    show c.bus.mem a = memLine c.bus (blkOf a) (blockOff a)
    rw [memLine, byteAddr_blkOf]
  rw [hmem, ← hview]
  rfl

/-- One byte of memory written under a block neither level holds. -/
theorem writes_setByte (hok : CacheOk c) (a : U32) (b : U8)
    (hs : c.levels.Settled (blkOf a) true) :
    Writes c (c.setBus { c.bus with mem := Function.update c.bus.mem a b })
        (Function.update c.flat a b)
      ∧ ∀ k, c.levels.Settled k true →
          (c.setBus { c.bus with mem := Function.update c.bus.mem a b }).levels.Settled k true := by
  obtain ⟨hnear, hfar⟩ := hs.none rfl
  -- a byte address names its block and its offset in it, and both must agree
  have hline : memLine { c.bus with mem := Function.update c.bus.mem a b }
      = Function.update (memLine c.bus) (blkOf a)
          (Function.update (memLine c.bus (blkOf a)) (blockOff a) b) := by
    funext k o
    show Function.update c.bus.mem a b (byteAddr k o) = _
    by_cases hk : k = blkOf a
    · subst hk
      rw [Function.update_self]
      by_cases ho : o = blockOff a
      · rw [ho, byteAddr_blkOf, Function.update_self, Function.update_self]
      · have hne : byteAddr (blkOf a) o ≠ a := by
          intro h
          rw [← h, blockOff_byteAddr] at ho
          exact ho rfl
        rw [Function.update_of_ne hne, Function.update_of_ne ho]
        rfl
    · have hne : byteAddr k o ≠ a := by
        intro h
        rw [← h, blkOf_byteAddr] at hk
        exact hk rfl
      rw [Function.update_of_ne hne, Function.update_of_ne hk]
      rfl
  have hturn := turns_setBus hok.shape { c.bus with mem := Function.update c.bus.mem a b }
  rw [hline] at hturn
  obtain ⟨hcoh, hview⟩ := Levels.writeMem_coherent hok.coherent (blkOf a)
    (Function.update (memLine c.bus (blkOf a)) (blockOff a) b) hnear hfar
  have hlev : (c.setBus { c.bus with mem := Function.update c.bus.mem a b }).levels
      = c.levels.setMem (blkOf a) (Function.update (memLine c.bus (blkOf a)) (blockOff a) b) :=
    hturn.levels
  rw [← hlev] at hcoh hview
  refine ⟨⟨hturn.core, hturn.fetch, ⟨hturn.shape, hcoh⟩, ?_⟩, fun k hk => ?_⟩
  · have hmem : memLine c.bus (blkOf a) = c.levels.view (blkOf a) :=
      (hs.view hok.coherent).symm
    unfold Cpu.flat
    rw [hview, hmem, flatOf_update]
  · rw [hlev]
    exact ⟨hk.near, hk.far, hk.none⟩

theorem setBus_self (c : Cpu PlainBus) : c.setBus { c.bus with mem := c.bus.mem } = c := rfl

/-- The master's bytes, one after another. -/
theorem writes_masterStore (pa : U32) (data : ℕ → U8) (l : List ℕ) :
    ∀ c : Cpu PlainBus, CacheOk c →
      (∀ i ∈ l, c.levels.Settled (blkOf (pa + BitVec.ofNat 32 i)) true) →
      Writes c
        (c.setBus { c.bus with
          mem := l.foldl (fun m i => Function.update m (pa + BitVec.ofNat 32 i) (data i))
            c.bus.mem })
        (l.foldl (fun m i => Function.update m (pa + BitVec.ofNat 32 i) (data i)) c.flat) := by
  induction l with
  | nil =>
      intro c hok _
      rw [List.foldl_nil, List.foldl_nil, setBus_self]
      exact (Quiet.refl hok).writes
  | cons i l ih =>
      intro c hok hs
      obtain ⟨hbyte, hkeep⟩ := writes_setByte hok (pa + BitVec.ofNat 32 i) (data i)
        (hs i List.mem_cons_self)
      have hrest := ih _ hbyte.ok fun j hj => hkeep _ (hs j (List.mem_cons_of_mem i hj))
      rw [hbyte.flat] at hrest
      exact hbyte.trans hrest

/-- **One operation**, over the caches and over the flat memory they stand for:
the same answer, and the flat memory afterwards is again what the caches stand
for. -/
theorem exec_spec (hok : CacheOk c) (hdce : c.dceOn = true) (op : MemOp) (hin : op.InRange) :
    (op.exec c).1 = (op.flatExec c.flat).1
      ∧ Writes c (op.exec c).2 (op.flatExec c.flat).2 := by
  cases op with
  | read pa len mg =>
      obtain ⟨hquiet, hval⟩ := memRead_spec hok pa len (cached_of_dce hdce mg)
      exact ⟨congrArg MemOut.value hval, hquiet.writes⟩
  | write pa len v mg => exact ⟨rfl, memWrite_spec hok pa len v (cached_of_dce hdce mg)⟩
  | dcbz pa =>
      have hstore := dcbzLine_spec hok pa
      exact ⟨rfl, hstore.core, hstore.fetch, hstore.ok, hstore.flat_zero⟩
  | dcbClean pa invalidate => exact ⟨rfl, (dcbClean_spec hok pa invalidate).writes⟩
  | masterRead pa len =>
      obtain ⟨hquiet, hs⟩ := snoopPush_spec hok (Or.inl hdce) hin false
      refine ⟨congrArg MemOut.bytes ?_, hquiet.writes⟩
      rw [masterLoad_of_settled hquiet.ok fun i hi => (hs i hi).1, hquiet.flat]
  | masterWrite pa len data =>
      obtain ⟨hquiet, hs⟩ := snoopPush_spec hok (Or.inl hdce) hin true
      have hstore := writes_masterStore pa data (List.range len.toNat) _ hquiet.ok
        fun i hi => (hs i (List.mem_range.mp hi)).1
      rw [hquiet.flat] at hstore
      exact ⟨rfl, hquiet.writes.trans hstore⟩
  | l1dFlush =>
      have hquiet := l1dFlushAll_spec hok
      have hwrites := hquiet.writes
      rw [MemOp.exec, MemOp.flatExec]
      refine ⟨rfl, ?_⟩
      dsimp only
      exact hwrites
  | l2Flush =>
      rw [MemOp.exec, MemOp.flatExec]
      exact ⟨rfl, (l2FlushAll_spec hok).writes⟩

/-! ## The run -/

theorem runMem_eq_runFlat (ops : List MemOp) : ∀ c : Cpu PlainBus, CacheOk c → c.dceOn = true →
    (∀ op ∈ ops, op.InRange) → runMem c ops = runFlat c.flat ops := by
  induction ops with
  | nil => exact fun _ _ _ _ => rfl
  | cons op ops ih =>
      intro c hok hdce hin
      obtain ⟨hout, hwrites⟩ := exec_spec hok hdce op (hin op List.mem_cons_self)
      have hrest := ih (op.exec c).2 hwrites.ok (by rw [hwrites.core.dceOn]; exact hdce)
        fun op' hop' => hin op' (List.mem_cons_of_mem op hop')
      rw [hwrites.flat] at hrest
      rw [runMem, runFlat, hout, hrest]

/-- **The caches are transparent.** From empty caches, with the data cache on and
the L2 as L2CR has it, a run of operations answers what it answers over the flat
memory. -/
theorem caches_transparent (c : Cpu PlainBus) (hempty : EmptyCaches c) (hdce : c.dceOn = true)
    (ops : List MemOp) (hin : ∀ op ∈ ops, op.InRange) :
    runMem c ops = runFlat c.bus.mem ops := by
  obtain ⟨hok, hflat⟩ := hempty.cacheOk
  rw [runMem_eq_runFlat ops c hok hdce hin, hflat]

/-- A processor with the data cache on and everything else as it comes out of
reset, over memory that is all zero. -/
def zeroed : Cpu PlainBus := { bus := { mem := fun _ => 0#8 }, st := { hid0 := 0x00004000#32 } }

theorem zeroed_empty : EmptyCaches zeroed := ⟨fun _ _ => rfl, fun _ => rfl, rfl⟩

/-- The data cache and an L2 of 256 KB on, memory all zeros. -/
def bothOn : Cpu PlainBus :=
  { bus := { mem := fun _ => 0#8 }, st := { hid0 := 0x00004000#32, l2cr := 0x90000000#32 } }

/-- Three blocks of one set of the L2, stored to and pushed out of the L1. -/
def threePushed : List MemOp :=
  [0#32, 0x20000#32, 0x40000#32].flatMap fun pa =>
    [.write pa 1 0xAA#64 0#2, .dcbClean pa true]

set_option maxRecDepth 100000 in
/-- The third takes the place of the first, which goes to the bus, where a master reads it. -/
theorem caches_transparent_evicted :
    runMem bothOn (threePushed ++ [.masterRead 0#32 1#32, .read 0x20000#32 1 0#2])
        = runFlat (fun _ => 0#8) (threePushed ++ [.masterRead 0#32 1#32, .read 0x20000#32 1 0#2])
      ∧ (threePushed.foldl (fun c op => (op.exec c).2) bothOn).l2Way 0#32 = none
      ∧ (threePushed.foldl (fun c op => (op.exec c).2) bothOn).bus.mem 0#32 = 0xAA#8 := by
  refine ⟨caches_transparent bothOn ⟨fun _ _ => rfl, fun _ => rfl, rfl⟩ (by decide) _ ?_,
    by decide +kernel, by decide +kernel⟩
  intro op hop
  rcases List.mem_append.mp hop with hop | hop
  · obtain ⟨pa, -, hop⟩ := List.mem_flatMap.mp hop
    rcases List.mem_cons.mp hop with rfl | hop
    · exact trivial
    · rw [List.mem_singleton.mp hop]
      exact trivial
  · rcases List.mem_cons.mp hop with rfl | hop
    · exact (by decide : (0#32).toNat + (1#32).toNat ≤ 2 ^ 32)
    · rw [List.mem_singleton.mp hop]
      exact trivial

/-- A range over the top of the address space: the master's second byte is
address zero, whose block is never pushed. -/
theorem wrapped_masterRead_stale :
    ¬ ∀ (c : Cpu PlainBus) (ops : List MemOp), EmptyCaches c → c.dceOn = true →
      runMem c ops = runFlat c.bus.mem ops := by
  intro hall
  have h := hall zeroed [.write 0#32 1 0xAA#64 0#2, .masterRead 0xFFFFFFFF#32 2#32] zeroed_empty
    (by decide)
  revert h
  decide +kernel

end Cpu

end OpenPowerMac
