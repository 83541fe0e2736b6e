/-
The one-page data translation caches against a control run without them.

Two processors make the same steps, one with `dxlCacheOff`. Their TLBs and their
caches drift apart, because a hit in the one-page cache skips the lookup that
would have renewed an entry and the search that would have moved lines. What
stays equal is the registers, storage, and that both satisfy the invariant under
which a translation is the walk; so the walk, and not the other processor, is
what each of them is compared with (`Alike`).

A one-page cache is sound while its generation stands: any access with the keys
it was filled with walks to the answer it holds and has nothing left to record
(`Filled`). Marking the table keeps that, and everything else that could break it
counts the generation up.
-/
import OpenPowerMac.Exceptions
import OpenPowerMac.TlbRun
import OpenPowerMac.SamePage

set_option autoImplicit false

namespace OpenPowerMac

open Hierarchy

namespace Cpu

/-! ## The source -/

section Source

variable {β : Type}

/-- `h_mtmsr`, with the value of the source register. -/
def mtmsr (c : Cpu β) (v : U32) : Cpu β :=
  let m := v &&& msr.VALID
  let naps := m &&& msr.POW != 0#32 && c.st.hid0 &&& 0x00E00000#32 != 0#32
  { c with
    st := { c.st with msr := m }
    napping := c.napping || naps
    batchBreak := c.batchBreak || naps }

/-- `h_mtsr` and `h_mtsrin`, with the register they select and the value. -/
def mtsr (c : Cpu β) (n : BitVec 4) (v : U32) : Cpu β :=
  { c with st := { c.st with sr := Function.update c.st.sr n v }, batchBreak := true }

/-- `sprPtr` at the registers that move the mapping: SDR1 (25) and the BAT pairs
(528 to 543). -/
def setMapSpr (s : CpuState) (spr : ℕ) (v : U32) : CpuState :=
  let n : BitVec 2 := BitVec.ofNat 2 ((spr - 528) / 2)
  if spr = 25 then { s with sdr1 := v }
  else if spr < 528 ∨ 543 < spr then s
  else if spr < 536 then
    if spr % 2 = 0 then { s with ibatu := Function.update s.ibatu n v }
    else { s with ibatl := Function.update s.ibatl n v }
  else
    if spr % 2 = 0 then { s with dbatu := Function.update s.dbatu n v }
    else { s with dbatl := Function.update s.dbatl n v }

/-- `h_mtspr` at those registers: the generation counts up. -/
def mtsprMap (c : Cpu β) (spr : ℕ) (v : U32) : Cpu β :=
  { c with mmuGen := c.mmuGen + 1#64, batchBreak := true, st := setMapSpr c.st spr v }

end Source

/-- A store of software's: where, how wide, and what. -/
structure Store where
  pa : U32
  len : ℕ
  v : U64

/-- A step of either processor. Stores, and the registers that move the mapping,
carry the `tlbie`s that follow them immediately. -/
inductive DataOp where
  | access (ea : U32) (write : Bool)
  | mtmsr (v : U32)
  | rfi
  | raise (v : Exc) (srr0 extra : U32)
  | mtsr (n : BitVec 4) (v : U32)
  | mtsrr (srr0 srr1 : U32)
  | goto (pc : U32)
  | tlbie (ea : U32)
  | mtspr (spr : ℕ) (v : U32) (eas : List U32)
  | store (l : List Store) (eas : List U32)

/-- The stores of one step. -/
def storeAll (c : Cpu PlainBus) (l : List Store) : Cpu PlainBus :=
  l.foldl (fun c s => c.memWrite s.pa s.len s.v 2#32) c

/-- The `tlbie`s of one step. -/
def tlbieAll (c : Cpu PlainBus) (eas : List U32) : Cpu PlainBus := eas.foldl tlbInvalidateClass c

namespace DataOp

def exec (c : Cpu PlainBus) : DataOp → Cpu PlainBus
  | .access ea write => (c.xlateData ea write).2
  | .mtmsr v => c.mtmsr v
  | .rfi => c.h_rfi
  | .raise v srr0 extra => c.raiseExc v srr0 extra
  | .mtsr n v => c.mtsr n v
  | .mtsrr srr0 srr1 => { c with st := { c.st with srr0 := srr0, srr1 := srr1 } }
  | .goto pc => { c with st := { c.st with pc := pc } }
  | .tlbie ea => c.tlbInvalidateClass ea
  | .mtspr spr v eas => (c.mtsprMap spr v).tlbieAll eas
  | .store l eas => (c.storeAll l).tlbieAll eas

/-- How often the step counts the generation up. -/
def bumps : DataOp → ℕ
  | .tlbie _ => 1
  | .mtspr _ _ eas => eas.length + 1
  | .store _ eas => eas.length
  | _ => 0

end DataOp

def runData (c : Cpu PlainBus) (ops : List DataOp) : Cpu PlainBus := ops.foldl DataOp.exec c

def bumpsOf (ops : List DataOp) : ℕ := (ops.map DataOp.bumps).sum

/-- The pages outside the classes of the `tlbie`s have the entries they had. -/
def Covers (sdr1 : U32) (m : U32 → U8) (sdr1' : U32) (m' : U32 → U8) (eas : List U32) : Prop :=
  ∀ p : Page, (∀ ea ∈ eas, ea.extractLsb' 12 6 ≠ (p.index.setWidth 6 : BitVec 6)) →
    Agrees sdr1 m sdr1' m' p

/-- A step's stores are followed at once by `tlbie`s of the pages whose entries they
change. -/
def StoreCovered (c : Cpu PlainBus) : DataOp → Prop
  | .store l eas => (∀ s ∈ l, AccessLen s.len)
      ∧ Covers c.st.sdr1 c.seen c.st.sdr1 (c.storeAll l).seen eas
  | _ => True

/-- A step's write of SDR1 is followed at once by `tlbie`s of the pages whose entries
it changes. -/
def MapCovered (c : Cpu PlainBus) : DataOp → Prop
  | .mtspr spr v eas => Covers c.st.sdr1 c.seen (setMapSpr c.st spr v).sdr1 c.seen eas
  | _ => True

/-- A property of the steps of a run, each at the state it is made in. -/
def AlongRun (P : Cpu PlainBus → DataOp → Prop) : Cpu PlainBus → List DataOp → Prop
  | _, [] => True
  | c, op :: ops => P c op ∧ AlongRun P (op.exec c) ops

/-! ## What the caches hold -/

/-- The fields of the one-page caches, and what nothing here writes. -/
structure Front where
  gen : U64
  dGen : Bool → U64
  page : Bool → U32
  pa : Bool → U32
  msr : Bool → U32
  sr : Bool → U32
  wimg : Bool → U32
  inhibitBase : U32
  off : Bool
  probe : Bool

def front {β : Type} (c : Cpu β) : Front :=
  ⟨c.mmuGen, c.dxlGen, c.dxlPage, c.dxlPa, c.dxlMsr, c.dxlSr, c.dxlWimg, c.realModeInhibitBase,
    c.dxlCacheOff, c.mmuProbe⟩

theorem SameFront.front {β : Type} {c c' : Cpu β} (h : SameFront c c') : c'.front = c.front := by
  have heq : c' = c.withFront c' := h
  rw [heq]
  rfl

theorem answered_front {β : Type} (c : Cpu β) (a : Answer) (ea cia : U32) (write : Bool) :
    (c.answered a ea cia write).front = c.front := by
  cases a <;> rfl

/-- The cache of one direction, while its generation stands. -/
def Front.Filled (f : Front) (s : CpuState) (m : U32 → U8) (write : Bool) : Prop :=
  f.dGen write = f.gen → ∀ (s' : CpuState) (ea : U32), SameMap s s' → ea >>> 12 = f.page write →
    s'.msr &&& (msr.DR ||| msr.PR ||| msr.LE) = f.msr write →
    s'.sr (ea.extractLsb' 28 4) = f.sr write →
    (walk s' f.inhibitBase m ea write false).answer
        = .ok (f.pa write ||| (ea &&& 0xFFF#32), f.wimg write)
      ∧ (walk s' f.inhibitBase m ea write false).record m = m

/-- The caches: nothing filled is from a generation to come. -/
structure Front.Ok (f : Front) (s : CpuState) (m : U32 → U8) : Prop where
  aligned : f.inhibitBase &&& 0xFFF#32 = 0#32
  past : ∀ write, f.dGen write = 0xFFFFFFFFFFFFFFFF#64 ∨ (f.dGen write).toNat ≤ f.gen.toNat
  filled : ∀ write, f.Filled s m write

/-- The table may gain R and C, and the registers that are compared may move. -/
theorem Front.Ok.agrees {f : Front} {s s' : CpuState} {m m' : U32 → U8} (h : f.Ok s m)
    (hmap : SameMap s s') (hm : ∀ p, Agrees s.sdr1 m s.sdr1 m' p) : f.Ok s' m' := by
  refine ⟨h.aligned, h.past, fun write hgen s'' ea hmap' hpage hmsr hsr => ?_⟩
  have hmap₂ := hmap.trans hmap'
  have hm'' : ∀ p, Agrees s''.sdr1 m s''.sdr1 m' p := by
    rw [hmap₂.sdr1]
    exact hm
  obtain ⟨hanswer, hrecord⟩ := h.filled write hgen s'' ea hmap₂ hpage hmsr hsr
  rw [walk_agrees hm'']
  refine ⟨hanswer, ?_⟩
  have hrec := walk_recorded hm'' hrecord
  rw [walk_agrees hm''] at hrec
  exact hrec

/-- Counting the generation up empties both caches. -/
theorem Front.Ok.bump {f : Front} {s s' : CpuState} {m m' : U32 → U8} (h : f.Ok s m) {n : ℕ}
    (hn : 0 < n) (hroom : f.gen.toNat + n < 2 ^ 64 - 1) :
    ({ f with gen := f.gen + BitVec.ofNat 64 n } : Front).Ok s' m'
      ∧ (f.gen + BitVec.ofNat 64 n).toNat = f.gen.toNat + n := by
  have hnat : (f.gen + BitVec.ofNat 64 n).toNat = f.gen.toNat + n := by
    rw [BitVec.toNat_add, BitVec.toNat_ofNat, Nat.mod_eq_of_lt (show n < 2 ^ 64 by omega),
      Nat.mod_eq_of_lt (by omega)]
  refine ⟨⟨h.aligned, fun write => ?_, fun write hgen => ?_⟩, hnat⟩
  · rcases h.past write with hnew | hold
    · exact Or.inl hnew
    · right
      show (f.dGen write).toNat ≤ (f.gen + BitVec.ofNat 64 n).toNat
      omega
  · -- the filled generation is behind, or was never one
    exfalso
    have hgen' : f.dGen write = f.gen + BitVec.ofNat 64 n := hgen
    have hval := congrArg BitVec.toNat hgen'
    rw [hnat] at hval
    rcases h.past write with hnew | hold
    · rw [hnew] at hval
      have hones : (0xFFFFFFFFFFFFFFFF#64).toNat = 2 ^ 64 - 1 := rfl
      omega
    · omega

/-- The caches after a fill. -/
def Front.fill (f : Front) (s : CpuState) (ea : U32) (write : Bool) (x : Xlated) : Front :=
  { f with
    dGen := Function.update f.dGen write f.gen
    page := Function.update f.page write (ea >>> 12)
    msr := Function.update f.msr write (s.msr &&& (msr.DR ||| msr.PR ||| msr.LE))
    sr := Function.update f.sr write (s.sr (ea.extractLsb' 28 4))
    pa := Function.update f.pa write (x.1 &&& ~~~0xFFF#32)
    wimg := Function.update f.wimg write x.2 }

/-- **A fill** holds what the walk answered, for the whole page. -/
theorem Front.Ok.fill {f : Front} {s : CpuState} {m : U32 → U8} (h : f.Ok s m) {ea : U32}
    {write : Bool} {x : Xlated} (hanswer : (walk s f.inhibitBase m ea write false).answer = .ok x)
    (hrecord : (walk s f.inhibitBase m ea write false).record m = m) : (f.fill s ea write x).Ok s m := by
  refine ⟨h.aligned, fun w => ?_, fun w => ?_⟩
  · by_cases hw : w = write
    · right
      simp only [Front.fill, hw, Function.update_self, le_refl]
    · simp only [Front.fill, Function.update_of_ne hw]
      exact h.past w
  · by_cases hw : w = write
    · rw [hw]
      intro _ s' ea' hmap hpage hmsr hsr
      simp only [Front.fill, Function.update_self] at hpage hmsr hsr ⊢
      obtain ⟨hans, hmark⟩ := walk_page h.aligned hmap ⟨hpage, hmsr, hsr⟩ m write
      constructor
      · rw [hans, hanswer]
        rfl
      · rw [Walked.record_congr hmark]
        exact hrecord
    · have hold := h.filled w
      unfold Front.Filled at hold ⊢
      simp only [Front.fill, Function.update_of_ne hw]
      exact hold

/-! ## The two processors -/

/-- A processor with the caches on and one with them off, making the same steps. -/
structure Alike (c d : Cpu PlainBus) : Prop where
  st : d.st = c.st
  raised : d.raisedThisStep = c.raisedThisStep
  seen : d.seen = c.seen
  okc : XlOk c
  okd : XlOk d
  on : c.front.off = false
  off : d.front.off = true
  base : d.front.inhibitBase = c.front.inhibitBase
  caches : c.front.Ok c.st c.seen

variable {c d : Cpu PlainBus}

/-- A step that writes registers no translation is kept by. -/
structure RegsOnly (c c' : Cpu PlainBus) : Prop where
  same : SameMem c c'
  dir : c'.tlbDir = c.tlbDir
  front : c'.front = c.front
  map : SameMap c.st c'.st

theorem XlOk.regs {c' : Cpu PlainBus} (h : XlOk c) (hr : RegsOnly c c') : XlOk c' := by
  have hprobe : c'.mmuProbe = c.mmuProbe := congrArg Front.probe hr.front
  refine ⟨hr.same.seenOk h.mem, by rw [hprobe, h.probe], ?_⟩
  exact h.tlb.marked hr.dir hr.map.sdr1 (by rw [hr.same.seen]; exact Marked.refl _)

theorem Alike.regs (h : Alike c d) {c' d' : Cpu PlainBus} (hc : RegsOnly c c')
    (hd : RegsOnly d d') (hst : d'.st = c'.st) (hraised : d'.raisedThisStep = c'.raisedThisStep) :
    Alike c' d' where
  st := hst
  raised := hraised
  seen := by rw [hc.same.seen, hd.same.seen, h.seen]
  okc := h.okc.regs hc
  okd := h.okd.regs hd
  on := by rw [hc.front]; exact h.on
  off := by rw [hd.front]; exact h.off
  base := by rw [hc.front, hd.front]; exact h.base
  caches := by
    rw [hc.front, hc.same.seen]
    exact h.caches.agrees hc.map fun p => (Marked.refl _).agrees _ p

/-! ## Invalidations -/

theorem tlbieAll_same (eas : List U32) : ∀ c : Cpu PlainBus, SameMem c (c.tlbieAll eas) := by
  induction eas with
  | nil => exact fun c => ⟨rfl, rfl, rfl, rfl, rfl, rfl, rfl, rfl, rfl⟩
  | cons ea eas ih => exact fun c => (tlbie_same c ea).trans (ih _)

theorem tlbieAll_st (eas : List U32) : ∀ c : Cpu PlainBus, (c.tlbieAll eas).st = c.st
    ∧ (c.tlbieAll eas).raisedThisStep = c.raisedThisStep := by
  induction eas with
  | nil => exact fun c => ⟨rfl, rfl⟩
  | cons ea eas ih => exact fun c => ih (c.tlbInvalidateClass ea)

theorem tlbieAll_front (eas : List U32) : ∀ c : Cpu PlainBus,
    (c.tlbieAll eas).front
      = { c.front with gen := c.front.gen + BitVec.ofNat 64 eas.length } := by
  induction eas with
  | nil =>
      intro c
      show c.front = { c.front with gen := c.front.gen + 0#64 }
      rw [BitVec.add_zero]
  | cons ea eas ih =>
      intro c
      have hrest := ih (c.tlbInvalidateClass ea)
      have hgen : c.front.gen + BitVec.ofNat 64 (eas.length + 1)
          = (c.front.gen + 1#64) + BitVec.ofNat 64 eas.length := by
        rw [Nat.add_comm, BitVec.ofNat_add, ← BitVec.add_assoc]
      rw [List.length_cons, hgen]
      exact hrest

/-- What is left in the TLBs was there, outside the classes invalidated. -/
theorem tlbieAll_dir (eas : List U32) : ∀ (c : Cpu PlainBus) (i : Bool × BitVec 6 × Fin 2) k e,
    (c.tlbieAll eas).tlbDir i = some (k, e) →
      c.tlbDir i = some (k, e) ∧ ∀ ea ∈ eas, ea.extractLsb' 12 6 ≠ i.2.1 := by
  induction eas with
  | nil => exact fun c i k e hi => ⟨hi, fun ea hea => absurd hea (List.not_mem_nil)⟩
  | cons ea eas ih =>
      intro c i k e hi
      obtain ⟨hdir, hclass⟩ := ih (c.tlbInvalidateClass ea) i k e hi
      rw [tlbDir_tlbie] at hdir
      by_cases hs : i.2.1 = ea.extractLsb' 12 6
      · rw [if_pos hs] at hdir
        exact absurd hdir (by simp)
      · rw [if_neg hs] at hdir
        refine ⟨hdir, fun ea' hea' => ?_⟩
        rcases List.mem_cons.mp hea' with rfl | hmem
        · exact fun h => hs h.symm
        · exact hclass ea' hmem

/-- **The mapping may move under the TLBs** when the pages it moves for are
invalidated at once. -/
theorem XlOk.remapped (h : XlOk c) {c' : Cpu PlainBus} (hmem : SeenOk c')
    (hdir : c'.tlbDir = c.tlbDir) (hprobe : c'.mmuProbe = c.mmuProbe) {eas : List U32}
    (hcov : Covers c.st.sdr1 c.seen c'.st.sdr1 c'.seen eas) : XlOk (c'.tlbieAll eas) := by
  have hsame := tlbieAll_same eas c'
  have hprobe' : (c'.tlbieAll eas).mmuProbe = c'.mmuProbe :=
    congrArg Front.probe (tlbieAll_front eas c')
  have hleft : ∀ i k e, (c'.tlbieAll eas).tlbDir i = some (k, e) →
      c.tlbDir i = some (k, e) ∧ ∀ ea ∈ eas, ea.extractLsb' 12 6 ≠ i.2.1 := by
    intro i k e hi
    rw [← hdir]
    exact tlbieAll_dir eas c' i k e hi
  refine ⟨hsame.seenOk hmem, by rw [hprobe', hprobe, h.probe], ?_, ?_, ?_⟩
  · intro i j k v v' hi hj
    exact h.tlb.once i j k v v' (hleft i k v hi).1 (hleft j k v' hj).1
  · intro i k e hi
    exact h.tlb.home i k e (hleft i k e hi).1
  · intro i k e hi
    obtain ⟨hi', hclass⟩ := hleft i k e hi
    obtain ⟨a, hfound, hmirror⟩ := h.tlb.mirrors i k e hi'
    rw [h.tlb.home i k e hi'] at hclass
    have hagree := hcov k.2 hclass
    rw [(tlbieAll_st eas c').1, hsame.seen]
    exact ⟨a, by rw [hagree.found]; exact hfound, hmirror.gains (hagree.gains a hfound)⟩

theorem storeAll_step (l : List Store) : ∀ c : Cpu PlainBus, SeenOk c →
    (∀ s ∈ l, AccessLen s.len) →
    MemStep c (c.storeAll l) (l.foldl (fun m s => storeBytes m s.pa s.len s.v) c.seen) := by
  induction l with
  | nil => exact fun c h _ => MemStep.refl h
  | cons s l ih =>
      intro c h hlen
      have hfirst := memWrite_step h s.pa (hlen s List.mem_cons_self) s.v
        (show 2#32 &&& kWimgW = 0#32 by decide) (by decide)
      have hrest := ih _ hfirst.ok fun s' hs' => hlen s' (List.mem_cons_of_mem s hs')
      rw [hfirst.seen] at hrest
      exact hfirst.trans hrest

/-! ## One access -/

/-- `xlateData`'s fill of one direction. -/
def fillDxl (c' : Cpu PlainBus) (s : CpuState) (ea : U32) (write : Bool) (x : Xlated) :
    Cpu PlainBus :=
  { c' with
    dxlGen := Function.update c'.dxlGen write c'.mmuGen
    dxlPage := Function.update c'.dxlPage write (ea >>> 12)
    dxlMsr := Function.update c'.dxlMsr write (s.msr &&& (msr.DR ||| msr.PR ||| msr.LE))
    dxlSr := Function.update c'.dxlSr write (s.sr (ea.extractLsb' 28 4))
    dxlPa := Function.update c'.dxlPa write (x.1 &&& ~~~0xFFF#32)
    dxlWimg := Function.update c'.dxlWimg write x.2 }

theorem fillDxl_front (c' : Cpu PlainBus) (s : CpuState) (ea : U32) (write : Bool) (x : Xlated) :
    (fillDxl c' s ea write x).front = c'.front.fill s ea write x := rfl

/-- The compared keys match, and the generation stands. -/
def DxlHit (c : Cpu PlainBus) (ea : U32) (write : Bool) : Prop :=
  c.dxlGen write = c.mmuGen ∧ c.dxlPage write = ea >>> 12
    ∧ c.dxlMsr write = c.st.msr &&& (msr.DR ||| msr.PR ||| msr.LE)
    ∧ c.dxlSr write = c.st.sr (ea.extractLsb' 28 4)

theorem xlateData_off (h : c.dxlCacheOff = true) (ea : U32) (write : Bool) :
    c.xlateData ea write = c.translate ea write false := by
  unfold xlateData
  rw [if_pos h]

theorem xlateData_hit (hon : c.dxlCacheOff = false) {ea : U32} {write : Bool}
    (hit : c.DxlHit ea write) :
    c.xlateData ea write = (some (c.dxlPa write ||| (ea &&& 0xFFF#32), c.dxlWimg write), c) := by
  unfold xlateData
  rw [if_neg (by rw [hon]; simp)]
  exact if_pos hit

theorem xlateData_miss (hon : c.dxlCacheOff = false) {ea : U32} {write : Bool}
    (hmiss : ¬ c.DxlHit ea write) :
    c.xlateData ea write = match c.translate ea write false with
      | (none, c') => (none, c')
      | (some x, c') => (some x, fillDxl c' c.st ea write x) := by
  have hkeys : ¬ (c.dxlGen write = c.mmuGen ∧ c.dxlPage write = ea >>> 12
      ∧ c.dxlMsr write = c.st.msr &&& (msr.DR ||| msr.PR ||| msr.LE)
      ∧ c.dxlSr write = c.st.sr (ea.extractLsb' 28 4)) := hmiss
  unfold xlateData
  rw [if_neg (by rw [hon]; simp)]
  simp only
  rw [if_neg hkeys]
  obtain ⟨r, hr⟩ : ∃ r, c.translate ea write false = r := ⟨_, rfl⟩
  obtain ⟨value, c'⟩ := r
  rw [hr]
  cases value with
  | none => rfl
  | some x => rfl

theorem answered_congr (h : d.st = c.st) (hr : d.raisedThisStep = c.raisedThisStep) (a : Answer)
    (ea cia : U32) (write : Bool) :
    (d.answered a ea cia write).st = (c.answered a ea cia write).st
      ∧ (d.answered a ea cia write).raisedThisStep = (c.answered a ea cia write).raisedThisStep := by
  cases a with
  | ok x => exact ⟨h, hr⟩
  | isi bits =>
      refine ⟨?_, rfl⟩
      simp only [answered, raiseExc, h]
  | dsi bits =>
      refine ⟨?_, rfl⟩
      simp only [answered, dsi, raiseExc, h]

theorem SameFront.raised {c c' : Cpu PlainBus} (h : SameFront c c') :
    c'.raisedThisStep = c.raisedThisStep := by
  have heq : c' = c.withFront c' := h
  rw [heq]
  rfl

theorem answered_map (c : Cpu PlainBus) (a : Answer) (ea cia : U32) (write : Bool) :
    SameMap c.st (c.answered a ea cia write).st := by
  cases a <;> exact ⟨rfl, rfl, rfl⟩

/-- The control run's access, in the caches' run's terms. -/
theorem Alike.control (h : Alike c d) (ea : U32) (write : Bool) :
    Answers d ea (accessCia c.st ea false) write
      (walk c.st c.realModeInhibitBase c.seen ea write false) (d.translate ea write false) := by
  have hspec := translate_spec h.okd ea write false
  have hbase : d.realModeInhibitBase = c.realModeInhibitBase := h.base
  rw [h.st, hbase, h.seen] at hspec
  exact hspec

/-- Two processors that have answered alike are alike. -/
theorem Alike.answers (h : Alike c d) {ea cia : U32} {write : Bool}
    (hcaches : c.front.Ok c.st ((walk c.st c.realModeInhibitBase c.seen ea write false).record c.seen))
    {rc rd : Option Xlated × Cpu PlainBus}
    (hc : Answers c ea cia write (walk c.st c.realModeInhibitBase c.seen ea write false) rc)
    (hd : Answers d ea cia write (walk c.st c.realModeInhibitBase c.seen ea write false) rd) :
    rc.1 = rd.1 ∧ Alike rc.2 rd.2 := by
  obtain ⟨w, hw⟩ : ∃ w, walk c.st c.realModeInhibitBase c.seen ea write false = w := ⟨_, rfl⟩
  rw [hw] at hc hd hcaches
  obtain ⟨hst, hraised⟩ := answered_congr h.st h.raised w.answer ea cia write
  have hfc : rc.2.front = c.front := by rw [hc.front.front, answered_front]
  have hfd : rd.2.front = d.front := by rw [hd.front.front, answered_front]
  refine ⟨hc.value.trans hd.value.symm, ?_, ?_, ?_, hc.ok, hd.ok, ?_, ?_, ?_, ?_⟩
  · rw [hd.front.st, hc.front.st, hst]
  · rw [hd.front.raised, hc.front.raised, hraised]
  · rw [hd.seen, hc.seen, h.seen]
  · rw [hfc]; exact h.on
  · rw [hfd]; exact h.off
  · rw [hfc, hfd]; exact h.base
  · rw [hfc, hc.seen, hc.front.st]
    exact hcaches.agrees (answered_map c _ _ _ _) fun p => (Marked.refl _).agrees _ p

/-- **One access** answers alike. -/
theorem Alike.access (h : Alike c d) (ea : U32) (write : Bool) :
    (c.xlateData ea write).1 = (d.xlateData ea write).1
      ∧ Alike (c.xlateData ea write).2 (d.xlateData ea write).2 := by
  have hd := h.control ea write
  rw [xlateData_off h.off]
  obtain ⟨w, hw⟩ : ∃ w, walk c.st c.realModeInhibitBase c.seen ea write false = w := ⟨_, rfl⟩
  by_cases hit : c.DxlHit ea write
  · -- the answer is the walk's, and the walk has nothing to record
    obtain ⟨hgen, hpage, hmsr, hsr⟩ := hit
    obtain ⟨hanswer, hrecord⟩ := h.caches.filled write hgen c.st ea (SameMap.refl _) hpage.symm
      hmsr.symm hsr.symm
    have hc : Answers c ea (accessCia c.st ea false) write
        (walk c.st c.realModeInhibitBase c.seen ea write false)
        (some (c.dxlPa write ||| (ea &&& 0xFFF#32), c.dxlWimg write), c) := by
      have hwalk : (walk c.st c.realModeInhibitBase c.seen ea write false).answer
          = .ok (c.dxlPa write ||| (ea &&& 0xFFF#32), c.dxlWimg write) := hanswer
      refine ⟨?_, ?_, hrecord.symm, h.okc⟩
      · rw [hwalk]
        rfl
      · rw [hwalk]
        exact SameFront.refl c
    rw [xlateData_hit h.on ⟨hgen, hpage, hmsr, hsr⟩]
    refine h.answers ?_ hc hd
    have hrec : (walk c.st c.realModeInhibitBase c.seen ea write false).record c.seen = c.seen :=
      hrecord
    rw [hrec]
    exact h.caches
  · have hc := translate_spec h.okc ea write false
    have hmark := walk_record_marked c.st c.realModeInhibitBase c.seen ea write false
    obtain ⟨hvalue, halike⟩ := h.answers
      (h.caches.agrees (SameMap.refl _) fun p => hmark.agrees _ p) hc hd
    have hfc : (c.translate ea write false).2.front = c.front := by
      rw [hc.front.front, answered_front]
    rw [xlateData_miss h.on hit]
    obtain ⟨r, hr⟩ : ∃ r, c.translate ea write false = r := ⟨_, rfl⟩
    obtain ⟨value, c'⟩ := r
    rw [hr] at hc hvalue halike hfc ⊢
    cases value with
    | none => exact ⟨hvalue, halike⟩
    | some x =>
        -- a success fills the direction's cache
        have hanswer : (walk c.st c.realModeInhibitBase c.seen ea write false).answer = .ok x := by
          have hval := hc.value
          cases hcase : (walk c.st c.realModeInhibitBase c.seen ea write false).answer with
          | ok y =>
              rw [hcase] at hval
              rw [Option.some.inj hval]
          | isi bits =>
              rw [hcase] at hval
              exact absurd hval (by simp [Answer.value])
          | dsi bits =>
              rw [hcase] at hval
              exact absurd hval (by simp [Answer.value])
        have hst : c'.st = c.st := by
          have hfst := hc.front.st
          rw [hanswer] at hfst
          exact hfst
        have hseen : c'.seen = (walk c.st c.realModeInhibitBase c.seen ea write false).record c.seen :=
          hc.seen
        have hsame : SameMem c' (fillDxl c' c.st ea write x) :=
          ⟨rfl, rfl, rfl, rfl, rfl, rfl, rfl, rfl, rfl⟩
        refine ⟨hvalue, halike.st, halike.raised, ?_, ?_, halike.okd, halike.on, halike.off,
          halike.base, ?_⟩
        · rw [halike.seen, hsame.seen]
        · exact ⟨hsame.seenOk halike.okc.mem, halike.okc.probe,
            halike.okc.tlb.marked rfl rfl (by rw [hsame.seen]; exact Marked.refl _)⟩
        · have hbase : c'.front.inhibitBase = c.realModeInhibitBase := by rw [hfc]; rfl
          rw [fillDxl_front, hsame.seen]
          show (c'.front.fill c.st ea write x).Ok c'.st c'.seen
          have hcaches := halike.caches
          simp only at hcaches
          rw [hst] at hcaches ⊢
          refine hcaches.fill ?_ ?_
          · rw [hbase, hseen, walk_marked hmark]
            exact hanswer
          · rw [hbase, hseen, walk_marked hmark, Walked.record_record]

/-! ## One step -/

theorem setMapSpr_same (c : Cpu PlainBus) (spr : ℕ) (v : U32) :
    (setMapSpr c.st spr v).hid0 = c.st.hid0 ∧ (setMapSpr c.st spr v).l2cr = c.st.l2cr := by
  unfold setMapSpr
  simp only
  split
  · exact ⟨rfl, rfl⟩
  · split
    · exact ⟨rfl, rfl⟩
    · split <;> split <;> exact ⟨rfl, rfl⟩

theorem mtsprMap_same (c : Cpu PlainBus) (spr : ℕ) (v : U32) : SameMem c (c.mtsprMap spr v) :=
  ⟨rfl, rfl, rfl, rfl, rfl, rfl, rfl, (setMapSpr_same c spr v).1, (setMapSpr_same c spr v).2⟩

/-- A move of the mapping, and the invalidations behind it. -/
theorem Alike.remapped (h : Alike c d) {c' d' : Cpu PlainBus} (eas : List U32)
    (hokc : XlOk (c'.tlbieAll eas)) (hokd : XlOk (d'.tlbieAll eas)) (hst : d'.st = c'.st)
    (hraised : d'.raisedThisStep = c'.raisedThisStep) (hseen : d'.seen = c'.seen)
    (hfd : d'.front.off = d.front.off ∧ d'.front.inhibitBase = d.front.inhibitBase)
    {k : ℕ} (hfc : c'.front = { c.front with gen := c.front.gen + BitVec.ofNat 64 k })
    (hroom : c.front.gen.toNat + (eas.length + k) < 2 ^ 64 - 1)
    (hstill : eas.length + k = 0 → SameMap c.st c'.st ∧ ∀ p, Agrees c.st.sdr1 c.seen c.st.sdr1 c'.seen p) :
    Alike (c'.tlbieAll eas) (d'.tlbieAll eas)
      ∧ (c'.tlbieAll eas).front.gen.toNat = c.front.gen.toNat + (eas.length + k) := by
  have hfront : (c'.tlbieAll eas).front
      = { c.front with gen := c.front.gen + BitVec.ofNat 64 (eas.length + k) } := by
    rw [tlbieAll_front, hfc]
    simp only [Front.mk.injEq, and_self, and_true]
    rw [BitVec.add_assoc, ← BitVec.ofNat_add, Nat.add_comm]
  have hcaches : (c'.tlbieAll eas).front.Ok (c'.tlbieAll eas).st (c'.tlbieAll eas).seen
      ∧ (c'.tlbieAll eas).front.gen.toNat = c.front.gen.toNat + (eas.length + k) := by
    rw [hfront, (tlbieAll_same eas c').seen, (tlbieAll_st eas c').1]
    rcases Nat.eq_zero_or_pos (eas.length + k) with h0 | hpos
    · obtain ⟨hmap, hagree⟩ := hstill h0
      have hgen : c.front.gen + BitVec.ofNat 64 (eas.length + k) = c.front.gen := by
        rw [h0]
        exact BitVec.add_zero _
      rw [hgen, h0]
      exact ⟨h.caches.agrees hmap hagree, rfl⟩
    · exact h.caches.bump hpos hroom
  refine ⟨⟨?_, ?_, ?_, hokc, hokd, ?_, ?_, ?_, hcaches.1⟩, hcaches.2⟩
  · rw [(tlbieAll_st eas d').1, (tlbieAll_st eas c').1, hst]
  · rw [(tlbieAll_st eas d').2, (tlbieAll_st eas c').2, hraised]
  · rw [(tlbieAll_same eas d').seen, (tlbieAll_same eas c').seen, hseen]
  · rw [hfront]; exact h.on
  · rw [tlbieAll_front]
    exact hfd.1.trans h.off
  · rw [hfront, tlbieAll_front]
    exact hfd.2.trans h.base

/-- Stores, and the invalidations behind them. -/
theorem Alike.stores (h : Alike c d) {l : List Store} {eas : List U32}
    (hcov : StoreCovered c (.store l eas))
    (hroom : c.front.gen.toNat + eas.length < 2 ^ 64 - 1) :
    Alike ((c.storeAll l).tlbieAll eas) ((d.storeAll l).tlbieAll eas)
      ∧ ((c.storeAll l).tlbieAll eas).front.gen.toNat = c.front.gen.toNat + eas.length := by
  obtain ⟨hlen, hcov⟩ := hcov
  have hc := storeAll_step l c h.okc.mem hlen
  have hd := storeAll_step l d h.okd.mem hlen
  have hseen : (d.storeAll l).seen = (c.storeAll l).seen := by rw [hd.seen, hc.seen, h.seen]
  have hokc : XlOk ((c.storeAll l).tlbieAll eas) :=
    h.okc.remapped hc.ok hc.core.tlbDir hc.core.front.mmuProbe (by rw [hc.core.st]; exact hcov)
  have hokd : XlOk ((d.storeAll l).tlbieAll eas) := by
    refine h.okd.remapped hd.ok hd.core.tlbDir hd.core.front.mmuProbe ?_
    rw [hd.core.st, h.st, h.seen, hseen]
    exact hcov
  have hfront : (c.storeAll l).front = { c.front with gen := c.front.gen + BitVec.ofNat 64 0 } := by
    rw [hc.core.front.front]
    show c.front = { c.front with gen := c.front.gen + 0#64 }
    rw [BitVec.add_zero]
  have hfd : (d.storeAll l).front = d.front := hd.core.front.front
  refine h.remapped eas hokc hokd (by rw [hd.core.st, hc.core.st, h.st])
    (by rw [hd.core.front.raised, hc.core.front.raised, h.raised]) hseen
    (by rw [hfd]; exact ⟨rfl, rfl⟩) hfront hroom ?_
  intro h0
  have hnil : eas = [] := List.length_eq_zero_iff.mp h0
  rw [hc.core.st]
  refine ⟨SameMap.refl _, fun p => hcov p ?_⟩
  rw [hnil]
  exact fun ea hea => absurd hea (List.not_mem_nil)

/-- A register that moves the mapping, and the invalidations behind it. -/
theorem Alike.maps (h : Alike c d) {spr : ℕ} {v : U32} {eas : List U32}
    (hcov : MapCovered c (.mtspr spr v eas))
    (hroom : c.front.gen.toNat + (eas.length + 1) < 2 ^ 64 - 1) :
    Alike ((c.mtsprMap spr v).tlbieAll eas) ((d.mtsprMap spr v).tlbieAll eas)
      ∧ ((c.mtsprMap spr v).tlbieAll eas).front.gen.toNat
          = c.front.gen.toNat + (eas.length + 1) := by
  have hc := mtsprMap_same c spr v
  have hd := mtsprMap_same d spr v
  have hst : (d.mtsprMap spr v).st = (c.mtsprMap spr v).st := by
    show setMapSpr d.st spr v = setMapSpr c.st spr v
    rw [h.st]
  have hokc : XlOk ((c.mtsprMap spr v).tlbieAll eas) := by
    refine h.okc.remapped (hc.seenOk h.okc.mem) rfl rfl ?_
    rw [hc.seen]
    exact hcov
  have hokd : XlOk ((d.mtsprMap spr v).tlbieAll eas) := by
    refine h.okd.remapped (hd.seenOk h.okd.mem) rfl rfl ?_
    rw [hd.seen, hst, h.st, h.seen]
    exact hcov
  exact h.remapped eas hokc hokd hst h.raised (by rw [hd.seen, hc.seen, h.seen]) ⟨rfl, rfl⟩ rfl hroom
    fun h0 => absurd h0 (by simp)

theorem raiseExc_regs (c : Cpu PlainBus) (v : Exc) (srr0 extra : U32) :
    RegsOnly c (c.raiseExc v srr0 extra) := ⟨raiseExc_same c v srr0 extra, rfl, rfl, ⟨rfl, rfl, rfl⟩⟩

/-- **One step** of both processors. -/
theorem Alike.step (h : Alike c d) {op : DataOp} (hstore : StoreCovered c op)
    (hmap : MapCovered c op) (hroom : c.front.gen.toNat + op.bumps < 2 ^ 64 - 1) :
    Alike (op.exec c) (op.exec d)
      ∧ (op.exec c).front.gen.toNat = c.front.gen.toNat + op.bumps := by
  -- most instructions write registers alone: no key of the cached translation goes stale
  have hregs : ∀ {c' d' : Cpu PlainBus}, RegsOnly c c' → RegsOnly d d' → d'.st = c'.st →
      d'.raisedThisStep = c'.raisedThisStep →
      Alike c' d' ∧ c'.front.gen.toNat = c.front.gen.toNat := by
    intro c' d' hc hd hst hraised
    exact ⟨h.regs hc hd hst hraised, by rw [hc.front]⟩
  cases op with
  | access ea write =>
      refine ⟨(h.access ea write).2, ?_⟩
      have hgen : ∀ ea write, (c.xlateData ea write).2.front.gen = c.front.gen := by
        intro ea write
        by_cases hit : c.DxlHit ea write
        · rw [xlateData_hit h.on hit]
        · have hfc : (c.translate ea write false).2.front = c.front := by
            rw [(translate_spec h.okc ea write false).front.front, answered_front]
          rw [xlateData_miss h.on hit]
          obtain ⟨r, hr⟩ : ∃ r, c.translate ea write false = r := ⟨_, rfl⟩
          obtain ⟨value, c'⟩ := r
          rw [hr] at hfc ⊢
          cases value with
          | none => exact congrArg Front.gen hfc
          | some x =>
              show c'.front.gen = c.front.gen
              exact congrArg Front.gen hfc
      show (c.xlateData ea write).2.front.gen.toNat = _
      rw [hgen]
      rfl
  | mtmsr v =>
      refine hregs ⟨⟨rfl, rfl, rfl, rfl, rfl, rfl, rfl, rfl, rfl⟩, rfl, rfl, ⟨rfl, rfl, rfl⟩⟩
        ⟨⟨rfl, rfl, rfl, rfl, rfl, rfl, rfl, rfl, rfl⟩, rfl, rfl, ⟨rfl, rfl, rfl⟩⟩ ?_ h.raised
      show { d.st with msr := v &&& msr.VALID } = { c.st with msr := v &&& msr.VALID }
      rw [h.st]
  | rfi =>
      refine hregs ⟨⟨rfl, rfl, rfl, rfl, rfl, rfl, rfl, rfl, rfl⟩, rfl, rfl, ⟨rfl, rfl, rfl⟩⟩
        ⟨⟨rfl, rfl, rfl, rfl, rfl, rfl, rfl, rfl, rfl⟩, rfl, rfl, ⟨rfl, rfl, rfl⟩⟩ ?_ h.raised
      show (d.h_rfi).st = (c.h_rfi).st
      simp only [h_rfi, h.st]
  | raise v srr0 extra =>
      refine hregs (raiseExc_regs c v srr0 extra) (raiseExc_regs d v srr0 extra) ?_ rfl
      show (d.raiseExc v srr0 extra).st = (c.raiseExc v srr0 extra).st
      simp only [raiseExc, h.st]
  | mtsr n v =>
      refine hregs ⟨⟨rfl, rfl, rfl, rfl, rfl, rfl, rfl, rfl, rfl⟩, rfl, rfl, ⟨rfl, rfl, rfl⟩⟩
        ⟨⟨rfl, rfl, rfl, rfl, rfl, rfl, rfl, rfl, rfl⟩, rfl, rfl, ⟨rfl, rfl, rfl⟩⟩ ?_ h.raised
      simp only [DataOp.exec, mtsr, h.st]
  | mtsrr srr0 srr1 =>
      refine hregs ⟨⟨rfl, rfl, rfl, rfl, rfl, rfl, rfl, rfl, rfl⟩, rfl, rfl, ⟨rfl, rfl, rfl⟩⟩
        ⟨⟨rfl, rfl, rfl, rfl, rfl, rfl, rfl, rfl, rfl⟩, rfl, rfl, ⟨rfl, rfl, rfl⟩⟩ ?_ h.raised
      simp only [DataOp.exec, h.st]
  | goto pc =>
      refine hregs ⟨⟨rfl, rfl, rfl, rfl, rfl, rfl, rfl, rfl, rfl⟩, rfl, rfl, ⟨rfl, rfl, rfl⟩⟩
        ⟨⟨rfl, rfl, rfl, rfl, rfl, rfl, rfl, rfl, rfl⟩, rfl, rfl, ⟨rfl, rfl, rfl⟩⟩ ?_ h.raised
      simp only [DataOp.exec, h.st]
  | tlbie ea =>
      refine h.remapped [ea] (k := 0) (h.okc.tlbie ea) (h.okd.tlbie ea) h.st h.raised
        h.seen ⟨rfl, rfl⟩ ?_ hroom fun h0 => absurd h0 (by simp)
      show c.front = { c.front with gen := c.front.gen + 0#64 }
      rw [BitVec.add_zero]
  | mtspr spr v eas => exact h.maps hmap hroom
  | store l eas => exact h.stores hstore hroom

/-- **Every run** of both processors. -/
theorem Alike.run (ops : List DataOp) : ∀ c d : Cpu PlainBus, Alike c d →
    AlongRun StoreCovered c ops → AlongRun MapCovered c ops →
    c.front.gen.toNat + bumpsOf ops < 2 ^ 64 - 1 → Alike (runData c ops) (runData d ops) := by
  induction ops with
  | nil => exact fun c d h _ _ _ => h
  | cons op ops ih =>
      intro c d h hstore hmap hroom
      have hsum : bumpsOf (op :: ops) = op.bumps + bumpsOf ops := rfl
      obtain ⟨hstep, hgen⟩ := h.step hstore.1 hmap.1 (by omega)
      exact ih _ _ hstep hstore.2 hmap.2 (by rw [hgen]; omega)

/-! ## Transparency -/

/-- The processor with the data translation caches switched off. -/
def withoutDxl (c : Cpu PlainBus) : Cpu PlainBus := { c with dxlCacheOff := true }

/-- A processor as it starts, as far as its data translations go. -/
structure ColdStart (c : Cpu PlainBus) : Prop where
  mem : SeenOk c
  probe : c.mmuProbe = false
  flushed : ∀ fetch s w, (c.tlbOf fetch s w).v = false
  cold : ∀ write, c.dxlGen write = 0xFFFFFFFFFFFFFFFF#64
  on : c.dxlCacheOff = false
  aligned : c.realModeInhibitBase &&& 0xFFF#32 = 0#32

/-- An access answers alike: the value, the registers with the exception taken, and
storage with every R and C. -/
structure SameXlate (c d : Cpu PlainBus) (ea : U32) (write : Bool) : Prop where
  value : (c.xlateData ea write).1 = (d.xlateData ea write).1
  st : (c.xlateData ea write).2.st = (d.xlateData ea write).2.st
  raised : (c.xlateData ea write).2.raisedThisStep = (d.xlateData ea write).2.raisedThisStep
  storage : (c.xlateData ea write).2.seen = (d.xlateData ea write).2.seen

theorem ColdStart.alike (h : ColdStart c) (hgen : c.mmuGen.toNat < 2 ^ 64 - 1) :
    Alike c c.withoutDxl := by
  have hok := xlOk_flushed h.mem h.probe h.flushed
  have hsame : SameMem c c.withoutDxl := ⟨rfl, rfl, rfl, rfl, rfl, rfl, rfl, rfl, rfl⟩
  refine ⟨rfl, rfl, hsame.seen, hok, ?_, h.on, rfl, rfl, h.aligned,
    fun write => Or.inl (h.cold write), fun write hstands => ?_⟩
  · exact xlOk_flushed (hsame.seenOk h.mem) h.probe h.flushed
  · -- nothing is filled: the generation is not all ones
    exfalso
    have hstands' : c.dxlGen write = c.mmuGen := hstands
    rw [h.cold] at hstands'
    rw [← hstands'] at hgen
    exact absurd hgen (by decide)

/-- **The data translation caches are transparent**, in every run in which stores to
the table and writes of SDR1 are followed at once by `tlbie`s of the pages whose
entries they change, and the generation count does not run out. -/
theorem dxl_transparent (c : Cpu PlainBus) (hcold : ColdStart c) (ops : List DataOp)
    (hstore : AlongRun StoreCovered c ops) (hmap : AlongRun MapCovered c ops)
    (hroom : c.mmuGen.toNat + bumpsOf ops < 2 ^ 64 - 1) (ea : U32) (write : Bool) :
    SameXlate (runData c ops) (runData c.withoutDxl ops) ea write := by
  have hrun := (hcold.alike (by omega)).run ops c _ hstore hmap hroom
  obtain ⟨hvalue, halike⟩ := hrun.access ea write
  exact ⟨hvalue, halike.st.symm, halike.raised.symm, halike.seen.symm⟩

/-- A table at `0x10000` whose pages 0x40, 0x80 and 0xC0 share a TLB class. -/
def threePtes : U32 → U8 := fun a =>
  if a = 0x11000#32 ∨ a = 0x12000#32 ∨ a = 0x13000#32 then 0x80#8
  else if a = 0x11007#32 ∨ a = 0x12007#32 ∨ a = 0x13007#32 then 0x02#8
  else 0#8

/-- A processor with data translation on over that table. -/
def threePages : Cpu PlainBus :=
  { bus := { mem := threePtes }, st := { msr := 0x00000010#32, sdr1 := 0x00010000#32 } }

theorem threePages_cold : ColdStart threePages where
  mem := fun h => absurd h (by decide)
  probe := rfl
  flushed := fun fetch s w => by cases fetch <;> rfl
  cold := fun _ => rfl
  on := rfl
  aligned := by decide

/-- A load, a store through the same page and the page invalidated, with a change of
the MSR between. -/
def loadThenStore : List DataOp :=
  [.access 0x40000#32 false, .access 0x40004#32 true, .mtmsr 0x4010#32, .tlbie 0x40000#32]

theorem dxl_transparent_threePages :
    SameXlate (runData threePages loadThenStore) (runData threePages.withoutDxl loadThenStore)
      0x40008#32 false :=
  dxl_transparent threePages threePages_cold loadThenStore
    ⟨trivial, trivial, trivial, trivial, trivial⟩ ⟨trivial, trivial, trivial, trivial, trivial⟩
    (by decide) _ _

/-! ## Where they are not -/

theorem runData_tlbies (c : Cpu PlainBus) (ea : U32) (n : ℕ) :
    runData c (List.replicate n (.tlbie ea)) = c.tlbieAll (List.replicate n ea) := by
  unfold runData tlbieAll
  rw [← List.map_replicate, List.foldl_map]
  rfl

/-- After a whole turn of the generation count an empty cache looks filled. -/
theorem wrapped_hit {n : ℕ} (hn : BitVec.ofNat 64 n = 0xFFFFFFFFFFFFFFFF#64) :
    ¬ SameXlate (runData ({ bus := { mem := threePtes } } : Cpu PlainBus)
        (List.replicate n (.tlbie 0#32)))
      (runData (withoutDxl { bus := { mem := threePtes } }) (List.replicate n (.tlbie 0#32)))
      0#32 false := by
  intro h
  obtain ⟨c, hc⟩ : ∃ c, ({ bus := { mem := threePtes } } : Cpu PlainBus) = c := ⟨_, rfl⟩
  have hvalue := h.value
  rw [hc, runData_tlbies, runData_tlbies] at hvalue
  have hst := (tlbieAll_st (List.replicate n 0#32) c).1
  have hfront := tlbieAll_front (List.replicate n 0#32) c
  have hst' := (tlbieAll_st (List.replicate n 0#32) c.withoutDxl).1
  have hfront' := tlbieAll_front (List.replicate n 0#32) c.withoutDxl
  rw [List.length_replicate, hn] at hfront hfront'
  -- no entry was ever filled: the tag it starts with is the generation come round
  have hit : DxlHit (c.tlbieAll (List.replicate n 0#32)) 0#32 false := by
    refine ⟨?_, ?_, ?_, ?_⟩
    · have hd := congrArg (fun f => f.dGen false) hfront
      have hg := congrArg Front.gen hfront
      rw [← hc] at hd hg
      rw [← hc]
      exact hd.trans hg.symm
    · have hp := congrArg (fun f => f.page false) hfront
      rw [← hc] at hp ⊢
      exact hp
    · have hm := congrArg (fun f => f.msr false) hfront
      rw [hst]
      rw [← hc] at hm ⊢
      exact hm
    · have hs := congrArg (fun f => f.sr false) hfront
      rw [hst]
      rw [← hc] at hs ⊢
      exact hs
  have hon : (c.tlbieAll (List.replicate n 0#32)).dxlCacheOff = false := by
    have ho := congrArg Front.off hfront
    rw [← hc] at ho ⊢
    exact ho
  have hoff : (c.withoutDxl.tlbieAll (List.replicate n 0#32)).dxlCacheOff = true :=
    congrArg Front.off hfront'
  have hwimg : (c.tlbieAll (List.replicate n 0#32)).dxlWimg false = 0#32 := by
    have hw := congrArg (fun f => f.wimg false) hfront
    rw [← hc] at hw ⊢
    exact hw
  have hreal : (c.withoutDxl.tlbieAll (List.replicate n 0#32)).translate 0#32 false false
      = (some (0#32, kWimgReal), c.withoutDxl.tlbieAll (List.replicate n 0#32)) := by
    have hbase : (c.withoutDxl.tlbieAll (List.replicate n 0#32)).realModeInhibitBase = 0#32 := by
      have hb := congrArg Front.inhibitBase hfront'
      rw [← hc] at hb ⊢
      exact hb
    have hmsr : (c.withoutDxl.tlbieAll (List.replicate n 0#32)).st.msr = 0x00000040#32 := by
      rw [hst', ← hc]
      rfl
    unfold translate
    rw [hbase, hmsr]
    rfl
  rw [xlateData_hit hon hit, xlateData_off hoff, hreal, hwimg] at hvalue
  have hsnd := congrArg (Option.map Prod.snd) hvalue
  rw [Option.map_some, Option.map_some, Option.some.injEq] at hsnd
  exact absurd hsnd (show ¬ (0#32 = kWimgReal) by decide)

/-- Three pages of one class: a hit in the one-page cache leaves the TLB's order as
it was, so another page is evicted, and with SDR1 moved to an empty table the two
processors disagree about which translation is still remembered. -/
def staleSdr1 : List DataOp :=
  [.access 0x40000#32 false, .access 0x80000#32 true, .access 0x40000#32 false,
    .access 0xC0000#32 false, .mtspr 25 0x00020000#32 []]

theorem dxl_not_transparent :
    ¬ (∀ (c : Cpu PlainBus) (ops : List DataOp), ColdStart c → AlongRun StoreCovered c ops →
        ∀ ea write, SameXlate (runData c ops) (runData c.withoutDxl ops) ea write)
      ∧ ¬ SameXlate (runData { bus := { mem := threePtes } }
            (List.replicate (2 ^ 64 - 1) (.tlbie 0#32)))
          (runData (withoutDxl { bus := { mem := threePtes } })
            (List.replicate (2 ^ 64 - 1) (.tlbie 0#32))) 0#32 false := by
  refine ⟨fun hall => ?_, wrapped_hit (by decide)⟩
  have h := hall threePages staleSdr1 threePages_cold
    ⟨trivial, trivial, trivial, trivial, trivial, trivial⟩ 0x40000#32 false
  have hcached : ((runData threePages staleSdr1).xlateData 0x40000#32 false).1 = none := by
    decide +kernel
  have hcontrol : ((runData threePages.withoutDxl staleSdr1).xlateData 0x40000#32 false).1
      = some (0#32, 0#32) := by
    decide +kernel
  have hvalue := h.value
  rw [hcached, hcontrol] at hvalue
  exact absurd hvalue (by simp)

end Cpu

end OpenPowerMac
