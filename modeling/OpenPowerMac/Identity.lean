/-
Accesses to storage that is mapped to itself.

`Identity` says of a set of doublewords that data there translates to itself, as
ordinary storage and with nothing left to record: real mode, or BATs, or pages
whose R and C are set already. It is kept by every access to those doublewords
that leaves the page table alone, and under it an access is a load or a store of
storage as the processor sees it (`Cpu.seen`), whatever the caches hold.
-/
import OpenPowerMac.Bytes
import OpenPowerMac.ByteOrder
import OpenPowerMac.DataXlate

set_option autoImplicit false

namespace OpenPowerMac

open ByteOrder (Multiple)

/-! ## Doublewords -/

/-- The doubleword an address lies in. -/
def dwOf (a : U32) : U32 := a >>> 3

theorem dwOf_xor (a : U32) {x : ℕ} (hx : x < 8) : dwOf (a ^^^ BitVec.ofNat 32 x) = dwOf a := by
  have hlow : ∀ x < 8, BitVec.ofNat 32 x >>> 3 = 0#32 := by decide
  rw [dwOf, BitVec.ushiftRight_xor_distrib, hlow x hx, BitVec.xor_zero, dwOf]

/-- The bytes of an aligned value lie in one doubleword. -/
theorem dwOf_add {k : ℕ} (hk : k ≤ 3) {a : U32} (ha : Multiple k a) {i : ℕ} (hi : i < 2 ^ k) :
    dwOf (a + BitVec.ofNat 32 i) = dwOf a := by
  have h8 : 2 ^ k ≤ 8 := calc
    2 ^ k ≤ 2 ^ 3 := Nat.pow_le_pow_right (by decide) hk
    _ = 8 := rfl
  rw [ha.add hi, dwOf_xor a (by omega)]

/-- An access length and its alignment check. -/
theorem Cpu.AccessLen.log {n : ℕ} (h : Cpu.AccessLen n) : ∃ k ≤ 3, n = 2 ^ k
    ∧ ∀ ea : U32, ea &&& (BitVec.ofNat 32 n - 1#32) = 0#32 ↔ Multiple k ea := by
  rcases h with rfl | rfl | rfl | rfl
  · exact ⟨0, by decide, rfl, fun _ => Iff.rfl⟩
  · exact ⟨1, by decide, rfl, fun _ => Iff.rfl⟩
  · exact ⟨2, by decide, rfl, fun _ => Iff.rfl⟩
  · exact ⟨3, by decide, rfl, fun _ => Iff.rfl⟩

theorem Cpu.accessLen_pow {k : ℕ} (hk : k ≤ 3) : Cpu.AccessLen (2 ^ k) := by
  have hpow : ∀ k ≤ 3, 2 ^ k = 1 ∨ 2 ^ k = 2 ∨ 2 ^ k = 4 ∨ 2 ^ k = 8 := by decide
  exact hpow k hk

/-- An aligned access stays in its page. -/
theorem Cpu.onePage_aligned {k : ℕ} (hk : k ≤ 3) {ea : U32} (hea : Multiple k ea) :
    Cpu.onePage ea (2 ^ k) = true := by
  have hpow := Nat.two_pow_pos k
  have hlast : ea + BitVec.ofNat 32 (2 ^ k) - 1#32 = ea ^^^ BitVec.ofNat 32 (2 ^ k - 1) := by
    rw [← hea.add (by omega), add_sub_assoc]
    congr 1
    exact BitVec.ofNat_sub_ofNat_of_le _ 1 (by decide) hpow
  have hlow : ∀ k ≤ 3, BitVec.ofNat 32 (2 ^ k - 1) &&& ~~~0xFFF#32 = 0#32 := by decide
  rw [Cpu.onePage, hlast, ← BitVec.xor_assoc, BitVec.xor_self, BitVec.zero_xor, hlow k hk]
  rfl

/-! ## The page table's doublewords -/

/-- No entry of the page table is in the doubleword. -/
def SparesTable (s : CpuState) (k : U32) : Prop :=
  ∀ p, ∀ slot ∈ Cpu.pteSlots, dwOf (pteAddr s.sdr1 p slot) ≠ k

/-- Two storages with the same entries. -/
structure SameTable (s : CpuState) (m m' : U32 → U8) : Prop where
  first : ∀ p, ∀ slot ∈ Cpu.pteSlots,
    wordAt m' (pteAddr s.sdr1 p slot) = wordAt m (pteAddr s.sdr1 p slot)
  second : ∀ p, ∀ slot ∈ Cpu.pteSlots,
    wordAt m' (pteAddr s.sdr1 p slot + 4#32) = wordAt m (pteAddr s.sdr1 p slot + 4#32)

theorem PteAligned.multiple {a : U32} (h : PteAligned a) : Multiple 3 a := by
  unfold PteAligned at h
  apply BitVec.eq_of_toNat_eq
  rw [BitVec.toNat_and]
  show a.toNat &&& (2 ^ 3 - 1) = 0
  rw [Nat.and_two_pow_sub_one_eq_mod]
  exact h

theorem SparesTable.same {s : CpuState} {k : U32} (h : SparesTable s k) {m m' : U32 → U8}
    (hm : ∀ a, dwOf a ≠ k → m' a = m a) : SameTable s m m' := by
  refine ⟨fun p slot hslot => ?_, fun p slot hslot => ?_⟩
  · have ha := (pteAddr_aligned s.sdr1 p slot).multiple
    apply wordAt_congr
    intro j hj
    apply hm
    rw [dwOf_add le_rfl ha (by omega)]
    exact h p slot hslot
  · have ha := (pteAddr_aligned s.sdr1 p slot).multiple
    apply wordAt_congr
    intro j hj
    apply hm
    have hfour : pteAddr s.sdr1 p slot + 4#32 + BitVec.ofNat 32 j
        = pteAddr s.sdr1 p slot + BitVec.ofNat 32 (4 + j) := by
      rw [BitVec.add_assoc, BitVec.ofNat_add]
    rw [hfour, dwOf_add le_rfl ha (by omega)]
    exact h p slot hslot

theorem SameTable.find {s : CpuState} {m m' : U32 → U8} (h : SameTable s m m') (p : Page) :
    findPte s.sdr1 m' p = findPte s.sdr1 m p := by
  have hfind : ∀ l : List (Bool × ℕ), (∀ slot ∈ l, slot ∈ Cpu.pteSlots) →
      (l.find? fun slot => p.names (wordAt m' (pteAddr s.sdr1 p slot)) slot.1)
        = l.find? fun slot => p.names (wordAt m (pteAddr s.sdr1 p slot)) slot.1 := by
    intro l
    induction l with
    | nil => exact fun _ => rfl
    | cons slot l ih =>
        intro hl
        rw [List.find?_cons, List.find?_cons, h.first p slot (hl slot List.mem_cons_self),
          ih fun t ht => hl t (List.mem_cons_of_mem _ ht)]
  rw [findPte, findPte, findPteIn, findPteIn, hfind _ fun _ ht => ht]

/-- The entry found, and its second word. -/
theorem SameTable.word {s : CpuState} {m m' : U32 → U8} (h : SameTable s m m') {p : Page} {a : U32}
    (ha : findPte s.sdr1 m p = some a) : wordAt m' (a + 4#32) = wordAt m (a + 4#32) := by
  rw [findPte, findPteIn, Option.map_eq_some_iff] at ha
  obtain ⟨slot, hslot, rfl⟩ := ha
  exact h.second p slot (List.mem_of_find?_eq_some hslot)

theorem SameTable.walkPage {s : CpuState} {m m' : U32 → U8} (h : SameTable s m m')
    (q : Cpu.PageReq) : walkPage s.sdr1 m' q = walkPage s.sdr1 m q := by
  unfold OpenPowerMac.walkPage
  rw [h.find]
  cases hfound : findPte s.sdr1 m q.page with
  | none => rfl
  | some a => rw [pteWalk, pteWalk, h.word hfound]

/-- A walk with nothing to record still has nothing. -/
theorem SameTable.record {s : CpuState} {m m' : U32 → U8} (h : SameTable s m m') {q : Cpu.PageReq}
    (hrec : (OpenPowerMac.walkPage s.sdr1 m q).record m = m) :
    (OpenPowerMac.walkPage s.sdr1 m' q).record m' = m' := by
  rw [h.walkPage]
  cases hfound : findPte s.sdr1 m q.page with
  | none => rw [OpenPowerMac.walkPage, hfound]; rfl
  | some a =>
      rw [OpenPowerMac.walkPage, hfound] at hrec ⊢
      have hbits := congrArg (fun m => wordAt m (a + 4#32)) hrec
      simp only [pteWalk, Walked.record, wordAt_orWord_self] at hbits ⊢
      apply orWord_of_mem
      rw [h.word hfound, hbits]

namespace Cpu

theorem TlbOk.same {c c' : Cpu PlainBus} (h : TlbOk c) (hdir : c'.tlbDir = c.tlbDir)
    (hst : c'.st = c.st) (hm : SameTable c.st c.seen c'.seen) : TlbOk c' := by
  refine ⟨by rw [hdir]; exact h.once, by rw [hdir]; exact h.home, fun i k e hi => ?_⟩
  rw [hdir] at hi
  obtain ⟨a, hfound, hmirror⟩ := h.mirrors i k e hi
  exact ⟨a, by rw [hst, hm.find]; exact hfound, by rw [hm.word hfound]; exact hmirror⟩

variable {c : Cpu PlainBus} {D : Set U32}

/-! ## Storage that is mapped to itself -/

/-- Ordinary storage: neither write-through nor cache-inhibited. -/
structure Plain (wimg : U32) : Prop where
  w : wimg &&& kWimgW = 0#32
  i : wimg &&& kWimgI = 0#32

/-- What the one-page caches would answer is the identity too. -/
def Front.Serves (f : Front) (s : CpuState) (D : Set U32) : Prop :=
  f.off = false → ∀ a, dwOf a ∈ D → ∀ write, f.dGen write = f.gen → f.page write = a >>> 12 →
    f.msr write = s.msr &&& (msr.DR ||| msr.PR ||| msr.LE) →
    f.sr write = s.sr (a.extractLsb' 28 4) →
    f.pa write ||| (a &&& 0xFFF#32) = a ∧ Plain (f.wimg write)

/-- The walk of a data access. -/
def dataWalk (c : Cpu PlainBus) (m : U32 → U8) (a : U32) (write : Bool) : Walked :=
  walk c.st c.realModeInhibitBase m a write false

/-- Data in the doublewords `D` translates to itself, as ordinary storage; a page of theirs has its
R and C, and no data breakpoint is set on them. The caches and the TLBs hold their invariants. -/
structure Identity (c : Cpu PlainBus) (D : Set U32) : Prop where
  mem : SeenOk c
  walks : ∀ a, dwOf a ∈ D → ∀ write, ∃ wimg, Plain wimg
    ∧ (c.dataWalk c.seen a write).answer = .ok (a, wimg)
  recorded : ∀ a, dwOf a ∈ D → ∀ write, (c.dataWalk c.seen a write).record c.seen = c.seen
  paged : ∀ a, dwOf a ∈ D → ∀ write q,
    toPage c.st c.realModeInhibitBase a write false = .inr q → c.mmuProbe = false ∧ TlbOk c
  served : c.front.Serves c.st D
  unwatched : ∀ a, dwOf a ∈ D → ∀ write, dabrHit c.st a write = false

/-- Some of the doublewords are mapped by pages. -/
def Paged (c : Cpu PlainBus) (D : Set U32) : Prop :=
  ∃ a, dwOf a ∈ D ∧ ∃ write q, toPage c.st c.realModeInhibitBase a write false = .inr q

/-- Real mode maps every address to itself, and what lies below the inhibited part is ordinary
storage. -/
theorem Identity.real (hmem : SeenOk c) (hdr : c.st.msr &&& msr.DR = 0#32)
    (hbelow : ∀ a, dwOf a ∈ D → ¬ (c.realModeInhibitBase ≠ 0#32 ∧ c.realModeInhibitBase ≤ a))
    (hserved : c.front.Serves c.st D)
    (hdabr : ∀ a, dwOf a ∈ D → ∀ write, dabrHit c.st a write = false) :
    Identity c D := by
  have hpage : ∀ a, dwOf a ∈ D → ∀ write,
      toPage c.st c.realModeInhibitBase a write false = .inl (.ok (a, kWimgReal)) := by
    intro a ha write
    rw [toPage, if_pos (by simpa using hdr), if_neg (hbelow a ha)]
  refine ⟨hmem, fun a ha write => ⟨kWimgReal, ⟨by decide, by decide⟩, ?_⟩, fun a ha write => ?_,
    fun a ha write q hq => ?_, hserved, hdabr⟩
  · rw [dataWalk, walk, hpage a ha write]
  · rw [dataWalk, walk, hpage a ha write]
    rfl
  · rw [hpage a ha write] at hq
    exact absurd hq (by simp)

/-- One-page caches that hold their invariant serve it. -/
theorem Front.Ok.serves {f : Front} (h : f.Ok c.st c.seen)
    (hbase : f.inhibitBase = c.realModeInhibitBase)
    (hwalks : ∀ a, dwOf a ∈ D → ∀ write, ∃ wimg, Plain wimg
      ∧ (c.dataWalk c.seen a write).answer = .ok (a, wimg)) : f.Serves c.st D := by
  intro _ a ha write hgen hpage hmsr hsr
  obtain ⟨wimg, hplain, hanswer⟩ := hwalks a ha write
  have hfilled := (h.filled write hgen c.st a (SameMap.refl _) hpage.symm hmsr.symm hsr.symm).1
  rw [hbase] at hfilled
  rw [dataWalk, hfilled, Answer.ok.injEq, Prod.mk.injEq] at hanswer
  exact ⟨hanswer.1, by rw [hanswer.2]; exact hplain⟩

/-- With translation on: the TLBs and the one-page caches hold their invariants, and the walks are
the identity. -/
theorem Identity.mapped (hok : XlOk c) (hfront : c.front.Ok c.st c.seen)
    (hwalks : ∀ a, dwOf a ∈ D → ∀ write, ∃ wimg, Plain wimg
      ∧ (c.dataWalk c.seen a write).answer = .ok (a, wimg))
    (hrec : ∀ a, dwOf a ∈ D → ∀ write, (c.dataWalk c.seen a write).record c.seen = c.seen)
    (hdabr : ∀ a, dwOf a ∈ D → ∀ write, dabrHit c.st a write = false) : Identity c D :=
  ⟨hok.mem, hwalks, hrec, fun _ _ _ _ _ => ⟨hok.probe, hok.tlb⟩, hfront.serves rfl hwalks, hdabr⟩

/-- An access of the doublewords has left storage as `m`, and the mapping as it was. -/
structure Leaves (D : Set U32) (c c' : Cpu PlainBus) (m : U32 → U8) : Prop where
  st : c'.st = c.st
  base : c'.realModeInhibitBase = c.realModeInhibitBase
  seen : c'.seen = m
  identity : Identity c' D

theorem Leaves.trans {c₁ c₂ c₃ : Cpu PlainBus} {m₂ m₃ : U32 → U8} (h₁₂ : Leaves D c₁ c₂ m₂)
    (h₂₃ : Leaves D c₂ c₃ m₃) : Leaves D c₁ c₃ m₃ :=
  ⟨h₂₃.st.trans h₁₂.st, h₂₃.base.trans h₁₂.base, h₂₃.seen, h₂₃.identity⟩

theorem Leaves.paged {c' : Cpu PlainBus} {m : U32 → U8} (h : Leaves D c c' m) :
    Paged c' D = Paged c D := by
  unfold Paged
  rw [h.st, h.base]

/-- What keeps the table and the one-page caches keeps the identity. -/
theorem Identity.leaves (h : Identity c D) {c' : Cpu PlainBus} (hst : c'.st = c.st)
    (hbase : c'.realModeInhibitBase = c.realModeInhibitBase) (hprobe : c'.mmuProbe = c.mmuProbe)
    (hserved : c'.front.Serves c.st D) (hmem : SeenOk c')
    (htlb : Paged c D → SameTable c.st c.seen c'.seen ∧ (TlbOk c → TlbOk c')) :
    Leaves D c c' c'.seen := by
  have hwalk : ∀ a, dwOf a ∈ D → ∀ write,
      c'.dataWalk c'.seen a write = c.dataWalk c.seen a write
        ∧ (c.dataWalk c.seen a write).record c'.seen = c'.seen := by
    intro a ha write
    have hrec := h.recorded a ha write
    rw [dataWalk, dataWalk, hst, hbase]
    unfold walk
    rw [dataWalk, walk] at hrec
    cases hpage : toPage c.st c.realModeInhibitBase a write false with
    | inl ans => exact ⟨rfl, rfl⟩
    | inr q =>
        have hsame := (htlb ⟨a, ha, write, q, hpage⟩).1
        rw [hpage] at hrec
        have hrec' := hsame.record hrec
        rw [hsame.walkPage] at hrec'
        exact ⟨hsame.walkPage q, hrec'⟩
  refine ⟨hst, hbase, rfl, hmem, fun a ha write => ?_, fun a ha write => ?_,
    fun a ha write q hq => ?_, ?_, ?_⟩
  · rw [(hwalk a ha write).1]
    exact h.walks a ha write
  · rw [(hwalk a ha write).1]
    exact (hwalk a ha write).2
  · rw [hst, hbase] at hq
    obtain ⟨hp, ht⟩ := h.paged a ha write q hq
    exact ⟨by rw [hprobe, hp], (htlb ⟨a, ha, write, q, hq⟩).2 ht⟩
  · rw [hst]
    exact hserved
  · rw [hst]
    exact h.unwatched

/-- Outside the one-page caches. -/
theorem Identity.leaves_front (h : Identity c D) {c' : Cpu PlainBus} (hst : c'.st = c.st)
    (hfront : c'.front = c.front) (hmem : SeenOk c')
    (htlb : Paged c D → SameTable c.st c.seen c'.seen ∧ (TlbOk c → TlbOk c')) :
    Leaves D c c' c'.seen := by
  have hserved := h.served
  rw [← hfront] at hserved
  exact h.leaves hst (congrArg Front.inhibitBase hfront) (congrArg Front.probe hfront) hserved hmem
    htlb

theorem SameTable.refl (s : CpuState) (m : U32 → U8) : SameTable s m m :=
  ⟨fun _ _ _ => rfl, fun _ _ _ => rfl⟩

/-! ## Translations -/

/-- A translation answers the address itself. -/
theorem Identity.translate (h : Identity c D) {a : U32} (ha : dwOf a ∈ D) (write : Bool) :
    ∃ wimg c', c.translate a write false = (some (a, wimg), c') ∧ Plain wimg
      ∧ Leaves D c c' c.seen ∧ c'.front = c.front := by
  obtain ⟨wimg, hplain, hanswer⟩ := h.walks a ha write
  have hrec := h.recorded a ha write
  rw [dataWalk, walk] at hanswer hrec
  rw [translate_eq]
  cases hpage : toPage c.st c.realModeInhibitBase a write false with
  | inl ans =>
      -- answered by the registers alone
      rw [hpage] at hanswer
      have hans : ans = .ok (a, wimg) := hanswer
      rw [hans]
      exact ⟨wimg, c, rfl, hplain, ⟨rfl, rfl, rfl, h⟩, rfl⟩
  | inr q =>
      -- by the TLB or the table
      rw [hpage] at hanswer hrec
      obtain ⟨hprobe, htlb⟩ := h.paged a ha write q hpage
      obtain ⟨hea, hcia, hwrite, -⟩ := toPage_request hpage
      have hspec := pageXlate_spec ⟨h.mem, hprobe, htlb⟩ q
      simp only at hanswer hrec
      obtain ⟨r, hr⟩ : ∃ r, c.pageXlate q = r := ⟨_, rfl⟩
      obtain ⟨value, c'⟩ := r
      rw [hr] at hspec
      have hvalue := hspec.value
      have hfront := hspec.front
      have hseen := hspec.seen
      rw [hanswer] at hvalue hfront
      rw [hrec] at hseen
      have hvalue' : value = some (a, wimg) := hvalue
      have hfront' : SameFront c c' := hfront
      have hseen' : c'.seen = c.seen := hseen
      have hleaves := h.leaves_front hfront'.st hfront'.front hspec.ok.mem fun _ =>
        ⟨by rw [hseen']; exact SameTable.refl c.st c.seen, fun _ => hspec.ok.tlb⟩
      rw [hseen'] at hleaves
      simp only [hr, hvalue']
      exact ⟨wimg, c', rfl, hplain, hleaves, hfront'.front⟩

/-- An address is its page and its place in the page. -/
theorem page_or_offset (a : U32) : (a &&& ~~~0xFFF#32) ||| (a &&& 0xFFF#32) = a := by
  rw [← BitVec.and_or_distrib_left, BitVec.or_comm, BitVec.or_not_self]
  exact BitVec.and_allOnes

theorem and_page_congr {a b : U32} (h : a >>> 12 = b >>> 12) :
    a &&& ~~~0xFFF#32 = b &&& ~~~0xFFF#32 := by
  have hpage : ∀ x : U32, x &&& ~~~0xFFF#32 = (x >>> 12) <<< 12 := by
    intro x
    have hmask : ~~~0xFFF#32 = BitVec.allOnes 32 <<< 12 := by decide
    rw [hmask]
    apply BitVec.eq_of_getLsbD_eq
    intro j hj
    rw [BitVec.getLsbD_and, BitVec.getLsbD_shiftLeft, BitVec.getLsbD_shiftLeft,
      BitVec.getLsbD_ushiftRight, BitVec.getLsbD_allOnes]
    by_cases h12 : j < 12
    · simp [h12]
    · have hadd : 12 + (j - 12) = j := by omega
      simp [h12, hadd, hj, show j - 12 < 32 by omega]
  rw [hpage, hpage, h]

/-- A fill with the identity serves the identity. -/
theorem Front.Serves.fill {f : Front} {s : CpuState} (h : f.Serves s D) {a wimg : U32}
    (write : Bool) (hplain : Plain wimg) : (f.fill s a write (a, wimg)).Serves s D := by
  intro hoff b hb d hgen hpage hmsr hsr
  by_cases hd : d = write
  · rw [hd] at hpage ⊢
    simp only [Front.fill, Function.update_self] at hpage ⊢
    rw [and_page_congr hpage]
    exact ⟨page_or_offset b, hplain⟩
  · simp only [Front.fill, Function.update_of_ne hd] at hgen hpage hmsr hsr ⊢
    exact h hoff b hb d hgen hpage hmsr hsr

theorem Identity.xlateData (h : Identity c D) {a : U32} (ha : dwOf a ∈ D) (write : Bool) :
    ∃ wimg c', c.xlateData a write = (some (a, wimg), c') ∧ Plain wimg
      ∧ Leaves D c c' c.seen := by
  obtain ⟨wimg, c', htranslate, hplain, hleaves, hfront⟩ := h.translate ha write
  cases hoff : c.dxlCacheOff with
  | true =>
      rw [xlateData_off hoff]
      exact ⟨wimg, c', htranslate, hplain, hleaves⟩
  | false =>
      by_cases hit : c.DxlHit a write
      · obtain ⟨hgen, hpage, hmsr, hsr⟩ := hit
        obtain ⟨haddr, hplain'⟩ := h.served hoff a ha write hgen hpage hmsr hsr
        rw [xlateData_hit hoff ⟨hgen, hpage, hmsr, hsr⟩]
        have haddr' : c.dxlPa write ||| (a &&& 0xFFF#32) = a := haddr
        exact ⟨c.dxlWimg write, c, by rw [haddr'], hplain', rfl, rfl, rfl, h⟩
      · rw [xlateData_miss hoff hit, htranslate]
        have hsame : SameMem c' (fillDxl c' c.st a write (a, wimg)) :=
          ⟨rfl, rfl, rfl, rfl, rfl, rfl, rfl, rfl, rfl⟩
        have hserved : (fillDxl c' c.st a write (a, wimg)).front.Serves c'.st D := by
          have hold := hleaves.identity.served
          rw [hleaves.st] at hold ⊢
          rw [fillDxl_front]
          exact hold.fill write hplain
        have htable : SameTable c'.st c'.seen (fillDxl c' c.st a write (a, wimg)).seen := by
          rw [hsame.seen]
          exact SameTable.refl _ _
        have hfill : Leaves D c' (fillDxl c' c.st a write (a, wimg)) _ :=
          hleaves.identity.leaves rfl rfl rfl hserved (hsame.seenOk hleaves.identity.mem)
            fun _ => ⟨htable, fun ht => ht.same rfl rfl htable⟩
        rw [hsame.seen, hleaves.seen] at hfill
        exact ⟨wimg, _, rfl, hplain, hleaves.trans hfill⟩

/-! ## Accesses -/

/-- The bytes read fit the access. -/
theorem setWidth_loadBytes (m : U32 → U8) (pa : U32) {n : ℕ} (hn : n ≤ 8) :
    ((loadBytes m pa n).setWidth (8 * n)).setWidth 64 = loadBytes m pa n := by
  have hlt : (loadBytes m pa n).toNat < 2 ^ (8 * n) := by
    have hbytes := ofBytesBE_lt ((List.range n).map fun i => m (pa + BitVec.ofNat 32 i))
      (by simpa using hn)
    rw [List.length_map, List.length_range] at hbytes
    exact hbytes
  apply BitVec.eq_of_toNat_eq
  rw [BitVec.toNat_setWidth, BitVec.toNat_setWidth, Nat.mod_eq_of_lt hlt,
    Nat.mod_eq_of_lt (loadBytes m pa n).isLt]

theorem busRead_value (c : Cpu PlainBus) (pa : U32) {n : ℕ} (hn : AccessLen n) :
    (c.busRead pa n).1 = loadBytes c.bus.mem pa n := by
  rcases hn with rfl | rfl | rfl | rfl
  · exact setWidth_loadBytes c.bus.mem pa (n := 1) (by decide)
  · exact setWidth_loadBytes c.bus.mem pa (n := 2) (by decide)
  · exact setWidth_loadBytes c.bus.mem pa (n := 4) (by decide)
  · rfl

/-- A read of an access length answers the bytes of storage. -/
theorem memRead_step (h : SeenOk c) (a : U32) {n : ℕ} (hn : AccessLen n) {wimg : U32}
    (hplain : Plain wimg) :
    MemStep c (c.memRead a n wimg).2 c.seen ∧ (c.memRead a n wimg).1 = loadBytes c.seen a n := by
  cases hdce : c.dceOn with
  | true =>
      obtain ⟨hquiet, hval⟩ := memRead_spec (h hdce) a n ⟨hdce, hplain.w, hplain.i⟩
      rw [seen_on hdce, hval]
      exact ⟨MemStep.of_on hdce hquiet.core hquiet.ok hquiet.flat, rfl⟩
  | false =>
      have heq : c.memRead a n wimg = c.busRead a n := by
        unfold memRead
        rw [bypasses_eq c hplain.i, hdce, Bool.not_false, if_pos rfl]
      rw [heq, busRead_snd]
      refine ⟨MemStep.refl h, ?_⟩
      rw [seen_off hdce]
      exact busRead_value c a hn

theorem MemStep.leaves (h : Identity c D) {c' : Cpu PlainBus} {m : U32 → U8} (hs : MemStep c c' m)
    (htable : Paged c D → SameTable c.st c.seen m) : Leaves D c c' m := by
  have hleaves := h.leaves_front hs.core.st hs.core.front.front hs.ok fun hpaged => by
    have hsame := htable hpaged
    rw [← hs.seen] at hsame
    exact ⟨hsame, fun ht => ht.same hs.core.tlbDir hs.core.st hsame⟩
  rw [hs.seen] at hleaves
  exact hleaves

/-- A store to a doubleword without entries keeps the table. -/
theorem storeBytes_same {s : CpuState} (m : U32 → U8) {k : ℕ} (hk : k ≤ 3) {a : U32}
    (ha : Multiple k a) (hspared : SparesTable s (dwOf a)) (v : U64) :
    SameTable s m (storeBytes m a (2 ^ k) v) := by
  apply hspared.same
  intro b hb
  apply storeBytes_off
  rintro i hi rfl
  exact hb (dwOf_add hk ha hi)

variable {k : ℕ} {a : U32}

/-- The read behind a translation. -/
theorem Leaves.memRead {c₁ : Cpu PlainBus} (h : Leaves D c c₁ c.seen) (hk : k ≤ 3) (a : U32)
    {wimg : U32} (hplain : Plain wimg) :
    (c₁.memRead a (2 ^ k) wimg).1 = loadBytes c.seen a (2 ^ k)
      ∧ Leaves D c (c₁.memRead a (2 ^ k) wimg).2 c.seen := by
  obtain ⟨hread, hval⟩ := memRead_step h.identity.mem a (accessLen_pow hk) hplain
  rw [h.seen] at hread hval
  refine ⟨hval, h.trans (hread.leaves h.identity fun _ => ?_)⟩
  rw [h.seen]
  exact SameTable.refl _ _

/-- The write behind a translation; if pages are in use, to a doubleword without entries. -/
theorem Leaves.memWrite {c₁ : Cpu PlainBus} (h : Leaves D c c₁ c.seen) (hk : k ≤ 3)
    (halign : Multiple k a) (hspared : Paged c D → SparesTable c.st (dwOf a)) (v : U64) {wimg : U32}
    (hplain : Plain wimg) :
    Leaves D c (c₁.memWrite a (2 ^ k) v wimg) (storeBytes c.seen a (2 ^ k) v) := by
  have hwrite := memWrite_step h.identity.mem a (accessLen_pow hk) v hplain.w hplain.i
  rw [h.seen] at hwrite
  refine h.trans (hwrite.leaves h.identity ?_)
  rw [h.paged, h.st, h.seen]
  exact fun hpaged => storeBytes_same _ hk halign (hspared hpaged) v

/-- A piece of an access is read as storage has it. -/
theorem Identity.readPiece (h : Identity c D) (hk : k ≤ 3) (ha : dwOf a ∈ D) :
    ∃ c', c.readPiece a (2 ^ k) = (some (loadBytes c.seen a (2 ^ k)), c')
      ∧ Leaves D c c' c.seen := by
  obtain ⟨wimg, c₁, htranslate, hplain, hleaves, -⟩ := h.translate ha false
  obtain ⟨hval, hread⟩ := hleaves.memRead hk a hplain
  exact ⟨_, by rw [Cpu.readPiece, htranslate, ← hval], hread⟩

theorem Identity.readVAt (h : Identity c D) (hk : k ≤ 3) (halign : Multiple k a) (ha : dwOf a ∈ D) :
    ∃ c', c.readVAt a (2 ^ k) = (some (loadBytes c.seen a (2 ^ k)), c')
      ∧ Leaves D c c' c.seen := by
  obtain ⟨wimg, c₁, hxlate, hplain, hleaves⟩ := h.xlateData ha false
  obtain ⟨hval, hread⟩ := hleaves.memRead hk a hplain
  exact ⟨_, by rw [Cpu.readVAt, if_pos (onePage_aligned hk halign), hxlate, ← hval], hread⟩

theorem Identity.writePiece (h : Identity c D) (hk : k ≤ 3) (halign : Multiple k a)
    (ha : dwOf a ∈ D) (hspared : Paged c D → SparesTable c.st (dwOf a)) (v : U64) :
    ∃ c', c.writePiece a (2 ^ k) v = (true, c')
      ∧ Leaves D c c' (storeBytes c.seen a (2 ^ k) v) := by
  obtain ⟨wimg, c₁, htranslate, hplain, hleaves, -⟩ := h.translate ha true
  exact ⟨_, by rw [Cpu.writePiece, htranslate], hleaves.memWrite hk halign hspared v hplain⟩

theorem Identity.writeVAt (h : Identity c D) (hk : k ≤ 3) (halign : Multiple k a)
    (ha : dwOf a ∈ D) (hspared : Paged c D → SparesTable c.st (dwOf a)) (v : U64) :
    ∃ c', c.writeVAt a (2 ^ k) v = (true, c')
      ∧ Leaves D c c' (storeBytes c.seen a (2 ^ k) v) := by
  obtain ⟨wimg, c₁, hxlate, hplain, hleaves⟩ := h.xlateData ha true
  exact ⟨_, by rw [Cpu.writeVAt, if_pos (onePage_aligned hk halign), hxlate],
    hleaves.memWrite hk halign hspared v hplain⟩

end Cpu

end OpenPowerMac
