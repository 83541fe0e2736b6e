/-
The page table and what a walk of it means, without a TLB.

A page is a segment and an index in it. Its entry is the first of sixteen slots
(the primary group's eight, then the secondary's) whose first word names the
page; the second word holds the physical page, its attributes, its protection
and the two bits the processor writes itself, R and C. `walk` is the whole
translation as the architecture has it: translation off, then the BATs, then the
segment, then the table, and it says what it answers and which bits it leaves in
which entry.

`Marked` is how the table can differ between two moments when only R and C have
been written: a walk answers the same on both sides of it. That is what lets
anything that remembers an old walk stand in for a new one.
-/
import OpenPowerMac.Storage

set_option autoImplicit false

namespace OpenPowerMac

open Cpu (Aligned PageReq Xlated pteSlots)

/-! ## Entries -/

/-- A page, as the table's entries name it. -/
structure Page where
  vsid : U32
  index : U32
  deriving DecidableEq

/-- The page an access is to. -/
def Cpu.PageReq.page (q : PageReq) : Page := ⟨q.vsid, q.pageIndex⟩

/-- R: the page has been referenced. -/
def kPteR : U32 := 0x00000100#32

/-- C: the page has been changed. -/
def kPteC : U32 := 0x00000080#32

/-- The address of one slot of a page's two groups. -/
def pteAddr (sdr1 : U32) (p : Page) (slot : Bool × ℕ) : U32 :=
  let h := (p.vsid &&& 0x7FFFF#32) ^^^ p.index
  let hash := if slot.1 then ~~~h &&& 0x7FFFF#32 else h
  ((sdr1 &&& 0xFFFF0000#32)
    ||| ((((hash >>> 10) &&& 0x1FF#32) &&& (sdr1 &&& 0x1FF#32)) <<< 16)
    ||| ((hash &&& 0x3FF#32) <<< 6)) + BitVec.ofNat 32 slot.2 * 8#32

/-- An entry's first word names the page. -/
def Page.names (p : Page) (w0 : U32) (secondary : Bool) : Bool :=
  w0 &&& 0x80000000#32 != 0#32 && (w0 >>> 7) &&& 0xFFFFFF#32 == p.vsid
    && (w0 >>> 6) &&& 1#32 == (if secondary then 1#32 else 0#32)
    && w0 &&& 0x3F#32 == p.index >>> 10

/-- A page's entry among the given slots. -/
def findPteIn (sdr1 : U32) (m : U32 → U8) (p : Page) (slots : List (Bool × ℕ)) : Option U32 :=
  (slots.find? fun s => p.names (wordAt m (pteAddr sdr1 p s)) s.1).map (pteAddr sdr1 p)

/-- A page's entry: the address of the first that names it. -/
def findPte (sdr1 : U32) (m : U32 → U8) (p : Page) : Option U32 := findPteIn sdr1 m p pteSlots

/-- Where an entry may be. -/
def PteAligned (a : U32) : Prop := a.toNat % 8 = 0

theorem PteAligned.aligned {a : U32} (h : PteAligned a) : Aligned a := by
  unfold PteAligned at h
  apply BitVec.eq_of_toNat_eq
  rw [BitVec.toNat_and, show (3#32).toNat = 2 ^ 2 - 1 from rfl, Nat.and_two_pow_sub_one_eq_mod]
  show a.toNat % 4 = 0
  omega

theorem PteAligned.toNat_add {a : U32} (h : PteAligned a) : (a + 4#32).toNat = a.toNat + 4 := by
  unfold PteAligned at h
  have := a.isLt
  rw [BitVec.toNat_add, show (4#32).toNat = 4 from rfl]
  omega

theorem PteAligned.second {a : U32} (h : PteAligned a) : Aligned (a + 4#32) := by
  have hnat := h.toNat_add
  unfold PteAligned at h
  apply BitVec.eq_of_toNat_eq
  rw [BitVec.toNat_and, show (3#32).toNat = 2 ^ 2 - 1 from rfl, Nat.and_two_pow_sub_one_eq_mod,
    hnat]
  show (a.toNat + 4) % 4 = 0
  omega

/-- No entry's first word is another's second. -/
theorem PteAligned.ne_second {a b : U32} (ha : PteAligned a) (hb : PteAligned b) :
    b ≠ a + 4#32 := by
  intro h
  have hnat := ha.toNat_add
  rw [← h] at hnat
  unfold PteAligned at ha hb
  omega

theorem pteAddr_aligned (sdr1 : U32) (p : Page) (slot : Bool × ℕ) :
    PteAligned (pteAddr sdr1 p slot) := by
  have hgroup : ∀ x y z : U32,
      ((x &&& 0xFFFF0000#32) ||| (y <<< 16) ||| (z <<< 6)).toNat % 8 = 0 := by
    intro x y z
    have hand : ((x &&& 0xFFFF0000#32) ||| (y <<< 16) ||| (z <<< 6)) &&& 7#32 = 0#32 := by
      apply BitVec.eq_of_getLsbD_eq
      intro i hi
      by_cases hlow : i < 3
      · have hcases : i = 0 ∨ i = 1 ∨ i = 2 := by omega
        rcases hcases with rfl | rfl | rfl <;> simp
      · -- above the third bit the mask is clear
        have hpow : 7 < 2 ^ i := calc
          7 < 2 ^ 3 := by decide
          _ ≤ 2 ^ i := Nat.pow_le_pow_right (by decide) (by omega)
        have hmask : (7#32).getLsbD i = false := by
          rw [BitVec.getLsbD_ofNat, Nat.testBit_lt_two_pow hpow, Bool.and_false]
        simp [hmask]
    have hnat := congrArg BitVec.toNat hand
    rw [BitVec.toNat_and, show (7#32).toNat = 2 ^ 3 - 1 from rfl,
      Nat.and_two_pow_sub_one_eq_mod] at hnat
    exact hnat
  unfold PteAligned pteAddr
  simp only
  rw [BitVec.toNat_add, BitVec.toNat_mul, show (8#32).toNat = 8 from rfl]
  have := hgroup sdr1
  generalize hg : (sdr1 &&& 0xFFFF0000#32 ||| _ ||| _) = g
  have hmod : g.toNat % 8 = 0 := by
    rw [← hg]
    exact this _ _
  omega

theorem findPte_aligned {sdr1 : U32} {m : U32 → U8} {p : Page} {a : U32}
    (h : findPte sdr1 m p = some a) : PteAligned a := by
  unfold findPte findPteIn at h
  rw [Option.map_eq_some_iff] at h
  obtain ⟨s, -, rfl⟩ := h
  exact pteAddr_aligned sdr1 p s

/-! ## What R and C do not change -/

/-- Everything in a second word that the processor does not write. -/
def kPteFixed : U32 := ~~~(kPteR ||| kPteC)

/-- Between two moments a second word may have gained R and C; nothing else about
it differs. -/
structure Gains (w w' : U32) : Prop where
  fixed : w' &&& kPteFixed = w &&& kPteFixed
  kept : w ||| w' = w'

theorem Gains.refl (w : U32) : Gains w w := ⟨rfl, BitVec.or_self⟩

theorem Gains.trans {w₁ w₂ w₃ : U32} (h₁₂ : Gains w₁ w₂) (h₂₃ : Gains w₂ w₃) : Gains w₁ w₃ := by
  refine ⟨h₂₃.fixed.trans h₁₂.fixed, ?_⟩
  rw [← h₂₃.kept, ← BitVec.or_assoc, h₁₂.kept]

theorem gains_or (w : U32) {x : U32} (hx : x &&& kPteFixed = 0#32) : Gains w (w ||| x) := by
  constructor
  · rw [BitVec.and_comm, BitVec.and_or_distrib_left, BitVec.and_comm _ x, hx, BitVec.or_zero,
      BitVec.and_comm]
  · rw [← BitVec.or_assoc, BitVec.or_self]

/-- A field the processor does not write. -/
theorem Gains.field {w w' k : U32} (h : Gains w w') (hk : k &&& kPteFixed = k) :
    w' &&& k = w &&& k := by
  rw [← hk, BitVec.and_comm k, ← BitVec.and_assoc, h.fixed, BitVec.and_assoc]

/-- Bits once recorded stay. -/
theorem Gains.recorded {w w' x : U32} (h : Gains w w') (hx : w ||| x = w) : w' ||| x = w' := by
  calc w' ||| x
      = (w ||| w') ||| x := by rw [h.kept]
    _ = (w ||| x) ||| w' := by
        rw [BitVec.or_assoc, BitVec.or_comm w', BitVec.or_assoc]
    _ = w' := by rw [hx, h.kept]

/-- Between two moments the entries may have gained R and C. -/
structure Marked (m m' : U32 → U8) : Prop where
  first : ∀ a, PteAligned a → wordAt m' a = wordAt m a
  second : ∀ a, PteAligned a → Gains (wordAt m (a + 4#32)) (wordAt m' (a + 4#32))

theorem Marked.refl (m : U32 → U8) : Marked m m := ⟨fun _ _ => rfl, fun _ _ => Gains.refl _⟩

theorem Marked.trans {m₁ m₂ m₃ : U32 → U8} (h₁₂ : Marked m₁ m₂) (h₂₃ : Marked m₂ m₃) :
    Marked m₁ m₃ :=
  ⟨fun a ha => (h₂₃.first a ha).trans (h₁₂.first a ha),
    fun a ha => (h₁₂.second a ha).trans (h₂₃.second a ha)⟩

/-- Recording R or C in an entry. -/
theorem marked_orWord (m : U32 → U8) {a x : U32} (ha : PteAligned a)
    (hx : x &&& kPteFixed = 0#32) : Marked m (orWord m (a + 4#32) x) := by
  refine ⟨fun b hb => wordAt_orWord_ne x ha.second hb.aligned (ha.ne_second hb), fun b hb => ?_⟩
  by_cases hba : b + 4#32 = a + 4#32
  · rw [hba, wordAt_orWord_self]
    exact gains_or _ hx
  · rw [wordAt_orWord_ne x ha.second hb.second hba]
    exact Gains.refl _

theorem findPte_marked {m m' : U32 → U8} (h : Marked m m') (sdr1 : U32) (p : Page) :
    findPte sdr1 m' p = findPte sdr1 m p := by
  have hnames : (fun s : Bool × ℕ => p.names (wordAt m' (pteAddr sdr1 p s)) s.1)
      = fun s => p.names (wordAt m (pteAddr sdr1 p s)) s.1 := by
    funext s
    rw [h.first _ (pteAddr_aligned sdr1 p s)]
  unfold findPte findPteIn
  rw [hnames]

/-! ## The walk -/

/-- What a translation answers: the address and attributes, or the exception. -/
inductive Answer where
  | ok (x : Xlated)
  | isi (bits : U32)
  | dsi (bits : U32)

/-- The value of a translation, if there is one. -/
def Answer.value : Answer → Option Xlated
  | .ok x => some x
  | .isi _ => none
  | .dsi _ => none

/-- A refused access: an ISI for a fetch, a DSI for data. -/
def refuse (fetch : Bool) (isiBits dsiBits : U32) : Answer :=
  if fetch then .isi isiBits else .dsi dsiBits

/-- An answer, and the entry it leaves bits in. -/
structure Walked where
  answer : Answer
  mark : Option (U32 × U32) := none

/-- Storage after the walk. -/
def Walked.record (w : Walked) (m : U32 → U8) : U32 → U8 :=
  match w.mark with
  | none => m
  | some (a, x) => orWord m (a + 4#32) x

/-- A guarded page: an instruction may not be fetched from it. -/
def pteGuarded (w1 : U32) : Bool := w1 &&& (kWimgG <<< 3) != 0#32

/-- The answer of an entry, by its second word. -/
def pteAnswer (w1 : U32) (q : PageReq) : Answer :=
  if q.fetch && pteGuarded w1 then .isi 0x10000000#32
  else if !ppAllows (w1 &&& 3#32) q.key q.write then
    refuse q.fetch 0x08000000#32 0x08000000#32
  else .ok ((w1 &&& 0xFFFFF000#32) ||| (q.ea &&& 0xFFF#32), (w1 >>> 3) &&& 0xF#32)

/-- The bits an access leaves in the entry it finds: R unless it is the fetch of
a guarded page, and C for a permitted store. -/
def pteBits (w1 : U32) (q : PageReq) : U32 :=
  if q.fetch && pteGuarded w1 then 0#32
  else if q.write && ppAllows (w1 &&& 3#32) q.key q.write then kPteR ||| kPteC
  else kPteR

/-- What the search of the table answers, by the entry it found. -/
def pteWalk (m : U32 → U8) (q : PageReq) : Option U32 → Walked
  | none => { answer := refuse q.fetch 0x40000000#32 0x40000000#32 }
  | some a =>
      { answer := pteAnswer (wordAt m (a + 4#32)) q
        mark := some (a, pteBits (wordAt m (a + 4#32)) q) }

/-- The table. -/
def walkPage (sdr1 : U32) (m : U32 → U8) (q : PageReq) : Walked :=
  pteWalk m q (findPte sdr1 m q.page)

/-- A matching BAT. -/
def batAnswer (b : BatHit) (write fetch : Bool) : Answer :=
  if fetch ∧ b.wimg &&& kWimgG ≠ 0#32 then .isi 0x10000000#32
  else if b.pp = 0#32 ∨ (write ∧ b.pp &&& 1#32 ≠ 0#32) then
    refuse fetch 0x08000000#32 0x08000000#32
  else .ok (b.pa, b.wimg)

/-- The address an exception of the access reports. -/
def accessCia (s : CpuState) (ea : U32) (fetch : Bool) : U32 := if fetch then ea else s.pc - 4#32

/-- What comes before the table: translation off, the BATs and the segment answer
by themselves, or the access goes to a page. -/
def toPage (s : CpuState) (inhibitBase ea : U32) (write fetch : Bool) : Answer ⊕ PageReq :=
  if s.msr &&& (if fetch then msr.IR else msr.DR) = 0#32 then
    .inl (.ok (ea, if inhibitBase ≠ 0#32 ∧ inhibitBase ≤ ea then kWimgReal ||| kWimgI else kWimgReal))
  else
    let user := s.msr &&& msr.PR != 0#32
    match if fetch then batLookup s.ibatu s.ibatl ea user else batLookup s.dbatu s.dbatl ea user with
    | some b => .inl (batAnswer b write fetch)
    | none =>
        let sr := s.sr (ea.extractLsb' 28 4)
        if sr &&& 0x80000000#32 ≠ 0#32 then .inl (refuse fetch 0x10000000#32 0x04000000#32)
        else if fetch ∧ sr &&& 0x10000000#32 ≠ 0#32 then .inl (.isi 0x10000000#32)
        else
          .inr
            { ea := ea, cia := accessCia s ea fetch, write := write, fetch := fetch,
              key := sr &&& (if user then 0x20000000#32 else 0x40000000#32) != 0#32,
              vsid := sr &&& 0x00FFFFFF#32, pageIndex := (ea >>> 12) &&& 0xFFFF#32 }

/-- **The architected translation.** -/
def walk (s : CpuState) (inhibitBase : U32) (m : U32 → U8) (ea : U32) (write fetch : Bool) : Walked :=
  match toPage s inhibitBase ea write fetch with
  | .inl answer => { answer := answer }
  | .inr q => walkPage s.sdr1 m q

/-! ## Walks on marked tables -/

theorem wimg_eq_field (w1 : U32) : (w1 >>> 3) &&& 0xF#32 = (w1 &&& 0x78#32) >>> 3 := by
  rw [BitVec.ushiftRight_and_distrib]
  rfl

theorem Gains.guarded {w w' : U32} (h : Gains w w') : pteGuarded w' = pteGuarded w := by
  unfold pteGuarded
  rw [h.field (by decide)]

theorem Gains.pp {w w' : U32} (h : Gains w w') : w' &&& 3#32 = w &&& 3#32 := h.field (by decide)

theorem Gains.wimg {w w' : U32} (h : Gains w w') :
    (w' >>> 3) &&& 0xF#32 = (w >>> 3) &&& 0xF#32 := by
  rw [wimg_eq_field, wimg_eq_field, h.field (by decide)]

theorem Gains.answer {w w' : U32} (h : Gains w w') (q : PageReq) :
    pteAnswer w' q = pteAnswer w q := by
  unfold pteAnswer
  rw [h.guarded, h.pp, h.wimg, h.field (show 0xFFFFF000#32 &&& kPteFixed = 0xFFFFF000#32 by decide)]

theorem Gains.bits {w w' : U32} (h : Gains w w') (q : PageReq) : pteBits w' q = pteBits w q := by
  unfold pteBits
  rw [h.guarded, h.pp]

/-- The table has the same entry for a page, which has at most gained R and C. -/
structure Agrees (sdr1 : U32) (m : U32 → U8) (sdr1' : U32) (m' : U32 → U8) (p : Page) : Prop where
  found : findPte sdr1' m' p = findPte sdr1 m p
  gains : ∀ a, findPte sdr1 m p = some a → Gains (wordAt m (a + 4#32)) (wordAt m' (a + 4#32))

theorem Marked.agrees {m m' : U32 → U8} (h : Marked m m') (sdr1 : U32) (p : Page) :
    Agrees sdr1 m sdr1 m' p :=
  ⟨findPte_marked h sdr1 p, fun a ha => h.second a (findPte_aligned ha)⟩

/-- **A walk does not see R and C.** -/
theorem walk_agrees {m m' : U32 → U8} {s : CpuState} (h : ∀ p, Agrees s.sdr1 m s.sdr1 m' p)
    (inhibitBase ea : U32) (write fetch : Bool) :
    walk s inhibitBase m' ea write fetch = walk s inhibitBase m ea write fetch := by
  unfold walk
  split
  · rfl
  · rename_i q _
    unfold walkPage
    rw [(h q.page).found]
    cases hfound : findPte s.sdr1 m q.page with
    | none => rfl
    | some a =>
        have hgains := (h q.page).gains a hfound
        simp only [pteWalk, hgains.answer, hgains.bits]

theorem walk_marked {m m' : U32 → U8} (h : Marked m m') (s : CpuState) (inhibitBase ea : U32)
    (write fetch : Bool) :
    walk s inhibitBase m' ea write fetch = walk s inhibitBase m ea write fetch :=
  walk_agrees (fun p => h.agrees s.sdr1 p) inhibitBase ea write fetch

/-- A walk marks the entry it found. -/
theorem walk_mark {s : CpuState} {inhibitBase : U32} {m : U32 → U8} {ea : U32} {write fetch : Bool}
    {a x : U32} (h : (walk s inhibitBase m ea write fetch).mark = some (a, x)) :
    ∃ p, findPte s.sdr1 m p = some a := by
  unfold walk at h
  split at h
  · exact absurd h (by simp)
  · rename_i q _
    unfold walkPage at h
    cases hfound : findPte s.sdr1 m q.page with
    | none =>
        rw [hfound] at h
        exact absurd h (by simp [pteWalk])
    | some b =>
        rw [hfound] at h
        simp only [pteWalk, Option.some.injEq, Prod.mk.injEq] at h
        rw [← h.1]
        exact ⟨q.page, hfound⟩

theorem Walked.record_congr {w w' : Walked} (h : w'.mark = w.mark) (m : U32 → U8) :
    w'.record m = w.record m := by
  rw [Walked.record, h, Walked.record]

/-- Recording twice is recording once. -/
theorem Walked.record_record (w : Walked) (m : U32 → U8) :
    w.record (w.record m) = w.record m := by
  unfold Walked.record
  cases w.mark with
  | none => rfl
  | some ax =>
      simp only
      apply orWord_of_mem
      rw [wordAt_orWord_self, BitVec.or_assoc, BitVec.or_self]

/-- A walk that had nothing left to record has nothing to record once the table
has gained some more. -/
theorem walk_recorded {m m' : U32 → U8} {s : CpuState} (h : ∀ p, Agrees s.sdr1 m s.sdr1 m' p)
    {inhibitBase ea : U32} {write fetch : Bool}
    (hrec : (walk s inhibitBase m ea write fetch).record m = m) :
    (walk s inhibitBase m' ea write fetch).record m' = m' := by
  rw [walk_agrees h]
  unfold Walked.record at hrec ⊢
  cases hmark : (walk s inhibitBase m ea write fetch).mark with
  | none => rfl
  | some ax =>
      obtain ⟨a, x⟩ := ax
      obtain ⟨p, hfound⟩ := walk_mark hmark
      rw [hmark] at hrec
      simp only at hrec ⊢
      have hword := congrArg (fun m => wordAt m (a + 4#32)) hrec
      simp only [wordAt_orWord_self] at hword
      exact orWord_of_mem (((h p).gains a hfound).recorded hword)

theorem pteBits_fixed (w1 : U32) (q : PageReq) : pteBits w1 q &&& kPteFixed = 0#32 := by
  unfold pteBits
  split
  · decide
  · split <;> decide

/-- A walk marks. -/
theorem walk_record_marked (s : CpuState) (inhibitBase : U32) (m : U32 → U8) (ea : U32)
    (write fetch : Bool) : Marked m ((walk s inhibitBase m ea write fetch).record m) := by
  unfold walk
  split
  · exact Marked.refl m
  · rename_i q _
    unfold walkPage
    cases hfound : findPte s.sdr1 m q.page with
    | none => exact Marked.refl m
    | some a => exact marked_orWord m (findPte_aligned hfound) (pteBits_fixed _ _)

end OpenPowerMac
