/-
One page, one answer.

A translation looks at the upper twenty bits of the address, at three bits of the
MSR and at the segment register the address selects; the offset goes through
untouched. So an answer obtained once holds for the whole page, as long as those
inputs, the BATs and the table are the same. This is what `xlateData` keeps: the
inputs that are cheap to compare it compares, and the rest it leaves to a
generation count.
-/
import OpenPowerMac.PageTable

set_option autoImplicit false

namespace OpenPowerMac

open Cpu (PageReq Xlated)

/-! ## Offsets -/

/-- The address `ea` in the page frame of `pa`. -/
def inFrame (pa ea : U32) : U32 := (pa &&& ~~~0xFFF#32) ||| (ea &&& 0xFFF#32)

theorem low12_bit {i : ℕ} (hi : i < 32) : (0xFFF#32).getLsbD i = decide (i < 12) := by
  have hall : ∀ i < 32, (0xFFF#32).getLsbD i = decide (i < 12) := by decide
  exact hall i hi

theorem low17_bit {i : ℕ} (hi : i < 32) : (0x1FFFF#32).getLsbD i = decide (i < 17) := by
  have hall : ∀ i < 32, (0x1FFFF#32).getLsbD i = decide (i < 17) := by decide
  exact hall i hi

theorem frame_bit {i : ℕ} (hi : i < 32) : (0xFFFFF000#32).getLsbD i = decide (12 ≤ i) := by
  have hall : ∀ i < 32, (0xFFFFF000#32).getLsbD i = decide (12 ≤ i) := by decide
  exact hall i hi

variable {ea ea' : U32}

/-- Two addresses of one page agree above the offset. -/
theorem page_bit (h : ea' >>> 12 = ea >>> 12) {i : ℕ} (hi : 12 ≤ i) :
    ea'.getLsbD i = ea.getLsbD i := by
  have hbit := congrArg (fun v : U32 => v.getLsbD (i - 12)) h
  simp only [BitVec.getLsbD_ushiftRight] at hbit
  rw [Nat.add_sub_cancel' hi] at hbit
  exact hbit

theorem inFrame_page (h : ea' >>> 12 = ea >>> 12) : inFrame ea ea' = ea' := by
  apply BitVec.eq_of_getLsbD_eq
  intro i hi
  simp only [inFrame, BitVec.getLsbD_or, BitVec.getLsbD_and, BitVec.getLsbD_not, low12_bit hi, hi,
    decide_true, Bool.true_and]
  by_cases hlow : i < 12
  · simp [hlow]
  · simp [hlow, page_bit h (Nat.le_of_not_lt hlow)]

theorem inFrame_block (h : ea' >>> 12 = ea >>> 12) (x : U32) :
    inFrame ((x <<< 17) ||| (ea &&& 0x1FFFF#32)) ea' = (x <<< 17) ||| (ea' &&& 0x1FFFF#32) := by
  apply BitVec.eq_of_getLsbD_eq
  intro i hi
  simp only [inFrame, BitVec.getLsbD_or, BitVec.getLsbD_and, BitVec.getLsbD_not,
    BitVec.getLsbD_shiftLeft, low12_bit hi, low17_bit hi, hi, decide_true, Bool.true_and]
  by_cases hlow : i < 12
  · have h17 : i < 17 := by omega
    simp [hlow, h17]
  · simp [hlow, page_bit h (Nat.le_of_not_lt hlow)]

theorem inFrame_entry (w1 ea ea' : U32) :
    inFrame ((w1 &&& 0xFFFFF000#32) ||| (ea &&& 0xFFF#32)) ea'
      = (w1 &&& 0xFFFFF000#32) ||| (ea' &&& 0xFFF#32) := by
  apply BitVec.eq_of_getLsbD_eq
  intro i hi
  simp only [inFrame, BitVec.getLsbD_or, BitVec.getLsbD_and, BitVec.getLsbD_not, low12_bit hi,
    frame_bit hi, hi, decide_true, Bool.true_and]
  by_cases hlow : i < 12
  · have hge : ¬ 12 ≤ i := by omega
    simp [hlow, hge]
  · simp [hlow]

theorem page_block (h : ea' >>> 12 = ea >>> 12) : ea' >>> 17 = ea >>> 17 := by
  have hsplit : ∀ v : U32, v >>> 17 = (v >>> 12) >>> 5 := by
    intro v
    rw [← BitVec.shiftRight_add]
  rw [hsplit, hsplit ea, h]

/-- A bound on a page boundary does not split a page. -/
theorem page_bound (h : ea' >>> 12 = ea >>> 12) {b : U32} (hb : b &&& 0xFFF#32 = 0#32) :
    b ≤ ea' ↔ b ≤ ea := by
  have hbnat := congrArg BitVec.toNat hb
  rw [BitVec.toNat_and, show (0xFFF#32).toNat = 2 ^ 12 - 1 from rfl,
    Nat.and_two_pow_sub_one_eq_mod] at hbnat
  have hnat := congrArg BitVec.toNat h
  rw [BitVec.toNat_ushiftRight, BitVec.toNat_ushiftRight, Nat.shiftRight_eq_div_pow,
    Nat.shiftRight_eq_div_pow] at hnat
  rw [BitVec.le_def, BitVec.le_def]
  have hzero : (0#32).toNat = 0 := rfl
  omega

/-! ## The page's answer -/

/-- The registers a translation reads and no access compares. -/
structure SameMap (s s' : CpuState) : Prop where
  sdr1 : s'.sdr1 = s.sdr1
  dbatu : s'.dbatu = s.dbatu
  dbatl : s'.dbatl = s.dbatl

theorem SameMap.refl (s : CpuState) : SameMap s s := ⟨rfl, rfl, rfl⟩

theorem SameMap.trans {s₁ s₂ s₃ : CpuState} (h₁₂ : SameMap s₁ s₂) (h₂₃ : SameMap s₂ s₃) :
    SameMap s₁ s₃ :=
  ⟨h₂₃.sdr1.trans h₁₂.sdr1, h₂₃.dbatu.trans h₁₂.dbatu, h₂₃.dbatl.trans h₁₂.dbatl⟩

/-- What `xlateData` compares: the page, the MSR's data bits and the segment. -/
structure SameKey (s s' : CpuState) (ea ea' : U32) : Prop where
  page : ea' >>> 12 = ea >>> 12
  msr : s'.msr &&& (msr.DR ||| msr.PR ||| msr.LE) = s.msr &&& (msr.DR ||| msr.PR ||| msr.LE)
  sr : s'.sr (ea'.extractLsb' 28 4) = s.sr (ea.extractLsb' 28 4)

theorem SameKey.bits {s s' : CpuState} (h : SameKey s s' ea ea') {k : U32}
    (hk : (msr.DR ||| msr.PR ||| msr.LE) &&& k = k) : s'.msr &&& k = s.msr &&& k := by
  rw [← hk, ← BitVec.and_assoc, h.msr, BitVec.and_assoc]

theorem batMatch_page (h : ea' >>> 12 = ea >>> 12) (u l : U32) (user : Bool) :
    batMatch u l ea' user
      = (batMatch u l ea user).map fun b => { b with pa := inFrame b.pa ea' } := by
  obtain ⟨valid, hvalid⟩ : ∃ v, (if user then u &&& 1#32 else u &&& 2#32) = v := ⟨_, rfl⟩
  unfold batMatch
  simp only [hvalid, page_block h]
  by_cases h0 : valid = 0#32
  · rw [if_pos h0, if_pos h0]
    rfl
  · rw [if_neg h0, if_neg h0]
    split
    · rfl
    · rw [Option.map_some]
      simp only [inFrame_block h]

theorem batLookup_page (h : ea' >>> 12 = ea >>> 12) (batu batl : BitVec 2 → U32) (user : Bool) :
    batLookup batu batl ea' user
      = (batLookup batu batl ea user).map fun b => { b with pa := inFrame b.pa ea' } := by
  unfold batLookup
  simp only [List.findSome?_cons, List.findSome?_nil, batMatch_page h]
  cases batMatch (batu 0#2) (batl 0#2) ea user
  · cases batMatch (batu 1#2) (batl 1#2) ea user
    · cases batMatch (batu 2#2) (batl 2#2) ea user
      · cases batMatch (batu 3#2) (batl 3#2) ea user <;> rfl
      · rfl
    · rfl
  · rfl

/-- An answer moved to another address of the page. -/
def Answer.at (a : Answer) (ea : U32) : Answer :=
  match a with
  | .ok x => .ok (inFrame x.1 ea, x.2)
  | .isi bits => .isi bits
  | .dsi bits => .dsi bits

theorem batAnswer_page (b : BatHit) (write : Bool) (ea : U32) :
    batAnswer { b with pa := inFrame b.pa ea } write false = (batAnswer b write false).at ea := by
  unfold batAnswer
  simp only [Bool.false_eq_true, false_and, if_false]
  split <;> rfl

theorem pteAnswer_page {q q' : PageReq} (hfetch : q.fetch = false) (hf : q'.fetch = q.fetch)
    (hw : q'.write = q.write) (hk : q'.key = q.key) (w1 : U32) :
    pteAnswer w1 q' = (pteAnswer w1 q).at q'.ea := by
  unfold pteAnswer
  rw [hf, hw, hk, hfetch]
  simp only [Bool.false_and, Bool.false_eq_true, if_false]
  split
  · rfl
  · rw [Answer.at, inFrame_entry]

/-- **One page, one answer.** -/
theorem walk_page {s s' : CpuState} {b : U32} (hb : b &&& 0xFFF#32 = 0#32)
    (hmap : SameMap s s') (hkey : SameKey s s' ea ea') (m : U32 → U8) (write : Bool) :
    (walk s' b m ea' write false).answer = (walk s b m ea write false).answer.at ea'
      ∧ (walk s' b m ea' write false).mark = (walk s b m ea write false).mark := by
  have hdr : s'.msr &&& msr.DR = s.msr &&& msr.DR := hkey.bits (by decide)
  have hpr : s'.msr &&& msr.PR = s.msr &&& msr.PR := hkey.bits (by decide)
  unfold walk toPage
  simp only [Bool.false_eq_true, if_false, false_and, hdr, hpr, hmap.sdr1, hmap.dbatu, hmap.dbatl,
    hkey.sr, batLookup_page hkey.page, page_bound hkey.page hb]
  by_cases hreal : s.msr &&& msr.DR = 0#32
  · -- translation off: the address is its own answer
    rw [if_pos hreal, if_pos hreal]
    refine ⟨?_, rfl⟩
    simp only [Answer.at, inFrame_page hkey.page]
  · rw [if_neg hreal, if_neg hreal]
    cases batLookup s.dbatu s.dbatl ea (s.msr &&& msr.PR != 0#32) with
    | some hit =>
        rw [Option.map_some]
        exact ⟨batAnswer_page hit write ea', rfl⟩
    | none =>
        rw [Option.map_none]
        simp only
        by_cases ht : s.sr (ea.extractLsb' 28 4) &&& 0x80000000#32 ≠ 0#32
        · rw [if_pos ht, if_pos ht]
          exact ⟨rfl, rfl⟩
        · rw [if_neg ht, if_neg ht]
          simp only [walkPage, PageReq.page, hkey.page]
          cases findPte s.sdr1 m
            ⟨s.sr (ea.extractLsb' 28 4) &&& 0x00FFFFFF#32, (ea >>> 12) &&& 0xFFFF#32⟩ with
          | none => exact ⟨rfl, rfl⟩
          | some a =>
              refine ⟨?_, rfl⟩
              simp only [pteWalk]
              refine pteAnswer_page ?_ ?_ ?_ ?_ _ <;> rfl

end OpenPowerMac
