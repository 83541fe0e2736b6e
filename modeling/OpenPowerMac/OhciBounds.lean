/-
Where the OHCI reaches into memory.

Every check of an index is a 32-bit sum. The registers and the pointers between
descriptors are aligned, so the sum wraps for one word only: the last of the descriptor at
`topDesc`, sixteen bytes below the end of the address space. `bounds_iff` says of every run
that the indices stay inside guest RAM just when no such descriptor is followed.
-/
import OpenPowerMac.Ohci
import Mathlib.Tactic.Common

set_option autoImplicit false

namespace OpenPowerMac

namespace OhciCell

/-- The last descriptor of the address space. -/
def topDesc : U32 := 0xFFFFFFF0#32

/-! ## Traces -/

/-- **What an operation adds to the traces**: its descriptors are aligned, and its indices are
inside guest RAM just when the last descriptor is not among them. -/
structure Accounts (c c' : OhciCell) : Prop where
  hasRam : c'.hasRam = c.hasRam
  ramSize : c'.ramSize = c.ramSize
  hcca : c'.hcca = c.hcca
  ctrlHead : c'.ctrlHead = c.ctrlHead
  bulkHead : c'.bulkHead = c.bulkHead
  traces : ∃ us ms, c'.used = us ++ c.used ∧ c'.met = ms ++ c.met
    ∧ (∀ d ∈ ms, d.toNat % 16 = 0)
    ∧ ((∀ i ∈ us, i < c.ramSize) ↔ ¬ (c.hasRam = true ∧ topDesc ∈ ms))

namespace Accounts

variable {a b c : OhciCell}

/-- What touches neither memory nor the pointers. -/
theorem of_eq (h₁ : b.hasRam = a.hasRam) (h₂ : b.ramSize = a.ramSize) (h₃ : b.hcca = a.hcca)
    (h₄ : b.ctrlHead = a.ctrlHead) (h₅ : b.bulkHead = a.bulkHead) (h₆ : b.used = a.used)
    (h₇ : b.met = a.met) : Accounts a b :=
  ⟨h₁, h₂, h₃, h₄, h₅, [], [], h₆, h₇, by simp, by simp⟩

theorem refl (c : OhciCell) : Accounts c c := of_eq rfl rfl rfl rfl rfl rfl rfl

theorem trans (h : Accounts a b) (h' : Accounts b c) : Accounts a c := by
  obtain ⟨us, ms, hu, hm, hal, hiff⟩ := h.traces
  obtain ⟨us', ms', hu', hm', hal', hiff'⟩ := h'.traces
  refine ⟨h'.hasRam.trans h.hasRam, h'.ramSize.trans h.ramSize, h'.hcca.trans h.hcca,
    h'.ctrlHead.trans h.ctrlHead, h'.bulkHead.trans h.bulkHead, us' ++ us, ms' ++ ms, ?_, ?_, ?_, ?_⟩
  · rw [hu', hu, List.append_assoc]
  · rw [hm', hm, List.append_assoc]
  · intro d hd
    exact (List.mem_append.mp hd).elim (hal' d) (hal d)
  · rw [h.ramSize, h.hasRam] at hiff'
    rw [List.forall_mem_append, hiff, hiff', List.mem_append]
    tauto

theorem setDone (h : Accounts a b) (v : U32) : Accounts a { b with doneHead := v } :=
  h.trans (of_eq rfl rfl rfl rfl rfl rfl rfl)

/-- Accesses inside guest RAM. -/
theorem of_touch {pa : U32} {n : ℕ} (h : pa.toNat + n ≤ c.ramSize.toNat) : Accounts c (c.touch pa n) := by
  refine ⟨rfl, rfl, rfl, rfl, rfl, (List.range n).map fun k => pa + BitVec.ofNat 32 k, [], rfl, rfl,
    by simp, iff_of_true ?_ (by simp)⟩
  intro i hi
  obtain ⟨k, hk, rfl⟩ := List.mem_map.mp hi
  rw [List.mem_range] at hk
  have hsize := c.ramSize.isLt
  rw [BitVec.lt_def, BitVec.toNat_add, BitVec.toNat_ofNat]
  omega

end Accounts

/-- The check, where the sum does not wrap. -/
theorem inside_of_not_refused {c : OhciCell} {pa : U32} (hpa : pa.toNat + 4 < 2 ^ 32)
    (h : ¬ c.Refused pa) : pa.toNat + 4 ≤ c.ramSize.toNat := by
  unfold Refused at h
  rw [not_or, gt_iff_lt, BitVec.lt_def, BitVec.toNat_add, BitVec.toNat_ofNat] at h
  omega

theorem accounts_look {c : OhciCell} {pa : U32} (hpa : pa.toNat + 4 < 2 ^ 32) :
    Accounts c (c.look pa) := by
  unfold look
  split_ifs with h
  · exact Accounts.refl c
  · exact Accounts.of_touch (inside_of_not_refused hpa h)

theorem accounts_stLe {c : OhciCell} {pa : U32} (hpa : pa.toNat + 4 < 2 ^ 32) (v : U32) :
    Accounts c (c.stLe pa v) := by
  unfold stLe
  split_ifs with h
  · exact Accounts.refl c
  · exact (Accounts.of_touch (inside_of_not_refused hpa h)).trans
      (Accounts.of_eq rfl rfl rfl rfl rfl rfl rfl)

/-- A word of an aligned descriptor. -/
theorem desc_word {d : U32} (hd : d.toNat % 16 = 0) {k : U32} (hk : k.toNat ≤ 12)
    (h : d ≠ topDesc ∨ k.toNat ≤ 8) : (d + k).toNat = d.toNat + k.toNat ∧ (d + k).toNat + 4 < 2 ^ 32 := by
  have hlt := d.isLt
  have htop : d ≠ topDesc → d.toNat ≠ 0xFFFFFFF0 := fun hne hnat => hne (BitVec.eq_of_toNat_eq hnat)
  rw [BitVec.toNat_add]
  rcases h with h | h
  · have := htop h
    omega
  · omega

/-- The first three words of a descriptor end below the end of the address space. -/
theorem desc_below {d : U32} (hd : d.toNat % 16 = 0) :
    d.toNat + 4 < 2 ^ 32 ∧ (d + 4#32).toNat + 4 < 2 ^ 32 ∧ (d + 8#32).toNat + 4 < 2 ^ 32 := by
  refine ⟨?_, (desc_word hd (by decide) (Or.inr (by decide))).2,
    (desc_word hd (by decide) (Or.inr (by decide))).2⟩
  have h := (desc_word (k := 0#32) hd (by decide) (Or.inr (by decide))).2
  rwa [BitVec.add_zero] at h

/-- A descriptor that is followed, where it lies below the last. -/
theorem accounts_meet {c : OhciCell} {d : U32} (hd : d.toNat % 16 = 0)
    (h : c.hasRam = false ∨ d ≠ topDesc) : Accounts c (c.meet d) := by
  refine ⟨rfl, rfl, rfl, rfl, rfl, [], [d], rfl, rfl, by simpa using hd, iff_of_true (by simp) ?_⟩
  rintro ⟨hram, hmem⟩
  rcases h with h | h
  · exact Bool.false_ne_true (h.symm.trans hram)
  · exact h (List.mem_singleton.mp hmem).symm

/-- The last word of the last descriptor is looked up outside. -/
theorem look_topDesc {c : OhciCell} (hram : c.hasRam = true) :
    c.look (topDesc + 12#32) = c.touch (topDesc + 12#32) 4 := by
  refine if_neg ?_
  unfold Refused
  rw [hram, show topDesc + 12#32 + 4#32 = 0#32 from rfl]
  rintro (h | h)
  · exact Bool.false_ne_true h.symm
  · exact absurd h (by rw [gt_iff_lt, BitVec.lt_def]; exact Nat.not_lt_zero _)

/-- **Reading a descriptor** stays inside guest RAM, but at the end of the address space. -/
theorem accounts_readDesc {c : OhciCell} {d : U32} (hd : d.toNat % 16 = 0) :
    Accounts c (c.readDesc d) := by
  obtain ⟨h₀, h₄, h₈⟩ := desc_below hd
  -- the first three words are never a matter
  have hthree : Accounts (c.meet d) ((((c.meet d).look d).look (d + 4#32)).look (d + 8#32)) :=
    ((accounts_look h₀).trans (accounts_look h₄)).trans (accounts_look h₈)
  unfold readDesc
  obtain ⟨m, hm⟩ : ∃ m, (((c.meet d).look d).look (d + 4#32)).look (d + 8#32) = m := ⟨_, rfl⟩
  rw [hm] at hthree ⊢
  by_cases htop : d = topDesc
  · by_cases hram : c.hasRam = true
    · -- there the sum wraps
      subst htop
      have hramm : m.hasRam = true := hthree.hasRam.trans hram
      rw [look_topDesc hramm]
      obtain ⟨us, ms, hu, hmet, hal, -⟩ := hthree.traces
      refine ⟨hthree.hasRam, hthree.ramSize, hthree.hcca, hthree.ctrlHead, hthree.bulkHead,
        ((List.range 4).map fun k => topDesc + 12#32 + BitVec.ofNat 32 k) ++ us, ms ++ [topDesc], ?_, ?_, ?_,
        iff_of_false ?_ ?_⟩
      · rw [List.append_assoc]
        exact congrArg (((List.range 4).map fun k => topDesc + 12#32 + BitVec.ofNat 32 k) ++ ·) hu
      · rw [List.append_assoc]
        exact hmet
      · intro e he
        exact (List.mem_append.mp he).elim (hal e) fun h => by rw [List.mem_singleton.mp h]; decide
      · intro hall
        have hlast := hall 0xFFFFFFFF#32 (List.mem_append_left _ (by decide))
        have := c.ramSize.isLt
        rw [BitVec.lt_def] at hlast
        simp only [BitVec.toNat_ofNat] at hlast
        omega
      · exact not_not.mpr ⟨hram, List.mem_append_right _ (List.mem_singleton_self _)⟩
    · have hoff : m.look (d + 12#32) = m :=
        if_pos (Or.inl (hthree.hasRam.trans (Bool.eq_false_iff.mpr hram)))
      rw [hoff]
      exact (accounts_meet hd (Or.inl (Bool.eq_false_iff.mpr hram))).trans hthree
  · exact ((accounts_meet hd (Or.inr htop)).trans hthree).trans
      (accounts_look (desc_word hd (by decide) (Or.inl htop)).2)

/-- A pointer between descriptors is aligned. -/
theorem aligned_pointer (v : U32) : (v &&& ~~~0xF#32).toNat % 16 = 0 := by
  have h : v &&& ~~~0xF#32 = v >>> 4 <<< 4 := by
    rw [BitVec.shiftLeft_ushiftRight, show BitVec.allOnes 32 <<< 4 = ~~~0xF#32 by decide]
  rw [h, BitVec.toNat_shiftLeft, BitVec.toNat_ushiftRight, Nat.shiftLeft_eq, Nat.shiftRight_eq_div_pow]
  omega

/-! ## Transfers -/

theorem accounts_takeSetup (cbp : U32) (n k : ℕ) (c : OhciCell) :
    Accounts c (takeSetup c cbp n k) := by
  induction n generalizing k c with
  | zero => exact Accounts.refl c
  | succ n ih =>
      rw [takeSetup]
      dsimp only
      split_ifs with h
      · have hin : (cbp + BitVec.ofNat 32 k).toNat + 1 ≤ c.ramSize.toNat := h.2
        refine Accounts.trans ?_ (ih _ _)
        exact (Accounts.of_touch hin).trans (Accounts.of_eq rfl rfl rfl rfl rfl rfl rfl)
      · exact Accounts.refl c

theorem accounts_putBytes (bs : List U8) (pa : U32) (c : OhciCell) :
    Accounts c (putBytes c pa bs) := by
  induction bs generalizing pa c with
  | nil => exact Accounts.refl c
  | cons b bs ih =>
      rw [putBytes]
      split_ifs with h
      · have hin : pa.toNat + 1 ≤ c.ramSize.toNat := h
        refine Accounts.trans ?_ (ih _ _)
        exact (Accounts.of_touch hin).trans (Accounts.of_eq rfl rfl rfl rfl rfl rfl rfl)
      · exact Accounts.refl c

theorem accounts_buildDescriptor (c : OhciCell) : Accounts c c.buildDescriptor := by
  unfold buildDescriptor
  dsimp only
  repeat' split
  all_goals exact Accounts.of_eq rfl rfl rfl rfl rfl rfl rfl

theorem accounts_adopt (c : OhciCell) : Accounts c c.adopt := by
  unfold adopt
  split_ifs
  · exact Accounts.of_eq rfl rfl rfl rfl rfl rfl rfl
  · exact Accounts.refl c

theorem accounts_transfer {c c' : OhciCell} {dp epn cbp avail moved : U32}
    (h : transfer c dp epn cbp avail = some (moved, c')) : Accounts c c' := by
  unfold transfer at h
  split_ifs at h
  · -- SETUP
    obtain ⟨-, rfl⟩ := Prod.mk.inj (Option.some.inj h)
    exact (accounts_takeSetup _ _ _ _).trans (accounts_buildDescriptor _)
  · -- IN, endpoint zero
    have hc := congrArg Prod.snd (Option.some.inj h)
    unfold inControl at hc
    dsimp only at hc
    rw [← hc]
    split_ifs
    · refine Accounts.trans ?_ (accounts_adopt _)
      exact (accounts_putBytes _ _ _).trans (Accounts.of_eq rfl rfl rfl rfl rfl rfl rfl)
    · exact (accounts_putBytes _ _ _).trans (Accounts.of_eq rfl rfl rfl rfl rfl rfl rfl)
  · unfold inMouse at h
    split_ifs at h
    obtain ⟨-, rfl⟩ := Prod.mk.inj (Option.some.inj h)
    refine Accounts.trans ?_ (accounts_putBytes _ _ _)
    exact Accounts.of_eq rfl rfl rfl rfl rfl rfl rfl
  · unfold inKeyboard at h
    split_ifs at h
    obtain ⟨-, rfl⟩ := Prod.mk.inj (Option.some.inj h)
    exact (accounts_putBytes _ _ _).trans (Accounts.of_eq rfl rfl rfl rfl rfl rfl rfl)
  · obtain ⟨-, rfl⟩ := Prod.mk.inj (Option.some.inj h)
    exact accounts_adopt c

/-! ## The lists -/

theorem accounts_retire {c : OhciCell} {td : U32} (htd : td.toNat % 16 = 0) (cc : U32) :
    Accounts c (c.retire td cc) := by
  obtain ⟨h₀, -, h₈⟩ := desc_below htd
  unfold retire
  dsimp only
  exact (((accounts_look h₀).trans (accounts_stLe h₀ _)).trans (accounts_stLe h₈ _)).setDone td

theorem accounts_doTd {c : OhciCell} {td : U32} (htd : td.toNat % 16 = 0) (ed0 : U32) :
    Accounts c (c.doTd ed0 td).2 ∧ ∀ next, (c.doTd ed0 td).1 = some next → next.toNat % 16 = 0 := by
  obtain ⟨-, h₄, -⟩ := desc_below htd
  have hread := accounts_readDesc (c := c) htd
  unfold doTd
  dsimp only
  cases hmove : transfer (c.readDesc td) ((c.word td >>> 19) &&& 3#32) ((ed0 >>> 7) &&& 0xF#32)
      (c.word (td + 4#32))
      (if c.word (td + 4#32) ≠ 0#32 ∧ c.word (td + 12#32) ≥ c.word (td + 4#32) then
        c.word (td + 12#32) - c.word (td + 4#32) + 1#32 else 0#32) with
  | none => exact ⟨hread, fun next h => nomatch h⟩
  | some r =>
      refine ⟨?_, fun next h => Option.some.inj h ▸ aligned_pointer _⟩
      exact ((hread.trans (accounts_transfer hmove)).trans (accounts_stLe h₄ _)).trans
        (accounts_retire htd _)

theorem accounts_tdLoop (ed0 tail : U32) {left : ℕ} {h : U32} (hh : h.toNat % 16 = 0) (c : OhciCell) :
    Accounts c (tdLoop ed0 tail left h c).2.2 := by
  induction left generalizing h c with
  | zero => exact Accounts.refl c
  | succ left ih =>
      rw [tdLoop]
      split_ifs
      · exact Accounts.refl c
      · obtain ⟨hacc, hnext⟩ := accounts_doTd (c := c) hh ed0
        obtain ⟨r, hr⟩ : ∃ r, c.doTd ed0 h = r := ⟨_, rfl⟩
        rw [hr] at hacc hnext ⊢
        obtain ⟨next | next, c'⟩ := r
        · exact hacc
        · exact hacc.trans (ih (hnext next rfl) c')

theorem accounts_visit {w : Walk} (hed : w.ed.toNat % 16 = 0) :
    Accounts w.cell w.visit.cell ∧ w.visit.ed.toNat % 16 = 0 := by
  obtain ⟨-, -, h₈⟩ := desc_below hed
  refine ⟨?_, aligned_pointer _⟩
  have hwork : Accounts w.cell w.work.2.2 := by
    unfold Walk.work
    dsimp only
    split_ifs
    · exact accounts_readDesc hed
    · exact (accounts_readDesc hed).trans (accounts_tdLoop _ _ (aligned_pointer _) _)
  exact hwork.trans (accounts_stLe h₈ _)

theorem accounts_iterate {w : Walk} (hed : w.ed.toNat % 16 = 0) (n : ℕ) :
    Accounts w.cell (Walk.step^[n] w).cell ∧ (Walk.step^[n] w).ed.toNat % 16 = 0 := by
  induction n with
  | zero => exact ⟨Accounts.refl _, hed⟩
  | succ n ih =>
      rw [Function.iterate_succ_apply']
      unfold Walk.step
      split_ifs
      · exact ih
      · obtain ⟨hacc, hal⟩ := accounts_visit ih.2
        exact ⟨ih.1.trans hacc, hal⟩

/-! ## The frame -/

/-- The heads that a frame starts from are aligned. -/
structure Aligned (c : OhciCell) : Prop where
  hcca : c.hcca.toNat % 256 = 0
  ctrlHead : c.ctrlHead.toNat % 16 = 0
  bulkHead : c.bulkHead.toNat % 16 = 0

theorem Accounts.aligned {c c' : OhciCell} (h : Accounts c c') (hc : c.Aligned) : c'.Aligned := by
  refine ⟨?_, ?_, ?_⟩
  · rw [h.hcca]
    exact hc.hcca
  · rw [h.ctrlHead]
    exact hc.ctrlHead
  · rw [h.bulkHead]
    exact hc.bulkHead

theorem accounts_serve (n : ℕ) (on : Bool) {head : U32} (hhead : head.toNat % 16 = 0)
    (r : Bool × OhciCell) : Accounts r.2 (serve n on head r).2 := by
  unfold serve
  split_ifs
  · exact (accounts_iterate (w := ⟨64, head, r.2⟩) hhead n).1
  · exact Accounts.refl _

theorem accounts_raise (c : OhciCell) (bits : U32) : Accounts c (c.raise bits) :=
  Accounts.of_eq rfl rfl rfl rfl rfl rfl rfl

theorem accounts_writeFrame {c : OhciCell} (hc : c.Aligned) : Accounts c c.writeFrame := by
  have hal := hc.hcca
  have hlt := c.hcca.isLt
  unfold writeFrame
  split_ifs with h
  · have hle := h.2.2
    rw [BitVec.le_def, BitVec.toNat_add, BitVec.toNat_ofNat] at hle
    have hin : (c.hcca + 0x80#32).toNat + 4 ≤ c.ramSize.toNat := by
      rw [BitVec.toNat_add, BitVec.toNat_ofNat]
      omega
    exact (Accounts.of_touch hin).trans (Accounts.of_eq rfl rfl rfl rfl rfl rfl rfl)
  · exact Accounts.refl c

theorem accounts_servePeriodic {n : ℕ} {r : Bool × OhciCell} (hc : r.2.Aligned) :
    Accounts r.2 (servePeriodic n r).2 := by
  have hal := hc.hcca
  have hlt := r.2.hcca.isLt
  unfold servePeriodic
  cases hpa : r.2.periodHead with
  | none => exact Accounts.refl _
  | some pa =>
      dsimp only
      split_ifs
      · unfold periodHead at hpa
        dsimp only at hpa
        split_ifs at hpa
        obtain rfl := Option.some.inj hpa
        refine Accounts.trans ?_ (accounts_serve n _ (aligned_pointer _) (true, r.2.look _))
        refine accounts_look ?_
        have hslot : (r.2.fmNumber &&& 31#32).toNat < 32 :=
          Nat.lt_of_le_of_lt (BitVec.toNat_and .. ▸ Nat.and_le_right) (by decide)
        rw [BitVec.toNat_add, BitVec.toNat_mul, BitVec.toNat_ofNat]
        omega
      · exact Accounts.refl _

theorem accounts_handOver {c : OhciCell} (hc : c.Aligned) : Accounts c c.handOver := by
  have hal := hc.hcca
  have hlt := c.hcca.isLt
  unfold handOver
  split_ifs
  · refine Accounts.trans (Accounts.setDone (accounts_stLe ?_ _) _) (accounts_raise _ _)
    rw [BitVec.toNat_add, BitVec.toNat_ofNat]
    omega
  · exact Accounts.refl c

/-- **A frame** accounts for what it touches. -/
theorem accounts_frame {c : OhciCell} (hc : c.Aligned) (n : ℕ) : Accounts c (c.frame n).2 := by
  unfold frame
  dsimp only
  obtain ⟨c₀, h₀⟩ : ∃ c₀, { c with fmNumber := (c.fmNumber + 1#32) &&& 0xFFFF#32 } = c₀ := ⟨_, rfl⟩
  have hfm : Accounts c c₀ := by
    rw [← h₀]
    exact Accounts.of_eq rfl rfl rfl rfl rfl rfl rfl
  rw [h₀]
  have hsof : Accounts c (c₀.writeFrame.raise 0x04#32) :=
    (hfm.trans (accounts_writeFrame (hfm.aligned hc))).trans (accounts_raise _ _)
  obtain ⟨c₁, h₁⟩ : ∃ c₁, c₀.writeFrame.raise 0x04#32 = c₁ := ⟨_, rfl⟩
  rw [h₁] at hsof ⊢
  -- the control list, the bulk list and the periodic list
  have hctrl := hsof.trans (accounts_serve n (c₁.control &&& 0x10#32 ≠ 0#32)
    (hsof.aligned hc).ctrlHead (true, c₁))
  obtain ⟨r₁, hr₁⟩ : ∃ r₁, serve n (c₁.control &&& 0x10#32 ≠ 0#32) c₁.ctrlHead (true, c₁) = r₁ := ⟨_, rfl⟩
  rw [hr₁] at hctrl ⊢
  have hbulk := hctrl.trans (accounts_serve n (r₁.2.control &&& 0x20#32 ≠ 0#32)
    (hctrl.aligned hc).bulkHead r₁)
  obtain ⟨r₂, hr₂⟩ : ∃ r₂, serve n (r₁.2.control &&& 0x20#32 ≠ 0#32) r₁.2.bulkHead r₁ = r₂ := ⟨_, rfl⟩
  rw [hr₂] at hbulk ⊢
  have hperiod := hbulk.trans (accounts_servePeriodic (n := n) (hbulk.aligned hc))
  split_ifs
  · exact hperiod.trans (accounts_handOver (hperiod.aligned hc))
  · exact hperiod

theorem Accounts.signal {a b : OhciCell} (h : Accounts a b) (before after : U32) :
    Accounts a (b.rhSignal before after) := by
  unfold rhSignal
  split_ifs
  · exact h.trans (accounts_raise b _)
  · exact h

theorem accounts_powerTimer (c : OhciCell) (n : Fin 2) : Accounts c (c.powerTimer n) := by
  unfold powerTimer
  dsimp only
  split_ifs
  · exact Accounts.refl c
  · exact Accounts.of_eq rfl rfl rfl rfl rfl rfl rfl
  · refine Accounts.signal ?_ _ _
    exact Accounts.of_eq rfl rfl rfl rfl rfl rfl rfl

theorem accounts_resetTimer (c : OhciCell) (n : Fin 2) : Accounts c (c.resetTimer n) := by
  unfold resetTimer
  dsimp only
  split_ifs
  · exact Accounts.refl c
  · exact Accounts.of_eq rfl rfl rfl rfl rfl rfl rfl
  · refine Accounts.signal ?_ _ _
    exact Accounts.of_eq rfl rfl rfl rfl rfl rfl rfl

theorem accounts_tick {c : OhciCell} (hc : c.Aligned) (n : ℕ) (tb : U64) :
    Accounts c (c.tick n tb).2 := by
  have htimers : Accounts c
      (((({ c with lastFrameTb := tb }.powerTimer 0).powerTimer 1).resetTimer 0).resetTimer 1) := by
    refine Accounts.trans ?_ (accounts_resetTimer _ _)
    refine Accounts.trans ?_ (accounts_resetTimer _ _)
    refine Accounts.trans ?_ (accounts_powerTimer _ _)
    refine Accounts.trans ?_ (accounts_powerTimer _ _)
    exact Accounts.of_eq rfl rfl rfl rfl rfl rfl rfl
  unfold tick
  dsimp only
  split_ifs
  · exact Accounts.refl c
  · exact htimers.trans (accounts_frame (htimers.aligned hc) n)
  · exact htimers

/-! ## The registers -/

/-- A register write sets none of the traces, and keeps the pointers aligned. -/
structure Writes (c c' : OhciCell) : Prop where
  hasRam : c'.hasRam = c.hasRam
  ramSize : c'.ramSize = c.ramSize
  used : c'.used = c.used
  met : c'.met = c.met
  aligned : c.Aligned → c'.Aligned

namespace Writes

variable {a b c : OhciCell}

theorem trans (h : Writes a b) (h' : Writes b c) : Writes a c :=
  ⟨h'.hasRam.trans h.hasRam, h'.ramSize.trans h.ramSize, h'.used.trans h.used, h'.met.trans h.met,
    fun ha => h'.aligned (h.aligned ha)⟩

/-- A write that leaves the pointers alone. -/
theorem of_eq (h₁ : b.hasRam = a.hasRam) (h₂ : b.ramSize = a.ramSize) (h₃ : b.hcca = a.hcca)
    (h₄ : b.ctrlHead = a.ctrlHead) (h₅ : b.bulkHead = a.bulkHead) (h₆ : b.used = a.used)
    (h₇ : b.met = a.met) : Writes a b :=
  ⟨h₁, h₂, h₆, h₇, (Accounts.of_eq h₁ h₂ h₃ h₄ h₅ h₆ h₇).aligned⟩

theorem refl (c : OhciCell) : Writes c c := of_eq rfl rfl rfl rfl rfl rfl rfl

theorem setPort (h : Writes a b) (port reset : Fin 2 → U32) :
    Writes a { b with rhPort := port, portReset := reset } :=
  h.trans (of_eq rfl rfl rfl rfl rfl rfl rfl)

end Writes

theorem Writes.signal {a b : OhciCell} (h : Writes a b) (before after : U32) :
    Writes a (b.rhSignal before after) := by
  unfold rhSignal
  split_ifs
  · exact h.trans (Writes.of_eq rfl rfl rfl rfl rfl rfl rfl)
  · exact h

theorem writes_portPowerSet (c : OhciCell) (n : Fin 2) (on : Bool) :
    Writes c (c.portPowerSet n on) := by
  unfold portPowerSet
  dsimp only
  split_ifs
  · exact Writes.refl c
  all_goals
    refine Writes.signal ?_ _ _
    exact Writes.of_eq rfl rfl rfl rfl rfl rfl rfl

theorem writes_globalPower (c : OhciCell) (v : U32) (n : Fin 2) : Writes c (c.globalPower v n) := by
  unfold globalPower
  dsimp only
  split_ifs
  · exact Writes.refl c
  · exact (writes_portPowerSet _ _ _).trans (writes_portPowerSet _ _ _)
  · exact writes_portPowerSet _ _ _
  · exact writes_portPowerSet _ _ _
  · exact Writes.refl c

theorem writes_writePort (c : OhciCell) (n : Fin 2) (v : U32) : Writes c (c.writePort n v) := by
  unfold writePort
  dsimp only
  refine Writes.signal ?_ _ _
  refine Writes.setPort ?_ _ _
  split_ifs
  · exact (writes_portPowerSet _ _ _).trans (writes_portPowerSet _ _ _)
  · exact writes_portPowerSet _ _ _
  · exact writes_portPowerSet _ _ _
  · exact Writes.refl c
  · exact Writes.refl c

/-- A cleared low part. -/
theorem cleared_low (v : U32) : (v &&& 0xFFFFFF00#32).toNat % 256 = 0 := by
  have h : v &&& 0xFFFFFF00#32 = v >>> 8 <<< 8 := by
    rw [BitVec.shiftLeft_ushiftRight, show BitVec.allOnes 32 <<< 8 = 0xFFFFFF00#32 by decide]
  rw [h, BitVec.toNat_shiftLeft, BitVec.toNat_ushiftRight, Nat.shiftLeft_eq, Nat.shiftRight_eq_div_pow]
  omega

theorem writes_regWrite (c : OhciCell) (off v : U32) : Writes c (c.regWrite off v) := by
  unfold regWrite
  split
  · exact Writes.of_eq rfl rfl rfl rfl rfl rfl rfl
  · -- a reset clears HCCA
    dsimp only
    split_ifs
    · exact ⟨rfl, rfl, rfl, rfl, fun h => ⟨rfl, h.ctrlHead, h.bulkHead⟩⟩
    · exact ⟨rfl, rfl, rfl, rfl, fun h => ⟨rfl, h.ctrlHead, h.bulkHead⟩⟩
    · exact Writes.refl c
  · exact Writes.of_eq rfl rfl rfl rfl rfl rfl rfl
  · exact ⟨rfl, rfl, rfl, rfl, fun h => ⟨cleared_low v, h.ctrlHead, h.bulkHead⟩⟩
  · exact ⟨rfl, rfl, rfl, rfl, fun h => ⟨h.hcca, aligned_pointer v, h.bulkHead⟩⟩
  · exact ⟨rfl, rfl, rfl, rfl, fun h => ⟨h.hcca, h.ctrlHead, aligned_pointer v⟩⟩
  · split_ifs
    · exact Writes.of_eq rfl rfl rfl rfl rfl rfl rfl
    · exact Writes.of_eq rfl rfl rfl rfl rfl rfl rfl
  · split_ifs
    · exact Writes.refl c
    · exact Writes.of_eq rfl rfl rfl rfl rfl rfl rfl
  · split_ifs
    · exact (writes_globalPower _ _ _).trans (writes_globalPower _ _ _)
    · exact Writes.refl c
  · exact writes_writePort _ _ _
  · exact writes_writePort _ _ _
  · exact Writes.refl c

/-! ## Runs -/

/-- A run from power-on. -/
def run (c : OhciCell) (es : List Event) : OhciCell := es.foldl apply c

/-- What holds in every state. -/
structure Safe (limit : U32) (c : OhciCell) : Prop where
  ramSize : c.ramSize = limit
  aligned : c.Aligned
  met : ∀ d ∈ c.met, d.toNat % 16 = 0
  traces : (∀ i ∈ c.used, i < limit) ↔ ¬ (c.hasRam = true ∧ topDesc ∈ c.met)

theorem Safe.accounts {ramSize : U32} {c c' : OhciCell} (h : Safe ramSize c) (hc : Accounts c c') :
    Safe ramSize c' := by
  obtain ⟨us, ms, hu, hm, hal, hiff⟩ := hc.traces
  refine ⟨hc.ramSize.trans h.ramSize, hc.aligned h.aligned, ?_, ?_⟩
  · rw [hm]
    intro d hd
    exact (List.mem_append.mp hd).elim (hal d) (h.met d)
  · rw [h.ramSize] at hiff
    rw [hu, hm, List.forall_mem_append, hiff, h.traces, hc.hasRam, List.mem_append]
    tauto

theorem Safe.writes {ramSize : U32} {c c' : OhciCell} (h : Safe ramSize c) (hc : Writes c c') :
    Safe ramSize c' := by
  refine ⟨hc.ramSize.trans h.ramSize, hc.aligned h.aligned, ?_, ?_⟩
  · rw [hc.met]
    exact h.met
  · rw [hc.used, hc.met, hc.hasRam]
    exact h.traces

theorem safe_apply {ramSize : U32} {c : OhciCell} (h : Safe ramSize c) (e : Event) :
    Safe ramSize (c.apply e) := by
  cases e with
  | reg off v => exact h.writes (writes_regWrite c off v)
  | memory ram => exact h.accounts (Accounts.of_eq rfl rfl rfl rfl rfl rfl rfl)
  | tick n tb => exact h.accounts (accounts_tick h.aligned n tb)
  | moveMouse dx dy buttons => exact h.accounts (Accounts.of_eq rfl rfl rfl rfl rfl rfl rfl)
  | keys reports => exact h.accounts (Accounts.of_eq rfl rfl rfl rfl rfl rfl rfl)

theorem safe_run {ramSize : U32} {c : OhciCell} (h : Safe ramSize c) (es : List Event) :
    Safe ramSize (c.run es) := by
  induction es generalizing c with
  | nil => exact h
  | cons e es ih => exact ih (safe_apply h e)

theorem safe_powerOn (hasRam : Bool) (ram : U32 → U8) (ramSize : U32) (hid : Hid) :
    Safe ramSize (powerOn hasRam ram ramSize hid) := by
  refine ⟨rfl, ⟨rfl, rfl, rfl⟩, ?_, iff_of_true ?_ ?_⟩
  · intro d hd
    exact absurd hd List.not_mem_nil
  · intro i hi
    exact absurd hi List.not_mem_nil
  · exact fun hd => absurd hd.2 List.not_mem_nil

/-- Where no sum wraps, a word outside guest RAM reads as zero and is not written. -/
theorem outside_refused {c : OhciCell} {d k : U32} (hd : d.toNat % 16 = 0) (hk : k.toNat ≤ 12)
    (htop : d ≠ topDesc) (hout : c.ramSize.toNat < (d + k).toNat + 4) :
    c.word (d + k) = 0#32 ∧ ∀ v, c.stLe (d + k) v = c := by
  obtain ⟨-, hlt⟩ := desc_word hd hk (Or.inl htop)
  have href : c.Refused (d + k) := by
    by_contra h
    have := inside_of_not_refused hlt h
    omega
  exact ⟨if_pos href, fun v => if_pos href⟩

/-- **Bounds of every run**: the indices used are inside guest RAM, and the words of descriptors
that lie outside read as zero and are not written, if and only if no descriptor is followed to
the last sixteen bytes of the address space. -/
theorem bounds_iff (hasRam : Bool) (ram : U32 → U8) (ramSize : U32) (hid : Hid) (es : List Event) :
    let c := (powerOn hasRam ram ramSize hid).run es
    ((∀ i ∈ c.used, i < ramSize)
        ∧ ∀ d ∈ c.met, ∀ k ∈ [0#32, 4#32, 8#32, 12#32], c.ramSize.toNat < (d + k).toNat + 4 →
          c.word (d + k) = 0#32 ∧ ∀ v, c.stLe (d + k) v = c)
      ↔ ¬ (c.hasRam = true ∧ topDesc ∈ c.met) := by
  intro c
  have hsafe : Safe ramSize c := safe_run (safe_powerOn hasRam ram ramSize hid) es
  refine ⟨fun h => hsafe.traces.mp h.1, fun h => ⟨hsafe.traces.mpr h, ?_⟩⟩
  intro d hd k hk hout
  by_cases hram : c.hasRam = true
  · have htop : d ≠ topDesc := fun he => h ⟨hram, he ▸ hd⟩
    have hk12 : k.toNat ≤ 12 :=
      (show ∀ k ∈ [0#32, 4#32, 8#32, 12#32], k.toNat ≤ 12 by simp) k hk
    exact outside_refused (hsafe.met d hd) hk12 htop hout
  · -- no memory, no access
    have href : c.Refused (d + k) := Or.inl (Bool.eq_false_iff.mpr hram)
    exact ⟨if_pos href, fun v => if_pos href⟩

/-- A control list that starts at the end of the address space: the read of its fourth word
passes the check, and its index is outside. -/
theorem topDesc_read_outside :
    let c := (powerOn true (fun _ => 0#8) 0x40#32 .keyboard).run
      [.reg 0x20#32 topDesc, .reg 0x04#32 0x90#32, .tick 1 25000#64]
    ∃ i ∈ c.used, ¬ i < 0x40#32 := by
  refine ⟨0xFFFFFFFC#32, ?_, ?_⟩ <;> decide +kernel

end OhciCell

end OpenPowerMac
