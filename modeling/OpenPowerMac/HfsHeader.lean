/-
The header of the catalog tree.

The header node holds three records at fixed places, among them the numbers of the tree
and a map of the nodes in use. The map has a bit for each of 2048 nodes; with more of
them it would run over the table of the offsets.
-/
import OpenPowerMac.HfsNode
import Mathlib.Tactic.IntervalCases

set_option autoImplicit false

namespace OpenPowerMac

namespace Hfs

/-! ## Bytes over others -/

def patch (n : Bytes) (at_ : ℕ) (bs : Bytes) : Bytes := n.take at_ ++ bs ++ n.drop (at_ + bs.length)

variable {n bs : Bytes} {at_ i v : ℕ}

theorem write_patch (h : at_ + bs.length ≤ n.length) : write n at_ bs = some (patch n at_ bs) :=
  if_pos h

theorem length_patch (h : at_ + bs.length ≤ n.length) : (patch n at_ bs).length = n.length := by
  rw [patch, List.length_append, List.length_append, List.length_take, List.length_drop]
  omega

theorem getD_patch (h : at_ + bs.length ≤ n.length) (hi : i < at_ ∨ at_ + bs.length ≤ i) :
    (patch n at_ bs).getD i 0#8 = n.getD i 0#8 := by
  have hlen : (n.take at_).length = at_ := by
    rw [List.length_take]
    omega
  rw [patch, List.getD_eq_getElem?_getD, List.getD_eq_getElem?_getD, List.append_assoc]
  rcases hi with hi | hi
  · rw [List.getElem?_append_left (by omega), List.getElem?_take_of_lt hi]
  · rw [List.getElem?_append_right (by omega), List.getElem?_append_right (by omega), hlen,
      List.getElem?_drop, show at_ + bs.length + (i - at_ - bs.length) = i by omega]

theorem getD_patch_self {b : U8} (h : at_ + 1 ≤ n.length) : (patch n at_ [b]).getD at_ 0#8 = b := by
  have hlen : (n.take at_).length = at_ := by
    rw [List.length_take]
    omega
  have hread := getD_append_right (X := n.take at_) (Y := [b] ++ n.drop (at_ + 1)) 0
  rw [hlen] at hread
  rw [patch, List.append_assoc]
  exact hread

theorem u16At_patch_self (h : at_ + 2 ≤ n.length) :
    u16At (patch n at_ (be16 v)) at_ = v % 2 ^ 16 := by
  have hlen : (n.take at_).length = at_ := by
    rw [List.length_take]
    omega
  have hread := u16At_append (n.take at_) (n.drop (at_ + 2)) v
  rw [hlen, ← List.append_assoc] at hread
  exact hread

theorem get32_patch_self (h : at_ + 4 ≤ n.length) :
    get32 (patch n at_ (be32 v)) at_ = v % 2 ^ 32 := by
  have hlen : (n.take at_).length = at_ := by
    rw [List.length_take]
    omega
  have hread := get32_append (n.take at_) (n.drop (at_ + 4)) v
  rw [hlen, ← List.append_assoc] at hread
  exact hread

/-- Fields written one after the other. -/
def written (z : Bytes) (fs : List (ℕ × Bytes)) : Bytes := fs.foldl (fun n p => patch n p.1 p.2) z

theorem written_spec (fs : List (ℕ × Bytes)) : ∀ (z : Bytes),
    (∀ p ∈ fs, p.1 + p.2.length ≤ z.length) →
    fs.foldlM (fun n p => write n p.1 p.2) z = some (written z fs)
      ∧ (written z fs).length = z.length
      ∧ ∀ i, (∀ p ∈ fs, i < p.1 ∨ p.1 + p.2.length ≤ i) →
        (written z fs).getD i 0#8 = z.getD i 0#8 := by
  induction fs with
  | nil => exact fun _ _ => ⟨rfl, rfl, fun _ _ => rfl⟩
  | cons p fs ih =>
      intro z hfs
      obtain ⟨hp, hrest⟩ := List.forall_mem_cons.mp hfs
      obtain ⟨hfold, hlen, hget⟩ := ih (patch z p.1 p.2)
        (fun q hq => by rw [length_patch hp]; exact hrest q hq)
      refine ⟨?_, hlen.trans (length_patch hp), ?_⟩
      · rw [List.foldlM_cons, write_patch hp]
        exact hfold
      · intro i hi
        obtain ⟨hpi, hi⟩ := List.forall_mem_cons.mp hi
        exact (hget i hi).trans (getD_patch hp hpi)

/-- A field that no later one touches. -/
theorem written_field {fs : List (ℕ × Bytes)} {z : Bytes} {k : ℕ}
    (hfs : ∀ p ∈ fs, p.1 + p.2.length ≤ z.length) (hk : fs[k]? = some (at_, bs))
    (hlater : ∀ p ∈ fs.drop (k + 1), at_ + bs.length ≤ p.1 ∨ p.1 + p.2.length ≤ at_) :
    ∃ n : Bytes, at_ + bs.length ≤ n.length
      ∧ ∀ i, at_ ≤ i → i < at_ + bs.length →
        (written z fs).getD i 0#8 = (patch n at_ bs).getD i 0#8 := by
  obtain ⟨hlt, hget⟩ := List.getElem?_eq_some_iff.mp hk
  have hsplit : fs = fs.take k ++ (at_, bs) :: fs.drop (k + 1) := by
    rw [← hget, ← List.drop_eq_getElem_cons hlt, List.take_append_drop]
  have hbefore := written_spec (fs.take k) z (fun p hp => hfs p (List.mem_of_mem_take hp))
  have hroom : at_ + bs.length ≤ (written z (fs.take k)).length := by
    rw [hbefore.2.1]
    exact hfs _ (List.mem_of_getElem? hk)
  refine ⟨written z (fs.take k), hroom, ?_⟩
  intro i hi hi'
  have hafter := written_spec (fs.drop (k + 1)) (patch (written z (fs.take k)) at_ bs)
    (fun p hp => by
      rw [length_patch hroom, hbefore.2.1]
      exact hfs p (List.mem_of_mem_drop hp))
  conv_lhs => rw [hsplit, written, List.foldl_append, List.foldl_cons]
  refine hafter.2.2 i (fun p hp => ?_)
  have hp := hlater p hp
  omega

theorem u16At_written {fs : List (ℕ × Bytes)} {z : Bytes} (k : ℕ)
    (hfs : ∀ p ∈ fs, p.1 + p.2.length ≤ z.length) (hk : fs[k]? = some (at_, be16 v))
    (hlater : ∀ p ∈ fs.drop (k + 1), at_ + 2 ≤ p.1 ∨ p.1 + p.2.length ≤ at_) :
    u16At (written z fs) at_ = v % 2 ^ 16 := by
  obtain ⟨n, hroom, hget⟩ := written_field hfs hk hlater
  have hlen : (be16 v).length = 2 := rfl
  rw [hlen] at hroom hget
  rw [u16At, hget at_ (Nat.le_refl _) (by omega), hget (at_ + 1) (by omega) (by omega)]
  exact u16At_patch_self hroom

theorem get32_written {fs : List (ℕ × Bytes)} {z : Bytes} (k : ℕ)
    (hfs : ∀ p ∈ fs, p.1 + p.2.length ≤ z.length) (hk : fs[k]? = some (at_, be32 v))
    (hlater : ∀ p ∈ fs.drop (k + 1), at_ + 4 ≤ p.1 ∨ p.1 + p.2.length ≤ at_) :
    get32 (written z fs) at_ = v % 2 ^ 32 := by
  obtain ⟨n, hroom, hget⟩ := written_field hfs hk hlater
  have hlen : (be32 v).length = 4 := rfl
  rw [hlen] at hroom hget
  rw [get32, hget at_ (Nat.le_refl _) (by omega), hget (at_ + 1) (by omega) (by omega),
    hget (at_ + 2) (by omega) (by omega), hget (at_ + 3) (by omega) (by omega)]
  exact get32_patch_self hroom

/-! ## The header node -/

/-- The marks stay between the second record and the table. -/
theorem markNodes_spec {k : ℕ} : ∀ {n : Bytes}, k ≤ 2048 → n.length = 512 →
    ∃ n', markNodes k n = some n' ∧ n'.length = 512
      ∧ ∀ i, i < 248 ∨ 504 ≤ i → n'.getD i 0#8 = n.getD i 0#8 := by
  induction k with
  | zero => exact fun _ hlen => ⟨_, rfl, hlen, fun _ _ => rfl⟩
  | succ k ih =>
      intro n hk hlen
      obtain ⟨n', hmark, hlen', hget⟩ := ih (n := n) (by omega) hlen
      have hroom : 248 + k / 8 < n'.length := by omega
      have hroom' : 248 + k / 8 + [n'[248 + k / 8] ||| (0x80#8 >>> (k % 8))].length ≤ n'.length :=
        hroom
      have hwrite := write_patch hroom'
      refine ⟨_, ?_, (length_patch hroom').trans hlen', ?_⟩
      · rw [markNodes, hmark, Option.bind_eq_bind, Option.bind_some, List.getElem?_eq_getElem hroom,
          Option.bind_eq_bind, Option.bind_some, hwrite]
      · intro i hi
        rw [getD_patch hroom' (by rw [List.length_singleton]; omega), hget i hi]

theorem length_write {n n' bs : Bytes} {at_ : ℕ} (h : write n at_ bs = some n') :
    n'.length = n.length := by
  rw [write] at h
  split at h
  · next hroom => exact Option.some.inj h ▸ length_patch hroom
  · cases h

theorem length_markNodes {k : ℕ} : ∀ {n n' : Bytes}, markNodes k n = some n' →
    n'.length = n.length := by
  induction k with
  | zero =>
      intro n n' h
      rw [← Option.some.inj h]
  | succ k ih =>
      intro n n' h
      rw [markNodes, Option.bind_eq_bind, Option.bind_eq_some_iff] at h
      obtain ⟨n₁, h₁, h⟩ := h
      rw [Option.bind_eq_bind, Option.bind_eq_some_iff] at h
      obtain ⟨b, -, h⟩ := h
      rw [length_write h, ih h₁]

/-- The mark of node 2112 would be behind the header node. -/
theorem markNodes_none (j : ℕ) {n : Bytes} (hlen : n.length = 512) :
    markNodes (2113 + j) n = none := by
  induction j with
  | zero =>
      rw [markNodes]
      rcases h : markNodes 2112 n with _ | n'
      · rfl
      · have hlen' := length_markNodes h
        rw [Option.bind_eq_bind, Option.bind_some, List.getElem?_eq_none (by omega)]
        rfl
  | succ j ih =>
      rw [← Nat.add_assoc, markNodes, ih]
      rfl

/-- What a reader finds in the header node. -/
structure Header (t : BTree) (hdr : Bytes) : Prop where
  type : hdr.getD 8 0#8 = 1#8
  holds : Holds hdr (nodeRecs hdr)
  places : [u16At hdr 510, u16At hdr 508, u16At hdr 506, u16At hdr 504] = [14, 120, 248, 504]
  depth : u16At hdr 14 = t.depth
  root : get32 hdr 16 = t.root
  leafRecs : get32 hdr 20 = t.leafRecs
  firstLeaf : get32 hdr 24 = t.firstLeaf
  lastLeaf : get32 hdr 28 = t.lastLeaf

/-- The header node without its marks. -/
def headerFields (t : BTree) (fileNodes : ℕ) : List (ℕ × Bytes) :=
  [(8, [1#8]), (10, be16 3), (510, be16 14), (508, be16 120), (506, be16 248), (504, be16 504),
    (14, be16 t.depth), (16, be32 t.root), (20, be32 t.leafRecs), (24, be32 t.firstLeaf),
    (28, be32 t.lastLeaf), (32, be16 512), (34, be16 37), (36, be32 fileNodes),
    (40, be32 (fileNodes + 2 ^ 32 - t.nodes.length))]

/-- The three records lie between the places in the table. -/
theorem holds_header {hdr : Bytes} (hlen : hdr.length = 512) (hcount : u16At hdr 10 = 3)
    (h₀ : u16At hdr 510 = 14) (h₁ : u16At hdr 508 = 120) (h₂ : u16At hdr 506 = 248)
    (h₃ : u16At hdr 504 = 504) : Holds hdr (nodeRecs hdr) := by
  have hrecs : nodeRecs hdr = [(hdr.drop 14).take 106, (hdr.drop 120).take 128,
      (hdr.drop 248).take 256] := by
    rw [nodeRecs, hcount]
    simp only [List.range_succ, List.range_zero, List.nil_append, List.map_cons,
      List.map_nil, List.cons_append, recOffset, Nat.mul_zero, Nat.sub_zero, h₀, h₁, h₂, h₃,
      Nat.reduceMul, Nat.reduceSub, Nat.reduceAdd, Nat.zero_add]
  have hlens : [((hdr.drop 14).take 106).length, ((hdr.drop 120).take 128).length,
      ((hdr.drop 248).take 256).length] = [106, 128, 256] := by
    simp [hlen]
  simp only [List.cons.injEq, and_true] at hlens
  obtain ⟨hr₀, hr₁, hr₂⟩ := hlens
  refine ⟨hlen, rfl, ?_, ?_⟩
  · intro i hi
    rw [hrecs] at hi ⊢
    have hi : i ≤ 3 := hi
    interval_cases i
    · exact h₀
    · rw [List.take_succ_cons, List.take_zero, total_cons, hr₀]
      exact h₁
    · rw [List.take_succ_cons, List.take_succ_cons, List.take_zero, total_cons, total_cons, hr₀, hr₁]
      exact h₂
    · rw [List.take_succ_cons, List.take_succ_cons, List.take_succ_cons, List.take_zero, total_cons,
        total_cons, total_cons, hr₀, hr₁, hr₂]
      exact h₃
  · rw [hrecs, recOffset]
    show u16At hdr 504 + 8 ≤ 512
    rw [h₃]

theorem headerNode_eq (t : BTree) (fileNodes : ℕ) {z : Bytes} (hz : z = List.replicate 512 0#8) :
    (written z (headerFields t fileNodes)).length = 512
      ∧ headerNode t fileNodes = markNodes t.nodes.length (written z (headerFields t fileNodes)) := by
  have hzeros : z.length = 512 := by rw [hz, List.length_replicate]
  have hfs : ∀ p ∈ headerFields t fileNodes, p.1 + p.2.length ≤ z.length := by
    rw [hzeros]
    simp [headerFields, be16, be32]
  obtain ⟨hfold, hlen, -⟩ := written_spec _ _ hfs
  have hchain : headerNode t fileNodes
      = ((headerFields t fileNodes).foldlM (fun n p => write n p.1 p.2) z).bind
        (markNodes t.nodes.length) := by
    rw [headerNode, ← hz]
    simp only [headerFields, List.foldlM_cons, List.foldlM_nil, Option.bind_eq_bind, Option.pure_def,
      Option.bind_assoc, Option.bind_some]
  exact ⟨hlen.trans hzeros, by rw [hchain, hfold, Option.bind_some]⟩

/-- Fields that are apart are found as they were written. -/
theorem headerNode_spec {t : BTree} (fileNodes : ℕ) (hnodes : t.nodes.length ≤ 2048)
    (hdepth : t.depth < 2 ^ 16) (hroot : t.root < 2 ^ 32) (hrecs : t.leafRecs < 2 ^ 32)
    (hfirst : t.firstLeaf < 2 ^ 32) (hlast : t.lastLeaf < 2 ^ 32) :
    ∃ hdr, headerNode t fileNodes = some hdr ∧ Header t hdr := by
  obtain ⟨z, hz⟩ : ∃ z : Bytes, z = List.replicate 512 0#8 := ⟨_, rfl⟩
  have hzeros : z.length = 512 := by rw [hz, List.length_replicate]
  have hfs : ∀ p ∈ headerFields t fileNodes, p.1 + p.2.length ≤ z.length := by
    rw [hzeros]
    simp [headerFields, be16, be32]
  obtain ⟨hlen, heq⟩ := headerNode_eq t fileNodes hz
  obtain ⟨hdr, hmark, hlen', hget⟩ := markNodes_spec hnodes hlen
  have hwritten : headerNode t fileNodes = some hdr := heq.trans hmark
  -- the marks are behind the numbers and in front of the table
  have hword : ∀ i, i < 240 ∨ 504 ≤ i → u16At hdr i = u16At (written z (headerFields t fileNodes)) i := by
    intro i hi
    rw [u16At, u16At, hget i (by omega), hget (i + 1) (by omega)]
  have hlong : ∀ i, i < 240 → get32 hdr i = get32 (written z (headerFields t fileNodes)) i := by
    intro i hi
    rw [get32, get32, hget i (by omega), hget (i + 1) (by omega), hget (i + 2) (by omega),
      hget (i + 3) (by omega)]
  have hcount : u16At hdr 10 = 3 :=
    (hword 10 (by omega)).trans (u16At_written 1 hfs rfl (by simp [headerFields, be16, be32]))
  have h₀ : u16At hdr 510 = 14 :=
    (hword 510 (by omega)).trans (u16At_written 2 hfs rfl (by simp [headerFields, be16, be32]))
  have h₁ : u16At hdr 508 = 120 :=
    (hword 508 (by omega)).trans (u16At_written 3 hfs rfl (by simp [headerFields, be16, be32]))
  have h₂ : u16At hdr 506 = 248 :=
    (hword 506 (by omega)).trans (u16At_written 4 hfs rfl (by simp [headerFields, be16, be32]))
  have h₃ : u16At hdr 504 = 504 :=
    (hword 504 (by omega)).trans (u16At_written 5 hfs rfl (by simp [headerFields, be16, be32]))
  refine ⟨hdr, hwritten, ?_, holds_header hlen' hcount h₀ h₁ h₂ h₃, by rw [h₀, h₁, h₂, h₃],
    ?_, ?_, ?_, ?_, ?_⟩
  · obtain ⟨n, hroom, hread⟩ := written_field (k := 0) hfs rfl (by simp [headerFields, be16, be32])
    rw [hget 8 (by omega), hread 8 (Nat.le_refl _) (by decide)]
    exact getD_patch_self hroom
  · rw [hword 14 (by omega), u16At_written 6 hfs rfl (by simp [headerFields, be16, be32]),
      Nat.mod_eq_of_lt hdepth]
  · rw [hlong 16 (by omega), get32_written 7 hfs rfl (by simp [headerFields, be16, be32]),
      Nat.mod_eq_of_lt hroot]
  · rw [hlong 20 (by omega), get32_written 8 hfs rfl (by simp [headerFields, be16, be32]),
      Nat.mod_eq_of_lt hrecs]
  · rw [hlong 24 (by omega), get32_written 9 hfs rfl (by simp [headerFields, be16, be32]),
      Nat.mod_eq_of_lt hfirst]
  · rw [hlong 28 (by omega), get32_written 10 hfs rfl (by simp [headerFields, be16, be32]),
      Nat.mod_eq_of_lt hlast]

end Hfs

end OpenPowerMac
