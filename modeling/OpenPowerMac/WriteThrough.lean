/-
Stores through a write-through page.

Such a store merges into the L1's copy, if there is one, and writes the bus. It
leaves the L2 alone. A clean or absent L1 copy is filled from the L2 the next
time, so an L2 copy that differs in the stored bytes comes back: the census
(`noteL2Skew`) counts the place and repairs nothing. A modified L1 copy hides the
L2's, since it is handed down over it, and an L2 that is off is not asked.

What the store leaves is a property of each stored byte that every movement
between the levels keeps (`Levels.Shown`), and no coherence is asked of the state
the store is made in: `writeThrough_seen_iff`.
-/
import OpenPowerMac.L2Idle
import OpenPowerMac.ModeChange

set_option autoImplicit false

namespace OpenPowerMac

open Hierarchy

/-! ## Operations -/

/-- What may come between a store and a load of its bytes. -/
inductive LaterOp where
  | load (pa : U32) (len : ℕ) (wimg : U32)
  | store (pa : U32) (len : ℕ) (v : U64) (wimg : U32)
  | dcbz (pa : U32)
  | dcbClean (pa : U32) (invalidate : Bool)
  | dcbKill (pa : U32)

namespace LaterOp

def exec (c : Cpu PlainBus) : LaterOp → Cpu PlainBus
  | load pa len wimg => (c.memRead pa len wimg).2
  | store pa len v wimg => c.memWrite pa len v wimg
  | dcbz pa => c.dcbzLine pa
  | dcbClean pa invalidate => c.dcbClean pa invalidate
  | dcbKill pa => c.dcbKill pa

/-- Loads are of anything and any block may be evicted; what is stored or discarded is another
block. -/
def Spares (k : BitVec 27) : LaterOp → Prop
  | store pa len _ _ => Cpu.AccessLen len ∧ ∀ i < len, blkOf (pa + BitVec.ofNat 32 i) ≠ k
  | dcbz pa => blkOf pa ≠ k
  | dcbKill pa => blkOf pa ≠ k
  | _ => True

/-- A store is of an access length. -/
def Sized : LaterOp → Prop
  | store _ len _ _ => Cpu.AccessLen len
  | _ => True

end LaterOp

/-- The state after a run of them. -/
def runLater (c : Cpu PlainBus) (ops : List LaterOp) : Cpu PlainBus := ops.foldl LaterOp.exec c

namespace Cpu

variable {c : Cpu PlainBus}

/-! ## What is asked -/

/-- The arrays are well formed: no block sits in two places, and every L2 line in its own set. An
L2 that is off may hold lines. -/
structure Formed (c : Cpu PlainBus) : Prop where
  tvShort : ∀ s w, ((c.l1x s).tv w).toNat < 2 ^ 21
  l1Distinct : Distinct c.l1Entry
  l2Size : c.l2.size = c.l2Sets.toNat * 2
  l2Home : ∀ i, (c.l2At i).v = true →
    (c.l2At i).tag.toNat < 2 ^ 27 ∧ i / 2 = c.l2SetOf ((c.l2At i).tag <<< 5)
  l2Distinct : Distinct c.l2Entry

/-- The bytes `i` to `i + n` of a value of `len` bytes. -/
def bytesOf (len i n : ℕ) (v : U64) : U64 :=
  ((v >>> (8 * (len - (i + n)))).setWidth (8 * n)).setWidth 64

/-- After the store the bus holds the value, and so does every later load of its bytes. -/
structure Seen (c : Cpu PlainBus) (pa : U32) (len : ℕ) (v : U64) (wimg : U32) : Prop where
  bus : ∀ i < len, (c.memWrite pa len v wimg).bus.mem (pa + BitVec.ofNat 32 i) = byteBE len i v
  loads : ∀ ops : List LaterOp,
    (∀ op ∈ ops, ∀ i < len, op.Spares (blkOf (pa + BitVec.ofNat 32 i))) →
    ∀ (i n : ℕ) (wimg' : U32), i + n ≤ len → wimg' &&& kWimgI = 0#32 →
      ((runLater (c.memWrite pa len v wimg) ops).memRead (pa + BitVec.ofNat 32 i) n wimg').1
        = bytesOf len i n v

/-- Storing the byte leaves no older copy in the way: the L1's is modified, or the L2 has none, or
the L2's holds the byte already. -/
def Unskewed (c : Cpu PlainBus) (a : U32) (b : U8) : Prop :=
  (∃ w, c.lineWayQuiet a = some w ∧ (c.l1d (setOf a) w).d = true)
    ∨ ∀ l, (if c.l2On then c.l2Line (blkOf a) else none) = some l → l (blockOff a) = b

/-! ## What passes a block by -/

/-- Whatever the block shows, it goes on showing. -/
structure Passes (k : BitVec 27) (c c' : Cpu PlainBus) : Prop where
  core : SameCore c c'
  shape : Shape c'
  shown : ∀ p, Levels.Shown k p c.levels → Levels.Shown k p c'.levels

theorem Passes.refl (hs : Shape c) (k : BitVec 27) : Passes k c c :=
  ⟨SameCore.refl c, hs, fun _ h => h⟩

theorem Passes.trans {c₁ c₂ c₃ : Cpu PlainBus} {k : BitVec 27} (h₁₂ : Passes k c₁ c₂)
    (h₂₃ : Passes k c₂ c₃) : Passes k c₁ c₃ :=
  ⟨h₁₂.core.trans h₂₃.core, h₂₃.shape, fun p h => h₂₃.shown p (h₁₂.shown p h)⟩

/-- Data moving between the levels passes every block by. -/
theorem Shifts.passes {may : BitVec 27 → Prop} {c' : Cpu PlainBus} (h : Shifts may c c')
    (k : BitVec 27) : Passes k c c' := ⟨h.core, h.shape, fun _ hp => hp.flows h.flows⟩

/-- A change at other blocks passes the block by. -/
theorem Turns.passes {c' : Cpu PlainBus} {h : Levels (BitVec 27) Line} {k : BitVec 27}
    (ht : Turns c c' h) (hsame : Levels.SameAt k c.levels h) : Passes k c c' :=
  ⟨ht.core, ht.shape, fun _ hp => by rw [ht.levels]; exact hp.congr hsame⟩

theorem passes_foldl {α : Type} {k : BitVec 27} {f : Cpu PlainBus → α → Cpu PlainBus} (l : List α)
    (hf : ∀ c, Shape c → ∀ a ∈ l, Passes k c (f c a)) :
    ∀ c, Shape c → Passes k c (l.foldl f c) := by
  induction l with
  | nil => exact fun c hs => Passes.refl hs k
  | cons a l ih =>
      intro c hs
      have hstep := hf c hs a List.mem_cons_self
      exact hstep.trans (ih (fun d hd b hb => hf d hd b (List.mem_cons_of_mem a hb)) _ hstep.shape)

/-- Storing bytes of memory outside a block. -/
theorem busWrite_passes (hs : Shape c) {k : BitVec 27} (pa : U32) {len : ℕ} (hlen : AccessLen len)
    (v : U64) (hk : ∀ i < len, blkOf (pa + BitVec.ofNat 32 i) ≠ k) :
    Passes k c (c.busWrite pa len v) := by
  rw [busWrite_eq c pa hlen]
  refine (turns_setBus hs _).passes ⟨rfl, rfl, ?_⟩
  funext o
  show storeBytes c.bus.mem pa len v (byteAddr k o) = c.bus.mem (byteAddr k o)
  apply storeBytes_off
  intro i hi heq
  apply hk i hi
  rw [← heq, blkOf_byteAddr]

/-! ## The store -/

/-- The value at an address a store reaches. -/
theorem storeBytes_at (m : U32 → U8) (pa : U32) {len : ℕ} (hlen : len ≤ 2 ^ 32) (v : U64) {i : ℕ}
    (hi : i < len) : storeBytes m pa len v (pa + BitVec.ofNat 32 i) = byteBE len i v := by
  have hfold : ∀ n ≤ len, i < n →
      (List.range n).foldl (fun m i => Function.update m (pa + BitVec.ofNat 32 i) (byteBE len i v))
        m (pa + BitVec.ofNat 32 i) = byteBE len i v := by
    intro n
    induction n with
    | zero => exact fun _ h => absurd h (Nat.not_lt_zero i)
    | succ n ih =>
        intro hn hin
        rw [List.range_succ, List.foldl_append, List.foldl_cons, List.foldl_nil]
        by_cases heq : i = n
        · rw [heq, Function.update_self]
        · have hne : pa + BitVec.ofNat 32 i ≠ pa + BitVec.ofNat 32 n := by
            intro h
            have h' := congrArg BitVec.toNat h
            rw [BitVec.toNat_add, BitVec.toNat_add, BitVec.toNat_ofNat, BitVec.toNat_ofNat] at h'
            omega
          rw [Function.update_of_ne hne, ih (by omega) (by omega)]
  exact hfold len le_rfl hi

/-- The bytes merged into a line. -/
theorem merged_at (l : Line) {pa : U32} {n : ℕ} (hin : (blockOff pa).toNat + n ≤ 32) (v : U64)
    {i : ℕ} (hi : i < n) :
    lineStoreBE l (blockOff pa) n v (blockOff (pa + BitVec.ofNat 32 i)) = byteBE n i v := by
  have hflat := congrFun (lineStoreBE_eq (fun _ => l) v hin) (pa + BitVec.ofNat 32 i)
  rw [storeBytes_at _ _ (by omega) _ hi, flatOf, blkOf_add (by omega),
    Function.update_self] at hflat
  exact hflat

/-- A block's part of a write-through store: the L1's copy is merged, memory is written, and the L2
is left alone. -/
structure Merged (c c' : Cpu PlainBus) (pa : U32) (n : ℕ) (v : U64) : Prop where
  core : SameCore c c'
  shape : Shape c'
  far : c'.levels.far = c.levels.far
  near : ∀ k, c'.levels.near k = if k = blkOf pa
    then (c.levels.near k).map fun e => (lineStoreBE e.1 (blockOff pa) n v, e.2)
    else c.levels.near k
  mem : c'.bus.mem = storeBytes c.bus.mem pa n v

theorem memWriteBlock_merged (hs : Shape c) (pa : U32) {n : ℕ} (hn : AccessLen n) (v : U64)
    {wimg : U32} (hw : wimg &&& kWimgW ≠ 0#32) :
    Merged c (c.memWriteBlock pa n v wimg) pa n v := by
  obtain ⟨hturn, hsome, hnone⟩ := lineWay_spec hs pa
  obtain ⟨r, hr⟩ : ∃ r, c.lineWay pa = r := ⟨_, rfl⟩
  obtain ⟨way, c₁⟩ := r
  rw [hr] at hturn hsome hnone
  dsimp only at hturn hsome hnone
  -- the copy in the L1, if there is one
  have hline : ∃ c₂ h, c.memWriteBlock pa n v wimg = c₂.busWrite pa n v ∧ Turns c c₂ h
      ∧ h.far = c.levels.far ∧ c₂.bus = c₁.bus
      ∧ ∀ k, h.near k = if k = blkOf pa
          then (c.levels.near k).map fun e => (lineStoreBE e.1 (blockOff pa) n v, e.2)
          else c.levels.near k := by
    unfold memWriteBlock
    simp only [hr, if_pos hw]
    cases way with
    | some w =>
        obtain ⟨d, hentry⟩ := hsome w rfl
        have hnear := near_of_entry hturn.shape hentry
        have hset := turns_setDLine hturn.shape hentry
          { b := lineStoreBE (c₁.l1d (setOf pa) w).b (blockOff pa) n v,
            d := (c₁.l1d (setOf pa) w).d }
        rw [hturn.levels] at hnear hset
        refine ⟨_, _, rfl, hturn.trans hset, rfl, rfl, fun k => ?_⟩
        by_cases hk : k = blkOf pa
        · subst hk
          rw [if_pos rfl, hnear, (line_of_entry hentry).1, (line_of_entry hentry).2]
          exact Function.update_self _ _ _
        · rw [if_neg hk]
          exact Function.update_of_ne hk _ _
    | none =>
        refine ⟨_, _, rfl, hturn, rfl, rfl, fun k => ?_⟩
        by_cases hk : k = blkOf pa
        · subst hk
          have hnear := hnone rfl
          rw [hturn.levels] at hnear
          rw [if_pos rfl, hnear, Option.map_none]
        · rw [if_neg hk]
  obtain ⟨c₂, h, heq, hturn₂, hfar, hbus, hnear⟩ := hline
  have hmem : c₁.bus = c.bus := by
    have hway : (c.lineWay pa).2.bus = c.bus := by
      unfold lineWay
      cases c.lineWayQuiet pa <;> rfl
    rw [hr] at hway
    exact hway
  rw [heq, busWrite_eq c₂ pa hn]
  have hset := turns_setBus hturn₂.shape
    { c₂.bus with mem := storeBytes c₂.bus.mem pa n v }
  have hall := hturn₂.trans hset
  refine ⟨hall.core, hall.shape, ?_, ?_, ?_⟩
  · rw [hall.levels, hturn₂.levels]
    exact hfar
  · intro k
    rw [hall.levels, hturn₂.levels]
    exact hnear k
  · show storeBytes c₂.bus.mem pa n v = _
    rw [hbus, hmem]

/-- The stored bytes `is` are in memory and in the L1's copies; the L2, and which copies of the L1
are modified, are as they were. -/
structure Through (c c' : Cpu PlainBus) (pa : U32) (len : ℕ) (v : U64) (is : List ℕ) : Prop where
  core : SameCore c c'
  shape : Shape c'
  far : c'.levels.far = c.levels.far
  dirty : ∀ k, (c'.levels.near k).map Prod.snd = (c.levels.near k).map Prod.snd
  mem : ∀ i ∈ is, c'.bus.mem (pa + BitVec.ofNat 32 i) = byteBE len i v
  near : ∀ i ∈ is, ∀ l d, c'.levels.near (blkOf (pa + BitVec.ofNat 32 i)) = some (l, d) →
    l (blockOff (pa + BitVec.ofNat 32 i)) = byteBE len i v

theorem Merged.dirty {c' : Cpu PlainBus} {pa : U32} {n : ℕ} {v : U64} (h : Merged c c' pa n v)
    (k : BitVec 27) : (c'.levels.near k).map Prod.snd = (c.levels.near k).map Prod.snd := by
  rw [h.near]
  split
  · rw [Option.map_map]
    rfl
  · rfl

/-- The store inside one block. -/
theorem Merged.through {c' : Cpu PlainBus} {pa : U32} {n : ℕ} {v : U64} (h : Merged c c' pa n v)
    (hin : (blockOff pa).toNat + n ≤ 32) : Through c c' pa n v (List.range n) := by
  refine ⟨h.core, h.shape, h.far, h.dirty, fun i hi => ?_, fun i hi l d hl => ?_⟩
  · rw [h.mem, storeBytes_at _ _ (by omega) _ (List.mem_range.mp hi)]
  · have hi := List.mem_range.mp hi
    rw [blkOf_add (by omega), h.near, if_pos rfl] at hl
    obtain ⟨e, -, he⟩ := Option.map_eq_some_iff.mp hl
    rw [← (Prod.mk.inj he).1]
    exact merged_at e.1 hin v hi

/-- One byte more of a store that crosses a block. -/
theorem Through.byte {c₁ c₂ : Cpu PlainBus} {pa : U32} {len : ℕ} {v : U64} {is : List ℕ}
    (h : Through c c₁ pa len v is) {j : ℕ}
    (hb : Merged c₁ c₂ (pa + BitVec.ofNat 32 j) 1 ((byteBE len j v).setWidth 64))
    (hsame : ∀ i ∈ is, pa + BitVec.ofNat 32 i = pa + BitVec.ofNat 32 j → i = j) :
    Through c c₂ pa len v (is ++ [j]) := by
  obtain ⟨a, ha⟩ : ∃ a, pa + BitVec.ofNat 32 j = a := ⟨_, rfl⟩
  rw [ha] at hb hsame
  have hone : ∀ l : Line, lineStoreBE l (blockOff a) 1 ((byteBE len j v).setWidth 64)
      = Function.update l (blockOff a) (byteBE len j v) := by
    intro l
    have hbyte : byteBE 1 0 ((byteBE len j v).setWidth 64) = byteBE len j v := by
      simp [byteBE]
    simp [lineStoreBE, hbyte]
  have hmem : c₂.bus.mem = Function.update c₁.bus.mem a (byteBE len j v) := by
    rw [hb.mem, storeBytes_one]
  -- the byte itself, and any byte stored before it
  have hold : ∀ i ∈ is ++ [j], pa + BitVec.ofNat 32 i = a ∧ i = j
      ∨ pa + BitVec.ofNat 32 i ≠ a ∧ i ∈ is := by
    intro i hi
    by_cases hia : pa + BitVec.ofNat 32 i = a
    · refine Or.inl ⟨hia, ?_⟩
      rcases List.mem_append.mp hi with his | hij
      · exact hsame i his hia
      · exact List.mem_singleton.mp hij
    · refine Or.inr ⟨hia, (List.mem_append.mp hi).resolve_right fun hij => ?_⟩
      rw [List.mem_singleton.mp hij] at hia
      exact hia ha
  refine ⟨h.core.trans hb.core, hb.shape, hb.far.trans h.far,
    fun k => (hb.dirty k).trans (h.dirty k), fun i hi => ?_, fun i hi l d hl => ?_⟩
  · rw [hmem]
    rcases hold i hi with ⟨hia, hij⟩ | ⟨hia, his⟩
    · rw [hia, Function.update_self, hij]
    · rw [Function.update_of_ne hia]
      exact h.mem i his
  · rw [hb.near] at hl
    rcases hold i hi with ⟨hia, hij⟩ | ⟨hia, his⟩
    · rw [hia, if_pos rfl] at hl
      obtain ⟨e, -, he⟩ := Option.map_eq_some_iff.mp hl
      rw [← (Prod.mk.inj he).1, hone, hia, Function.update_self, hij]
    · by_cases hk : blkOf (pa + BitVec.ofNat 32 i) = blkOf a
      · rw [if_pos hk] at hl
        obtain ⟨e, hnear, he⟩ := Option.map_eq_some_iff.mp hl
        have hoff : blockOff (pa + BitVec.ofNat 32 i) ≠ blockOff a :=
          fun ho => hia (eq_of_blkOf_blockOff hk ho)
        rw [← (Prod.mk.inj he).1, hone, Function.update_of_ne hoff]
        exact h.near i his e.1 e.2 hnear
      · rw [if_neg hk] at hl
        exact h.near i his l d hl

theorem Turns.through {c' : Cpu PlainBus} {pa : U32} {len : ℕ} {v : U64}
    (ht : Turns c c' c.levels) : Through c c' pa len v [] :=
  ⟨ht.core, ht.shape, by rw [ht.levels], fun k => by rw [ht.levels], by simp, by simp⟩

/-- Dropping fetch blocks in between. -/
theorem Through.turns {c₁ c₂ : Cpu PlainBus} {pa : U32} {len : ℕ} {v : U64} {is : List ℕ}
    (h : Through c c₁ pa len v is) (ht : Turns c₁ c₂ c₁.levels) : Through c c₂ pa len v is := by
  have hmem : ∀ a, c₂.bus.mem a = c₁.bus.mem a := by
    intro a
    have hline := congrFun (congrFun (congrArg Levels.mem ht.levels) (blkOf a)) (blockOff a)
    change memLine c₂.bus (blkOf a) (blockOff a) = memLine c₁.bus (blkOf a) (blockOff a) at hline
    rw [memLine, memLine, byteAddr_blkOf] at hline
    exact hline
  refine ⟨h.core.trans ht.core, ht.shape, ?_, ?_, ?_, ?_⟩
  · rw [ht.levels]; exact h.far
  · rw [ht.levels]; exact h.dirty
  · intro i hi
    rw [hmem]
    exact h.mem i hi
  · rw [ht.levels]; exact h.near

/-- A store that crosses a block, byte by byte. -/
theorem memWrite_bytes_through {pa : U32} {len : ℕ} (hlen : len ≤ 8) (v : U64) {wimg : U32}
    (hw : wimg &&& kWimgW ≠ 0#32) (js : List ℕ) :
    ∀ (c₁ : Cpu PlainBus) (is : List ℕ), Through c c₁ pa len v is → (∀ i ∈ is ++ js, i < len) →
      Through c (js.foldl (memWriteByte pa len v wimg) c₁) pa len v (is ++ js) := by
  induction js with
  | nil =>
      intro c₁ is h _
      rw [List.append_nil]
      exact h
  | cons j js ih =>
      intro c₁ is h hlt
      have hdrop := turns_fetchDropRange h.shape (pa + BitVec.ofNat 32 j) 1
      have hbyte := memWriteBlock_merged hdrop.shape (pa + BitVec.ofNat 32 j) (Or.inl rfl)
        ((byteBE len j v).setWidth 64) hw
      have hnext := (h.turns hdrop).byte hbyte fun i hi heq => by
        have hi' := hlt i (List.mem_append_left _ hi)
        have hj' := hlt j (List.mem_append_right _ List.mem_cons_self)
        have heq' := congrArg BitVec.toNat heq
        rw [BitVec.toNat_add, BitVec.toNat_add, BitVec.toNat_ofNat, BitVec.toNat_ofNat] at heq'
        omega
      have happ : is ++ j :: js = (is ++ [j]) ++ js := by simp
      rw [happ, List.foldl_cons]
      exact ih _ _ hnext (by rw [← happ]; exact hlt)

/-- **The write-through store**, whatever the levels held. -/
theorem memWrite_through (hs : Shape c) (hdce : c.dceOn = true) (pa : U32) {len : ℕ}
    (hlen : AccessLen len) (v : U64) {wimg : U32} (hw : wimg &&& kWimgW ≠ 0#32)
    (hi : wimg &&& kWimgI = 0#32) :
    Through c (c.memWrite pa len v wimg) pa len v (List.range len) := by
  have hdrop := turns_fetchDropRange hs pa len
  have hbypass : (c.fetchDropRange pa len).bypasses wimg = false := by
    rw [bypasses_eq _ hi, hdrop.core.dceOn, hdce]
    rfl
  have hstart : Through c (c.fetchDropRange pa len) pa len v [] := hdrop.through
  unfold memWrite
  simp only [hbypass, Bool.false_eq_true, if_false]
  by_cases hcross : crosses pa len = true
  · rw [if_pos hcross]
    have h8 : len ≤ 8 := by
      unfold AccessLen at hlen
      omega
    exact memWrite_bytes_through h8 v hw (List.range len) _ [] hstart
      fun i hi => by simpa using hi
  · rw [if_neg hcross]
    have hin : (blockOff pa).toNat + len ≤ 32 := by
      unfold crosses at hcross
      rw [decide_eq_true_iff] at hcross
      omega
    have hblock := (memWriteBlock_merged hdrop.shape pa hlen v hw).through hin
    refine ⟨hdrop.core.trans hblock.core, hblock.shape, ?_, ?_, hblock.mem, hblock.near⟩
    · rw [hblock.far, hdrop.levels]
    · intro k
      rw [hblock.dirty, hdrop.levels]

/-- A stored byte is shown just where no older copy is in the way of it. -/
theorem Through.shown_iff {c' : Cpu PlainBus} {pa : U32} {len : ℕ} {v : U64}
    (h : Through c c' pa len v (List.range len)) {i : ℕ} (hi : i < len) :
    Levels.Shown (blkOf (pa + BitVec.ofNat 32 i))
        (fun l => l (blockOff (pa + BitVec.ofNat 32 i)) = byteBE len i v) c'.levels
      ↔ (∃ l, c.levels.near (blkOf (pa + BitVec.ofNat 32 i)) = some (l, true))
        ∨ ∀ l d, c.levels.far (blkOf (pa + BitVec.ofNat 32 i)) = some (l, d) →
          l (blockOff (pa + BitVec.ofNat 32 i)) = byteBE len i v := by
  have hmem := h.mem i (List.mem_range.mpr hi)
  have hnear := h.near i (List.mem_range.mpr hi)
  obtain ⟨a, ha⟩ : ∃ a, pa + BitVec.ofNat 32 i = a := ⟨_, rfl⟩
  rw [ha] at hmem hnear ⊢
  have hline : c'.levels.mem (blkOf a) (blockOff a) = byteBE len i v := by
    show memLine c'.bus (blkOf a) (blockOff a) = _
    rw [memLine, byteAddr_blkOf, hmem]
  have hmodified : (∃ l, c'.levels.near (blkOf a) = some (l, true))
      ↔ ∃ l, c.levels.near (blkOf a) = some (l, true) := by
    have hdirty := h.dirty (blkOf a)
    have hsnd : ∀ e : Option (Line × Bool),
        (∃ l, e = some (l, true)) ↔ e.map Prod.snd = some true := by
      rintro (_ | ⟨l, d⟩) <;> simp
    rw [hsnd, hsnd, hdirty]
  constructor
  · rintro ⟨-, hbelow⟩
    rw [hmodified, h.far] at hbelow
    exact hbelow.imp_right And.left
  · intro hcond
    refine ⟨hnear, ?_⟩
    rw [hmodified, h.far]
    exact hcond.imp_right fun hfar => ⟨hfar, Or.inr hline⟩

/-- The same of the two arrays. -/
theorem unskewed_iff (hs : Shape c) (a : U32) (b : U8) :
    c.Unskewed a b ↔ (∃ l, c.levels.near (blkOf a) = some (l, true))
      ∨ ∀ l d, c.levels.far (blkOf a) = some (l, d) → l (blockOff a) = b := by
  have hnear : (∃ w, c.lineWayQuiet a = some w ∧ (c.l1d (setOf a) w).d = true)
      ↔ ∃ l, c.levels.near (blkOf a) = some (l, true) := by
    cases hway : c.lineWayQuiet a with
    | none =>
        rw [lineWayQuiet_none hs hway]
        simp
    | some w =>
        rw [near_of_entry hs (lineWayQuiet_some hs hway)]
        simp
  have hfar : (if c.l2On then c.l2Line (blkOf a) else none)
      = (c.levels.far (blkOf a)).map Prod.fst := by
    rcases usable_or c with hu | ⟨hon, hsets, hinert⟩
    · rw [far_none_of_unusable hs hu, Option.map_none]
      rcases hu with hoff | hzero | hinert
      · rw [hoff]
        rfl
      · rw [l2Line, if_pos (Or.inl hzero), ite_self]
      · rw [l2Line, if_pos (Or.inr hinert), ite_self]
    · rw [if_pos hon, l2Line, if_neg (by simp [hsets, hinert])]
      cases hway : c.l2Way (blkAddr (blkOf a)) with
      | none =>
          have hno := l2Way_none hs hway
          rw [blkOf_blkAddr] at hno
          rw [show c.levels.far (blkOf a) = none from
            (lookup_eq_none_iff hs.l2Distinct _).mpr hno]
          rfl
      | some i =>
          have hentry := l2Way_some hs hway
          rw [blkOf_blkAddr] at hentry
          rw [far_of_entry hs hentry]
          rfl
  rw [Unskewed, hnear, hfar]
  refine or_congr_right ⟨fun h l d hl => h l (by rw [hl]; rfl), fun h l hl => ?_⟩
  obtain ⟨e, he, rfl⟩ := Option.map_eq_some_iff.mp hl
  exact h e.1 e.2 he

/-! ## What comes after it -/

/-- A read moves data and no more. -/
theorem memReadBytes_shifts (pa : U32) (l : List ℕ) : ∀ (c : Cpu PlainBus) (v : U64), Shape c →
    Shifts (fun _ => True) c (l.foldl (memReadByte pa) (v, c)).2 := by
  induction l with
  | nil => exact fun c v hs => Shifts.refl hs
  | cons i l ih =>
      intro c v hs
      have hstep := (memReadBlock_shifts hs (blockOff_lt (pa + BitVec.ofNat 32 i))).1
      exact (hstep.mono fun _ _ => trivial).trans (ih _ _ hstep.shape)

theorem memRead_shifts (hs : Shape c) (pa : U32) (len : ℕ) (wimg : U32) :
    Shifts (fun _ => True) c (c.memRead pa len wimg).2 := by
  unfold memRead
  by_cases hbypass : c.bypasses wimg = true
  · rw [if_pos hbypass, busRead_snd]
    exact Shifts.refl hs
  · rw [if_neg hbypass]
    split
    · exact memReadBytes_shifts pa _ c 0#64 hs
    · have hin : (blockOff pa).toNat + len ≤ 32 := by
        rename_i hcross
        unfold crosses at hcross
        rw [decide_eq_true_iff] at hcross
        omega
      exact (memReadBlock_shifts hs hin).1.mono fun _ _ => trivial

/-- A store of bytes outside a block passes it by, through whatever page. -/
theorem memWriteBlock_passes (hs : Shape c) {k : BitVec 27} (pa : U32) {len : ℕ}
    (hlen : AccessLen len) (hin : (blockOff pa).toNat + len ≤ 32) (v : U64) (wimg : U32)
    (hk : blkOf pa ≠ k) : Passes k c (c.memWriteBlock pa len v wimg) := by
  by_cases hw : wimg &&& kWimgW = 0#32
  · obtain ⟨c₁, hshifts, hturn⟩ := memWriteBlock_shifts hs pa len v hw
    exact (hshifts.passes k).trans (hturn.passes (Levels.sameAt_setNear (Ne.symm hk) _))
  · have hmerged := memWriteBlock_merged hs pa hlen v hw
    refine ⟨hmerged.core, hmerged.shape, fun p hp => hp.congr ⟨?_, ?_, ?_⟩⟩
    · rw [hmerged.near, if_neg (Ne.symm hk)]
    · rw [hmerged.far]
    · funext o
      show (c.memWriteBlock pa len v wimg).bus.mem (byteAddr k o) = c.bus.mem (byteAddr k o)
      rw [hmerged.mem]
      apply storeBytes_off
      intro i hi heq
      apply hk
      rw [← blkOf_byteAddr k o, heq, blkOf_add (by omega)]

theorem memWrite_passes (hs : Shape c) {k : BitVec 27} (pa : U32) {len : ℕ} (hlen : AccessLen len)
    (v : U64) (wimg : U32) (hk : ∀ i < len, blkOf (pa + BitVec.ofNat 32 i) ≠ k) :
    Passes k c (c.memWrite pa len v wimg) := by
  have hdropped : ∀ {c : Cpu PlainBus}, Shape c → ∀ pa len, Passes k c (c.fetchDropRange pa len) :=
    fun hs pa len => (turns_fetchDropRange hs pa len).passes ⟨rfl, rfl, rfl⟩
  refine (hdropped hs pa len).trans ?_
  obtain ⟨c₁, hc₁⟩ : ∃ c₁, c.fetchDropRange pa len = c₁ := ⟨_, rfl⟩
  have hs₁ : Shape c₁ := by rw [← hc₁]; exact (hdropped hs pa len).shape
  unfold memWrite
  simp only [hc₁]
  split
  · exact busWrite_passes hs₁ pa hlen v hk
  · split
    · refine passes_foldl _ (fun d hd i hi => ?_) c₁ hs₁
      exact (hdropped hd _ 1).trans (memWriteBlock_passes (hdropped hd _ 1).shape _ (Or.inl rfl)
        (blockOff_lt _) _ wimg (hk i (List.mem_range.mp hi)))
    · rename_i hcross
      unfold crosses at hcross
      rw [decide_eq_true_iff] at hcross
      have hpos : 0 < len := by
        unfold AccessLen at hlen
        omega
      have hfirst := hk 0 hpos
      rw [show pa + BitVec.ofNat 32 0 = pa by simp] at hfirst
      exact memWriteBlock_passes hs₁ pa hlen (by omega) v wimg hfirst

/-- **One operation** passes by a block it spares. -/
theorem exec_passes (hs : Shape c) {k : BitVec 27} (op : LaterOp) (hop : op.Spares k) :
    Passes k c (op.exec c) := by
  cases op with
  | load pa len wimg => exact (memRead_shifts hs pa len wimg).passes k
  | store pa len v wimg => exact memWrite_passes hs pa hop.1 v wimg hop.2
  | dcbz pa =>
      obtain ⟨c₁, hshifts, hturn⟩ := dcbzLine_shifts hs pa
      exact (hshifts.passes k).trans (hturn.passes (Levels.sameAt_setNear (Ne.symm hop) _))
  | dcbClean pa invalidate => exact (dcbClean_shifts hs pa invalidate).passes k
  | dcbKill pa =>
      exact (dcbKill_turns hs pa).passes ((Levels.sameAt_setNear (Ne.symm hop) _).trans
        (Levels.sameAt_setFar (Ne.symm hop) _))

/-- **A run** of them passes it by. -/
theorem run_passes (hs : Shape c) {k : BitVec 27} (ops : List LaterOp)
    (hops : ∀ op ∈ ops, op.Spares k) : Passes k c (runLater c ops) :=
  passes_foldl ops (fun _ hd op hop => exec_passes hd op (hops op hop)) c hs

/-! ## What a load finds -/

/-- The bytes of a value, assembled. -/
theorem ofBytesBE_byteBE {len i : ℕ} (hlen : len ≤ 8) (v : U64) : ∀ n, i + n ≤ len →
    ofBytesBE ((List.range n).map fun j => byteBE len (i + j) v) = bytesOf len i n v := by
  have hnat : ∀ n, (bytesOf len i n v).toNat = v.toNat / 2 ^ (8 * (len - (i + n))) % 2 ^ (8 * n)
      ∨ 8 < n := by
    intro n
    by_cases hn : 8 < n
    · exact Or.inr hn
    · left
      have hpow : 2 ^ (8 * n) ≤ 2 ^ 64 := Nat.pow_le_pow_right (by decide) (by omega)
      rw [bytesOf, BitVec.toNat_setWidth, BitVec.toNat_setWidth, BitVec.toNat_ushiftRight,
        Nat.shiftRight_eq_div_pow,
        Nat.mod_eq_of_lt ((Nat.mod_lt _ (Nat.two_pow_pos _)).trans_le hpow)]
  intro n
  induction n with
  | zero =>
      intro _
      apply BitVec.eq_of_toNat_eq
      rw [(hnat 0).resolve_right (by omega), Nat.mul_zero, Nat.pow_zero, Nat.mod_one]
      rfl
  | succ n ih =>
      intro hn
      have hprev := (hnat n).resolve_right (by omega)
      have hsmall : (bytesOf len i n v).toNat < 2 ^ 56 := by
        rw [hprev]
        exact (Nat.mod_lt _ (Nat.two_pow_pos _)).trans_le
          (Nat.pow_le_pow_right (by decide) (by omega))
      have hnext := ih (by omega)
      rw [List.range_succ, List.map_append, List.map_cons, List.map_nil]
      apply BitVec.eq_of_toNat_eq
      rw [ofBytesBE_toNat _ _ (by rw [hnext]; exact hsmall), hnext, hprev,
        (hnat (n + 1)).resolve_right (by omega)]
      -- one digit more, from the quotient by the digits below it
      obtain ⟨y, hy⟩ : ∃ y, v.toNat / 2 ^ (8 * (len - (i + (n + 1)))) = y := ⟨_, rfl⟩
      have hbyte : (byteBE len (i + n) v).toNat = y % 256 := by
        rw [byteBE, BitVec.toNat_setWidth, BitVec.toNat_ushiftRight, Nat.shiftRight_eq_div_pow,
          ← hy, show len - 1 - (i + n) = len - (i + (n + 1)) by omega]
      have hquot : v.toNat / 2 ^ (8 * (len - (i + n))) = y / 256 := by
        rw [← hy, Nat.div_div_eq_div_mul, show 256 = 2 ^ 8 from rfl, ← Nat.pow_add,
          show 8 * (len - (i + (n + 1))) + 8 = 8 * (len - (i + n)) by omega]
      rw [hbyte, hquot, hy, show 8 * (n + 1) = 8 + 8 * n by omega, Nat.pow_add, Nat.mod_mul]
      show y / 256 % 2 ^ (8 * n) * 256 + y % 256 = y % 256 + 256 * (y / 256 % 2 ^ (8 * n))
      rw [Nat.add_comm, Nat.mul_comm]

/-- A load of bytes that are shown answers them. -/
theorem memRead_shown (hs : Shape c) (hdce : c.dceOn = true) (pa : U32) (n : ℕ) {wimg : U32}
    (hi : wimg &&& kWimgI = 0#32) (b : ℕ → U8)
    (hshown : ∀ j < n, Levels.Shown (blkOf (pa + BitVec.ofNat 32 j))
      (fun l => l (blockOff (pa + BitVec.ofNat 32 j)) = b j) c.levels) :
    (c.memRead pa n wimg).1 = ofBytesBE ((List.range n).map b) := by
  have hbypass : c.bypasses wimg = false := by
    rw [bypasses_eq _ hi, hdce]
    rfl
  unfold memRead
  rw [if_neg (by rw [hbypass]; simp)]
  by_cases hcross : crosses pa n = true
  · rw [if_pos hcross]
    have hbytes : ∀ (l : List ℕ) (d : Cpu PlainBus) (v : U64), Shape d →
        (∀ j ∈ l, Levels.Shown (blkOf (pa + BitVec.ofNat 32 j))
          (fun l => l (blockOff (pa + BitVec.ofNat 32 j)) = b j) d.levels) →
        (l.foldl (memReadByte pa) (v, d)).1
          = (l.map b).foldl (fun (v : U64) (x : U8) => (v <<< 8) ||| x.setWidth 64) v := by
      intro l
      induction l with
      | nil => exact fun _ _ _ _ => rfl
      | cons j l ih =>
          intro d v hd hl
          obtain ⟨hshifts, hval⟩ := memReadBlock_shifts hd (blockOff_lt (pa + BitVec.ofNat 32 j))
          have hbyte : (d.memReadBlock (pa + BitVec.ofNat 32 j) 1).1 = (b j).setWidth 64 := by
            rw [hval, loadBytes_one]
            exact congrArg _ ((hl j List.mem_cons_self).flows hshifts.flows).view
          rw [List.foldl_cons, List.map_cons, List.foldl_cons, ← hbyte]
          exact ih _ _ hshifts.shape fun x hx =>
            (hl x (List.mem_cons_of_mem j hx)).flows hshifts.flows
    exact hbytes (List.range n) c 0#64 hs fun j hj => hshown j (List.mem_range.mp hj)
  · rw [if_neg hcross]
    have hin : (blockOff pa).toNat + n ≤ 32 := by
      unfold crosses at hcross
      rw [decide_eq_true_iff] at hcross
      omega
    obtain ⟨hshifts, hval⟩ := memReadBlock_shifts hs hin
    rw [hval, loadBytes]
    congr 1
    apply List.map_congr_left
    intro j hj
    exact ((hshown j (List.mem_range.mp hj)).flows hshifts.flows).view

/-- A load of a block that the L1 does not hold, where its set has room, answers the L2's copy. -/
theorem memRead_far (hs : Shape c) (hdce : c.dceOn = true) {a : U32} {wimg : U32}
    (hi : wimg &&& kWimgI = 0#32) {w : Fin 8} (hroom : invalidWay (c.l1x (setOf a)) = some w)
    (hnear : c.levels.near (blkOf a) = none) {l : Line} {d : Bool}
    (hfar : c.levels.far (blkOf a) = some (l, d)) :
    (c.memRead a 1 wimg).1 = (l (blockOff a)).setWidth 64 := by
  have hbypass : c.bypasses wimg = false := by
    rw [bypasses_eq _ hi, hdce]
    rfl
  have hcross : crosses a 1 = false := by
    have := (blockOff a).isLt
    unfold crosses
    rw [decide_eq_false_iff_not]
    omega
  have hway : c.lineWayQuiet a = none := by
    rcases hway : c.lineWayQuiet a with _ | w'
    · rfl
    · rw [near_of_entry hs (lineWayQuiet_some hs hway)] at hnear
      exact absurd hnear (by simp)
  obtain ⟨-, hentry⟩ := lineFill_spec hs (invalidWay_some hroom) hnear
  have hline := (line_of_entry hentry).1
  rw [Levels.below_of_far hfar] at hline
  unfold memRead
  rw [if_neg (by rw [hbypass]; simp), if_neg (by rw [hcross]; simp)]
  unfold memReadBlock lineAlloc
  simp only [lineWay_of_none hway, lineVictim_of_invalid hroom]
  show lineLoadBE ((c.lineFill (setOf a) w a).l1d (setOf a) w).b (blockOff a) 1 = _
  rw [hline]
  simp [lineLoadBE, ofBytesBE]

/-! ## Making room -/

theorem room_of_entry {s : BitVec 7} {w : Fin 8} (h : c.l1Entry (s, w) = none) :
    ∃ w', invalidWay (c.l1x s) = some w' := by
  rcases hroom : invalidWay (c.l1x s) with _ | w'
  · obtain ⟨k, e, hentry⟩ := invalidWay_none hroom w
    rw [h] at hentry
    exact absurd hentry (by simp)
  · exact ⟨w', rfl⟩

/-- The block is in the L2 alone, and its L1 set has room: a load casts nothing out that could take
the place of the L2's copy. -/
structure Exposed (c : Cpu PlainBus) (a : U32) (e : Line × Bool) : Prop where
  shape : Shape c
  near : c.levels.near (blkOf a) = none
  far : c.levels.far (blkOf a) = some e
  room : ∃ w, invalidWay (c.l1x (setOf a)) = some w

/-- `dcbf` of a block the L1 holds unmodified. -/
theorem exposed_dcbClean (hs : Shape c) {a : U32} {l : Line} {e : Line × Bool}
    (hnear : c.levels.near (blkOf a) = some (l, false)) (hfar : c.levels.far (blkOf a) = some e) :
    Exposed (c.dcbClean a true) a e ∧ SameCore c (c.dcbClean a true) := by
  have hdrop := turns_fetchDropAt hs a
  obtain ⟨c₀, hc₀⟩ : ∃ c₀, c.fetchDropAt a = c₀ := ⟨_, rfl⟩
  rw [hc₀] at hdrop
  obtain ⟨hturn, hsome, hnone⟩ := lineWay_spec hdrop.shape a
  obtain ⟨r, hr⟩ : ∃ r, c₀.lineWay a = r := ⟨_, rfl⟩
  obtain ⟨way, c₁⟩ := r
  rw [hr, hdrop.levels] at hturn
  rw [hr] at hsome hnone
  have hfirst := hdrop.trans hturn
  cases way with
  | none =>
      have habsent := hnone rfl
      rw [hturn.levels, hnear] at habsent
      exact absurd habsent (by simp)
  | some w =>
      obtain ⟨d, hentry⟩ := hsome w rfl
      have hclean : d = false := by
        have hnear₁ := near_of_entry hturn.shape hentry
        rw [hturn.levels, hnear, Option.some.injEq, Prod.mk.injEq] at hnear₁
        exact hnear₁.2.symm
      have heq : c.dcbClean a true = c₁.setTv (setOf a) w 0#32 := by
        have hd : (c₁.l1d (setOf a) w).d = false := (line_of_entry hentry).2.trans hclean
        unfold dcbClean
        simp only [hc₀, hr, if_true]
        rw [if_neg (by rw [hd]; simp)]
      have hclear := turns_clearWay hturn.shape hentry
      rw [hturn.levels] at hclear
      have hempty : (c₁.setTv (setOf a) w 0#32).l1Entry (setOf a, w) = none := by
        rw [l1Entry_setTv, wayEntry_zero, Function.update_self]
      rw [heq]
      refine ⟨⟨hclear.shape, ?_, ?_, room_of_entry hempty⟩, (hfirst.trans hclear).core⟩
      · rw [hclear.levels]
        exact Function.update_self _ _ _
      · rw [hclear.levels]
        exact hfar

/-- `dcbi` of a block of the same set, where it has no room. -/
theorem exposed_dcbKill (hs : Shape c) {a : U32} {e : Line × Bool}
    (hnear : c.levels.near (blkOf a) = none) (hfar : c.levels.far (blkOf a) = some e)
    (hfull : invalidWay (c.l1x (setOf a)) = none) :
    ∃ k, k ≠ blkOf a ∧ setOf (blkAddr k) = setOf a ∧ Exposed (c.dcbKill (blkAddr k)) a e
      ∧ SameCore c (c.dcbKill (blkAddr k)) := by
  obtain ⟨k, e₀, hentry⟩ := invalidWay_none hfull 0
  have hkk : blkOf (blkAddr k) = k := blkOf_blkAddr k
  have hk : k ≠ blkOf a := by
    rintro rfl
    rw [near_of_entry hs hentry] at hnear
    exact absurd hnear (by simp)
  have hset : setOf (blkAddr k) = setOf a := by
    have hentry' := hentry
    rw [← hkk] at hentry'
    exact ((l1Entry_eq_some_iff hs _ (blkAddr k) e₀).mp hentry').1.symm
  have hkill := dcbKill_turns hs (blkAddr k)
  rw [hkk] at hkill
  refine ⟨k, hk, hset, ⟨hkill.shape, ?_, ?_, ?_⟩, hkill.core⟩
  · rw [hkill.levels]
    show Function.update c.levels.near k none (blkOf a) = none
    rw [Function.update_of_ne (Ne.symm hk), hnear]
  · rw [hkill.levels]
    show Function.update c.levels.far k none (blkOf a) = some e
    rw [Function.update_of_ne (Ne.symm hk), hfar]
  · -- the way it was found in is empty now
    have hdrop := turns_fetchDropAt hs (blkAddr k)
    obtain ⟨c₀, hc₀⟩ : ∃ c₀, c.fetchDropAt (blkAddr k) = c₀ := ⟨_, rfl⟩
    rw [hc₀] at hdrop
    obtain ⟨hturn, hsome, hnone⟩ := lineWay_spec hdrop.shape (blkAddr k)
    obtain ⟨r, hr⟩ : ∃ r, c₀.lineWay (blkAddr k) = r := ⟨_, rfl⟩
    obtain ⟨way, c₁⟩ := r
    rw [hr, hdrop.levels] at hturn
    rw [hr] at hsome hnone
    cases way with
    | none =>
        have habsent := hnone rfl
        rw [hturn.levels, hkk, near_of_entry hs hentry] at habsent
        exact absurd habsent (by simp)
    | some w =>
        have heq : c.dcbKill (blkAddr k)
            = (c₁.setTv (setOf (blkAddr k)) w 0#32).l2Invalidate (blockBase (blkAddr k)) := by
          unfold dcbKill
          simp only [hc₀, hr]
        obtain ⟨d, hent⟩ := hsome w rfl
        have hclear := turns_clearWay hturn.shape hent
        have hsame := (l2Invalidate_spec hclear.shape k).2
        rw [heq, blockBase_blkAddr]
        apply room_of_entry (w := w)
        rw [hsame.l1Entry, l1Entry_setTv, wayEntry_zero, hset, Function.update_self]

/-! ## The theorem -/

theorem add_ofNat (pa : U32) (i j : ℕ) :
    pa + BitVec.ofNat 32 i + BitVec.ofNat 32 j = pa + BitVec.ofNat 32 (i + j) := by
  rw [BitVec.add_assoc, BitVec.ofNat_add]

/-- The blocks a store reaches lie in sets of their own. -/
theorem blkOf_eq_of_setOf (pa : U32) {i j : ℕ} (hi : i < 8) (hj : j < 8)
    (h : setOf (pa + BitVec.ofNat 32 j) = setOf (pa + BitVec.ofNat 32 i)) :
    blkOf (pa + BitVec.ofNat 32 j) = blkOf (pa + BitVec.ofNat 32 i) := by
  have hset := congrArg BitVec.toNat h
  apply BitVec.eq_of_toNat_eq
  rw [setOf_toNat, setOf_toNat] at hset
  rw [blkOf_toNat, blkOf_toNat]
  have hadd : ∀ n < 8, (pa + BitVec.ofNat 32 n).toNat = (pa.toNat + n) % 2 ^ 32 := by
    intro n hn
    rw [BitVec.toNat_add, BitVec.toNat_ofNat, Nat.mod_eq_of_lt (show n < 2 ^ 32 by omega)]
  rw [hadd i hi, hadd j hj] at hset ⊢
  omega

/-- With no older copy in the way, every stored byte is shown and every load answers it. -/
theorem seen_of_unskewed (hs : Shape c) (hdce : c.dceOn = true) (pa : U32) {len : ℕ}
    (hlen : AccessLen len) (v : U64) {wimg : U32} (hw : wimg &&& kWimgW ≠ 0#32)
    (hi : wimg &&& kWimgI = 0#32)
    (hclear : ∀ i < len, c.Unskewed (pa + BitVec.ofNat 32 i) (byteBE len i v)) :
    Seen c pa len v wimg := by
  have hthrough := memWrite_through hs hdce pa hlen v hw hi
  have h8 : len ≤ 8 := by
    unfold AccessLen at hlen
    omega
  refine ⟨fun i hlt => hthrough.mem i (List.mem_range.mpr hlt), ?_⟩
  intro ops hops i n wimg' hin hi'
  rw [← ofBytesBE_byteBE h8 v n hin]
  have hrun := fun k (hk : ∀ op ∈ ops, op.Spares k) => run_passes hthrough.shape ops hk
  rcases Nat.eq_zero_or_pos n with rfl | hpos
  · have hspare : ∀ op ∈ ops, op.Spares (blkOf (pa + BitVec.ofNat 32 0)) := by
      intro op hop
      apply hops op hop 0
      unfold AccessLen at hlen
      omega
    have hpass := hrun _ hspare
    exact memRead_shown hpass.shape (by rw [hpass.core.dceOn, hthrough.core.dceOn, hdce]) _ 0 hi'
      _ fun j hj => absurd hj (Nat.not_lt_zero j)
  · have hfirst := hrun _ fun op hop => hops op hop i (by omega)
    apply memRead_shown hfirst.shape
      (by rw [hfirst.core.dceOn, hthrough.core.dceOn, hdce]) _ n hi'
    intro j hj
    rw [add_ofNat]
    have hpass := hrun _ fun op hop => hops op hop (i + j) (by omega)
    apply hpass.shown
    rw [hthrough.shown_iff (show i + j < len by omega)]
    exact (unskewed_iff hs _ _).mp (hclear (i + j) (by omega))

/-- A run after which a load finds the L2's copy, where the L1 has none or an unmodified one. -/
theorem exists_exposed (hs : Shape c) (pa : U32) {i : ℕ} (hi : i < 8) {e : Line × Bool}
    (hclean : ∀ l, c.levels.near (blkOf (pa + BitVec.ofNat 32 i)) ≠ some (l, true))
    (hfar : c.levels.far (blkOf (pa + BitVec.ofNat 32 i)) = some e) :
    ∃ ops : List LaterOp, (∀ op ∈ ops, ∀ j < 8, op.Spares (blkOf (pa + BitVec.ofNat 32 j)))
      ∧ Exposed (runLater c ops) (pa + BitVec.ofNat 32 i) e ∧ SameCore c (runLater c ops) := by
  obtain ⟨a, ha⟩ : ∃ a, pa + BitVec.ofNat 32 i = a := ⟨_, rfl⟩
  rw [ha] at hclean hfar ⊢
  rcases hnear : c.levels.near (blkOf a) with _ | ⟨l, d⟩
  · rcases hroom : invalidWay (c.l1x (setOf a)) with _ | w
    · -- a block of a full set is discarded, and it is none of the store's
      obtain ⟨k, hk, hset, hex, hcore⟩ := exposed_dcbKill hs hnear hfar hroom
      refine ⟨[.dcbKill (blkAddr k)], ?_, hex, hcore⟩
      intro op hop j hj
      rw [List.mem_singleton.mp hop]
      show blkOf (blkAddr k) ≠ _
      rw [blkOf_blkAddr]
      intro heq
      apply hk
      rw [heq, ← ha]
      apply blkOf_eq_of_setOf pa hi hj
      rw [← setOf_blkAddr, ← heq, hset, ha]
    · exact ⟨[], by simp, ⟨hs, hnear, hfar, w, hroom⟩, SameCore.refl c⟩
  · cases d with
    | true => exact absurd hnear (hclean l)
    | false =>
        obtain ⟨hex, hcore⟩ := exposed_dcbClean hs hnear hfar
        refine ⟨[.dcbClean a true], ?_, hex, hcore⟩
        intro op hop j hj
        rw [List.mem_singleton.mp hop]
        exact trivial

/-- With an older copy in the way of a byte, some run ends in a load of that copy. -/
theorem unskewed_of_seen (hs : Shape c) (hdce : c.dceOn = true) (pa : U32) {len : ℕ}
    (hlen : AccessLen len) (v : U64) {wimg : U32} (hw : wimg &&& kWimgW ≠ 0#32)
    (hi : wimg &&& kWimgI = 0#32) (hseen : Seen c pa len v wimg) {i : ℕ} (hlt : i < len) :
    c.Unskewed (pa + BitVec.ofNat 32 i) (byteBE len i v) := by
  have hthrough := memWrite_through hs hdce pa hlen v hw hi
  have h8 : len ≤ 8 := by
    unfold AccessLen at hlen
    omega
  rw [unskewed_iff hs]
  by_contra hcond
  rw [not_or] at hcond
  obtain ⟨hmodified, hstale⟩ := hcond
  push Not at hstale
  obtain ⟨l, d, hfar, hne⟩ := hstale
  rw [← hthrough.far] at hfar
  -- the store leaves the L1's copy as clean as it was
  have hclean : ∀ l, (c.memWrite pa len v wimg).levels.near (blkOf (pa + BitVec.ofNat 32 i))
      ≠ some (l, true) := by
    intro l hl
    have hdirty := hthrough.dirty (blkOf (pa + BitVec.ofNat 32 i))
    rw [hl, Option.map_some] at hdirty
    obtain ⟨e, he, hd⟩ := Option.map_eq_some_iff.mp hdirty.symm
    apply hmodified
    exact ⟨e.1, by rw [he, show e = (e.1, true) from Prod.ext rfl hd]⟩
  obtain ⟨ops, hops, hex, hcore⟩ := exists_exposed hthrough.shape pa (by omega) hclean hfar
  obtain ⟨w, hroom⟩ := hex.room
  have hval := memRead_far hex.shape
    (by rw [hcore.dceOn, hthrough.core.dceOn, hdce]) hi hroom hex.near hex.far
  have hload := hseen.loads ops (fun op hop j hj => hops op hop j (by omega)) i 1 wimg (by omega) hi
  rw [hval, ← ofBytesBE_byteBE h8 v 1 (by omega)] at hload
  apply hne
  have hbyte := congrArg (BitVec.setWidth 8) hload
  simpa [ofBytesBE] using hbyte

/-! ## With an idle L2 -/

theorem Formed.shape (h : Formed c) (hused : ¬ c.L2Idle) : Shape c :=
  ⟨h.tvShort, h.l1Distinct, h.l2Size, h.l2Home, h.l2Distinct, fun hidle => absurd hidle hused⟩

/-- An idle L2, emptied. -/
def noLines (c : Cpu PlainBus) : Cpu PlainBus :=
  c.withL2 (Array.replicate (c.l2Sets.toNat * 2) {})

theorem noLines_l2At (c : Cpu PlainBus) (i : ℕ) : (c.noLines.l2At i).v = false := by
  unfold noLines withL2 l2At
  simp only [Array.getD_eq_getD_getElem?, Array.getElem?_replicate]
  split <;> rfl

theorem Formed.noLines_shape (h : Formed c) : Shape c.noLines := by
  have hnone : ∀ i, c.noLines.l2Entry i = none := by
    intro i
    unfold l2Entry
    rw [noLines_l2At]
    rfl
  refine ⟨h.tvShort, h.l1Distinct, Array.size_replicate, ?_, ?_, fun _ => noLines_l2At c⟩
  · intro i hv
    rw [noLines_l2At] at hv
    exact absurd hv (by simp)
  · intro i j k v v' hi
    rw [hnone] at hi
    exact absurd hi (by simp)

theorem lineBlind_exec (op : LaterOp) : LineBlind fun c : Cpu PlainBus => op.exec c := by
  cases op with
  | load pa len wimg => exact (lineBlindV_memRead pa len wimg).bind fun _ => LineBlind.id
  | store pa len v wimg => exact lineBlind_memWrite pa len v wimg
  | dcbz pa => exact lineBlind_dcbzLine pa
  | dcbClean pa invalidate => exact lineBlind_dcbClean pa invalidate
  | dcbKill pa => exact lineBlind_dcbKill pa

/-- What is seen with the lines gone is seen with them there. -/
theorem Seen.of_noLines (hidle : c.L2Idle) {pa : U32} {len : ℕ} {v : U64} {wimg : U32}
    (h : Seen c.noLines pa len v wimg) : Seen c pa len v wimg := by
  have hself : c.noLines.withL2 c.l2 = c := rfl
  have hidle₀ : c.noLines.L2Idle := hidle
  obtain ⟨x, hx⟩ := (lineBlind_memWrite pa len v wimg).blind c.noLines c.l2 hidle₀
  rw [hself] at hx
  have hidle₁ := ((lineBlind_memWrite pa len v wimg).core c.noLines).l2Idle hidle₀
  refine ⟨fun i hi => ?_, fun ops hops i n wimg' hin hi' => ?_⟩
  · rw [hx]
    exact h.bus i hi
  · have hrun := lineBlind_foldl lineBlind_exec ops
    obtain ⟨y, hy⟩ := hrun.blind _ x hidle₁
    have hidle₂ := (hrun.core (c.noLines.memWrite pa len v wimg)).l2Idle hidle₁
    obtain ⟨z, hz⟩ := (lineBlindV_memRead (pa + BitVec.ofNat 32 i) n wimg').blind _ y hidle₂
    rw [← h.loads ops hops i n wimg' hin hi', hx]
    unfold runLater
    rw [hy, hz]

/-- **A write-through store is seen** by the bus and by every later load of its bytes just where,
for each byte, the L1's copy is modified, or an L2 that is on has none, or holds the byte
already. -/
theorem writeThrough_seen_iff (c : Cpu PlainBus) (hc : Formed c) (hdce : c.dceOn = true) (pa : U32)
    (len : ℕ) (hlen : AccessLen len) (v : U64) (wimg : U32) (hw : wimg &&& kWimgW ≠ 0#32)
    (hi : wimg &&& kWimgI = 0#32) :
    Seen c pa len v wimg ↔ ∀ i < len, c.Unskewed (pa + BitVec.ofNat 32 i) (byteBE len i v) := by
  by_cases hidle : c.L2Idle
  · have hnone : ∀ d : Cpu PlainBus, d.L2Idle → ∀ a b, d.Unskewed a b := by
      intro d hd a b
      refine Or.inr fun l hl => ?_
      rcases hd with hoff | hinert
      · rw [hoff] at hl
        exact absurd hl (by simp)
      · rw [l2Line, if_pos (Or.inr hinert), ite_self] at hl
        exact absurd hl (by simp)
    refine iff_of_true (Seen.of_noLines hidle ?_) fun i _ => hnone c hidle _ _
    exact seen_of_unskewed hc.noLines_shape hdce pa hlen v hw hi fun i _ =>
      hnone c.noLines hidle _ _
  · have hs := hc.shape hidle
    exact ⟨fun h i hlt => unskewed_of_seen hs hdce pa hlen v hw hi h hlt,
      seen_of_unskewed hs hdce pa hlen v hw hi⟩

theorem Shape.formed (h : Shape c) : Formed c :=
  ⟨h.tvShort, h.l1Distinct, h.l2Size, h.l2Home, h.l2Distinct⟩

/-- Some block is spared by any operation: two blocks on from its first byte. -/
theorem exists_spared (op : LaterOp) (hop : op.Sized) : ∃ k, op.Spares k := by
  have hnext : ∀ k : BitVec 27, k ≠ k + 2#27 := by
    intro k h
    have h' := congrArg BitVec.toNat h
    rw [BitVec.toNat_add, show (2#27).toNat = 2 from rfl] at h'
    omega
  cases op with
  | store pa len v wimg =>
      refine ⟨blkOf pa + 2#27, hop, fun i hi h => ?_⟩
      have h8 : len ≤ 8 := by
        have hlen : AccessLen len := hop
        unfold AccessLen at hlen
        omega
      have h' := congrArg BitVec.toNat h
      rw [BitVec.toNat_add, blkOf_toNat, blkOf_toNat, show (2#27).toNat = 2 from rfl,
        BitVec.toNat_add, BitVec.toNat_ofNat, Nat.mod_eq_of_lt (show i < 2 ^ 32 by omega)] at h'
      omega
  | dcbz pa => exact ⟨blkOf pa + 2#27, hnext _⟩
  | dcbKill pa => exact ⟨blkOf pa + 2#27, hnext _⟩
  | load pa len wimg => exact ⟨0#27, trivial⟩
  | dcbClean pa invalidate => exact ⟨0#27, trivial⟩

/-- **Every run from empty caches** leaves the arrays well formed. -/
theorem reachable_shape (h : EmptyCaches c) (ops : List LaterOp) (hops : ∀ op ∈ ops, op.Sized) :
    Shape (runLater c ops) := by
  have hkeep : ∀ (l : List LaterOp) (d : Cpu PlainBus), (∀ op ∈ l, op.Sized) → Shape d →
      Shape (runLater d l) := by
    intro l
    induction l with
    | nil => exact fun _ _ hd => hd
    | cons op l ih =>
        intro d hl hd
        obtain ⟨k, hk⟩ := exists_spared op (hl op List.mem_cons_self)
        exact ih _ (fun op' hop' => hl op' (List.mem_cons_of_mem op hop'))
          (exec_passes hd op hk).shape
  exact hkeep ops c hops h.cacheOk.1.shape

/-- A block stored to, with its line in the L2 as memory had it, and one that was loaded and left in
the L1. -/
def heldAbove : List LaterOp := [.store 0#32 4 0x11223344#64 0#32, .load 0x40#32 4 0#32]

theorem heldAbove_formed : Formed (runLater bothOn heldAbove) := by
  have hempty : EmptyCaches bothOn := ⟨fun _ _ => rfl, fun _ => rfl, rfl⟩
  apply Shape.formed
  apply reachable_shape hempty
  intro op hop
  rcases List.mem_cons.mp hop with rfl | hop
  · exact Or.inr (Or.inr (Or.inl rfl))
  · rw [List.mem_singleton.mp hop]
    exact trivial

set_option maxRecDepth 100000 in
/-- The L1 has the first modified, over an L2 that is on. -/
theorem writeThrough_seen_held :
    Seen (runLater bothOn heldAbove) 0#32 4 0x38600001#64 kWimgW := by
  have hmodified : ∀ i < 4, ∃ w,
      (runLater bothOn heldAbove).lineWayQuiet (0#32 + BitVec.ofNat 32 i) = some w
        ∧ ((runLater bothOn heldAbove).l1d (setOf (0#32 + BitVec.ofNat 32 i)) w).d = true := by
    decide +kernel
  exact (writeThrough_seen_iff _ heldAbove_formed (by decide +kernel) 0#32 4
    (Or.inr (Or.inr (Or.inl rfl))) 0x38600001#64 kWimgW (by decide) (by decide)).mpr
    fun i hi => Or.inl (hmodified i hi)

/-- A byte loaded, and its block flushed from the L1: the L2 keeps it. -/
def heldBelow : List LaterOp := [.load 0#32 1 0#32, .dcbClean 0#32 true]

theorem heldBelow_formed : Formed (runLater bothOn heldBelow) := by
  have hempty : EmptyCaches bothOn := ⟨fun _ _ => rfl, fun _ => rfl, rfl⟩
  apply Shape.formed
  apply reachable_shape hempty
  intro op hop
  rcases List.mem_cons.mp hop with rfl | hop
  · exact trivial
  · rw [List.mem_singleton.mp hop]
    exact trivial

set_option maxRecDepth 100000 in
/-- A block held by the L2 alone: the store goes to the bus, and the next load answers the L2. -/
theorem writeThrough_not_seen :
    ¬ ∀ (c : Cpu PlainBus), Formed c → c.dceOn = true → ∀ (pa : U32) (len : ℕ), AccessLen len →
      ∀ (v : U64) (wimg : U32), wimg &&& kWimgW ≠ 0#32 → wimg &&& kWimgI = 0#32 →
        Seen c pa len v wimg := by
  intro hall
  have hseen := hall _ heldBelow_formed (by decide +kernel) 0#32 1 (Or.inl rfl)
    0xAA#64 kWimgW (by decide) (by decide)
  have hload := hseen.loads [] (by simp) 0 1 0#32 le_rfl rfl
  revert hload
  decide +kernel

end Cpu

end OpenPowerMac
