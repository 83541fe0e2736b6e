/-
What a streaming device gets of a list of OUTPUT descriptors.

The list lies in memory, its descriptors go from one to the next and a STOP ends
it; the device takes as much of each offer as it likes, and time passes for it
between wakes. A `Pos` says how far the list has come. `Told` is what the machine
has done on the way from one position to another: bytes the device took, and
status words. A run of the engine always tells such a story, and what was accepted
and written can be read off the two positions.

The engine goes past an OUTPUT descriptor only when it has moved something of it.
A descriptor without bytes has nothing to move, so the channel parks on it for
good, where an INPUT descriptor without bytes completes. `delivers_iff` says that
this is the only way to lose the rest of the list.
-/
import OpenPowerMac.DbdmaParked

set_option autoImplicit false

namespace OpenPowerMac

open Trace Trace.Prog DbdmaChannel

/-! ## The machine -/

/-- A streaming device accepts a prefix of an offer, perhaps none of it. -/
structure StreamDevice (σ : Type) where
  give : σ → (bs : List U8) → Fin (bs.length + 1) × σ

/-- What was done: bytes that the device accepted, and bus writes. -/
inductive Io where
  | gave (bs : List U8)
  | wrote (pa v : U32) (len : ℕ)
  deriving DecidableEq

abbrev Arrays : Type := Region × ℕ → U8

/-- The arrays behind the bus, the device, and what was done so far. -/
structure Board (σ : Type) where
  mem : Arrays
  dev : σ
  done : List Io

namespace SawtoothBus

variable (b : SawtoothBus)

/-- `SawtoothBus::read`: an array's bytes, and all ones where nothing answers. -/
def loadAt (mem : Arrays) (pa : U32) (len : ℕ) : U32 :=
  match b.readPlace pa len with
  | .store w i =>
      (List.range len).foldl
        (fun v k => (v <<< 8) ||| (mem (w.region, i + k)).setWidth 32) 0#32
  | _ => if len = 1 then 0xFF#32 else if len = 2 then 0xFFFF#32 else 0xFFFFFFFF#32

/-- `SawtoothBus::write` to an array. -/
def storeAt (mem : Arrays) (pa v : U32) (len : ℕ) : Arrays :=
  match b.writePlace pa len with
  | .store w i =>
      (List.range len).foldl
        (fun mem k =>
          Function.update mem (w.region, i + k) ((v >>> (8 * (len - 1 - k))).setWidth 8)) mem
  | _ => mem

/-- The address has no device's register behind it. -/
def plain (a : U32) : Bool :=
  match b.readPlace a 1 with
  | .store _ _ | .unmapped => true
  | _ => false

end SawtoothBus

/-- A machine of arrays with one streaming device, whose caches hold nothing. -/
def streamWorld {σ : Type} (b : SawtoothBus) (D : StreamDevice σ) : World (Board σ) where
  limit := 0
  bus _ := b
  noteNow r := r
  read pa len r := .done r (b.loadAt r.mem pa len)
  write pa v len r :=
    .done { r with mem := b.storeAt r.mem pa v len, done := r.done ++ [.wrote pa v len] } ()
  snoopBeforeDmaRead _ _ r := .done r ()
  snoopBeforeDmaWrite _ _ r := .done r ()
  dmaTake _ n r := .done r ⟨[], length_nil_le n⟩
  dmaGive _ bs r :=
    .done { r with dev := (D.give r.dev bs).2,
                   done := r.done ++ [.gave (bs.take (D.give r.dev bs).1)] } (D.give r.dev bs).1
  dmaWriteSink _ _ := true
  dmaStreams _ _ := true

namespace Dma

/-! ## The list -/

/-- `OUTPUT_MORE` and `OUTPUT_LAST`. -/
def Desc.isOutput (d : Desc) : Bool := d.op == 0 || d.op == 1

/-- The bytes a descriptor is for. -/
def Desc.need (d : Desc) : ℕ := if d.isOutput then d.req.toNat else 0

/-- The status word of a descriptor without residual. -/
def kDone : U32 := 0x84000000#32

section

variable (b : SawtoothBus)

def byteAt (mem : Arrays) (a : U32) : U8 := (b.loadAt mem a 1).setWidth 8

/-- A little-endian word. -/
def wordLE (mem : Arrays) (a : U32) : U32 := swap32 (b.loadAt mem a 4)

/-- A descriptor's buffer, as memory holds it. -/
def buffer (mem : Arrays) (d : Desc) : List U8 := (addresses d.addr d.need).map (byteAt b mem)

/-- The descriptor at `q` is complete. -/
def completed (mem : Arrays) (q : U32) : Arrays := b.storeAt mem (q + 12#32) (swap32 kDone) 4

/-- The buffers of a list one after the other, each as memory holds it when the
descriptors before it are complete. -/
def buffers (q : U32) (mem : Arrays) : List Desc → List U8
  | [] => []
  | d :: ds => buffer b mem d ++ buffers (q + 16#32) (completed b mem q) ds

/-- The address of a list's descriptor. -/
def slot (q : U32) (k : ℕ) : U32 := q + BitVec.ofNat 32 (16 * k)

/-- The descriptors `ds` and a STOP lie in RAM from `q` on. Each is an OUTPUT or a
NOP and goes on to the next, and no buffer covers a device's register. -/
structure ListAt (mem : Arrays) (q : U32) (ds : List Desc) : Prop where
  room : q.toNat + 16 * (ds.length + 1) ≤ b.ramSize
  low : q.toNat + 16 * (ds.length + 1) ≤ 0x80000000
  fetched : ∀ k (hk : k < ds.length), wordLE b mem (slot q k) = (ds[k]).w0
    ∧ wordLE b mem (slot q k + 4#32) = (ds[k]).addr
  stop : (wordLE b mem (slot q ds.length) >>> 28).toNat = 7
  kind : ∀ d ∈ ds, d.isOutput = true ∨ d.op = 6
  straight : ∀ d ∈ ds, (d.w0 >>> 18) &&& 3#32 = 0#32
  apart : ∀ d ∈ ds, ∀ a ∈ addresses d.addr d.need, b.plain a = true

end

/-! ## Memory under the list -/

section Memory

variable {b : SawtoothBus} {mem : Arrays} {q : U32} {d : Desc} {ds : List Desc}

theorem readPlace_ramFast {pa : U32} {len : ℕ} (h : b.ramFast pa len = true) :
    b.readPlace pa len = .store .ramFast pa.toNat := by
  rw [SawtoothBus.readPlace, SawtoothBus.place, if_pos h]

theorem writePlace_ramFast {pa : U32} {len : ℕ} (h : b.ramFast pa len = true) :
    b.writePlace pa len = .store .ramFast pa.toNat := by
  rw [SawtoothBus.writePlace, SawtoothBus.place, if_pos h]

theorem plain_ramFast {a : U32} (h : b.ramFast a 1 = true) : b.plain a = true := by
  rw [SawtoothBus.plain, readPlace_ramFast h]

/-- A store to RAM changes the bytes it covers. -/
theorem storeAt_other {pa v : U32} (h : b.ramFast pa 4 = true) {x : Region × ℕ}
    (hx : ∀ k < 4, x ≠ (.ram, pa.toNat + k)) : b.storeAt mem pa v 4 x = mem x := by
  have h0 := hx 0 (by omega)
  have h1 := hx 1 (by omega)
  have h2 := hx 2 (by omega)
  have h3 := hx 3 (by omega)
  rw [SawtoothBus.storeAt, writePlace_ramFast h]
  show (List.range 4).foldl _ mem x = mem x
  rw [show List.range 4 = [0, 1, 2, 3] from rfl]
  simp only [List.foldl_cons, List.foldl_nil, Window.region]
  rw [Function.update_of_ne h3, Function.update_of_ne h2, Function.update_of_ne h1,
    Function.update_of_ne h0]

/-- A word of RAM beside a store keeps its value. -/
theorem wordLE_storeAt {a pa v : U32} (ha : b.ramFast a 4 = true) (hpa : b.ramFast pa 4 = true)
    (hoff : a.toNat + 4 ≤ pa.toNat ∨ pa.toNat + 4 ≤ a.toNat) :
    wordLE b (b.storeAt mem pa v 4) a = wordLE b mem a := by
  have hcell (i : ℕ) (hi : i < 4) :
      b.storeAt mem pa v 4 (.ram, a.toNat + i) = mem (.ram, a.toNat + i) := by
    apply storeAt_other hpa
    intro k hk heq
    have hidx : a.toNat + i = pa.toNat + k := congrArg Prod.snd heq
    omega
  rw [wordLE, wordLE, SawtoothBus.loadAt, SawtoothBus.loadAt, readPlace_ramFast ha]
  show swap32 ((List.range 4).foldl _ _) = swap32 ((List.range 4).foldl _ _)
  rw [show List.range 4 = [0, 1, 2, 3] from rfl]
  simp only [List.foldl_cons, List.foldl_nil, Window.region]
  rw [hcell 0 (by omega), hcell 1 (by omega), hcell 2 (by omega), hcell 3 (by omega)]

theorem slot_zero (q : U32) : slot q 0 = q := BitVec.add_zero q

theorem slot_succ (q : U32) (k : ℕ) : slot (q + 16#32) k = slot q (k + 1) := by
  rw [slot, slot, BitVec.add_assoc, show (16#32 : U32) = BitVec.ofNat 32 16 from rfl,
    ← BitVec.ofNat_add, show 16 + 16 * k = 16 * (k + 1) by ring]

namespace ListAt

variable (h : ListAt b mem q ds)
include h

/-- Where a word of the list lies. -/
theorem toNat_slot {k off : ℕ} (hk : k ≤ ds.length) (hoff : off < 16) :
    (slot q k + BitVec.ofNat 32 off).toNat = q.toNat + 16 * k + off := by
  have hlow := h.low
  rw [slot, BitVec.add_assoc, ← BitVec.ofNat_add, BitVec.toNat_add, BitVec.toNat_ofNat]
  omega

theorem ramFast_slot {k off : ℕ} (hk : k ≤ ds.length) (hoff : off ≤ 12) :
    b.ramFast (slot q k + BitVec.ofNat 32 off) 4 = true := by
  have hlow := h.low
  have hroom := h.room
  have hval := h.toNat_slot hk (show off < 16 by omega)
  have hwin : SawtoothBus.kDeviceWindowBase.toNat = 0x80000000 := rfl
  rw [SawtoothBus.ramFast, Bool.and_eq_true, decide_eq_true_eq, decide_eq_true_eq,
    BitVec.lt_def, hval, hwin]
  omega

theorem ramFast_head {off : ℕ} (hoff : off ≤ 12) :
    b.ramFast (q + BitVec.ofNat 32 off) 4 = true := by
  have hslot := h.ramFast_slot (Nat.zero_le _) hoff
  rwa [slot_zero] at hslot

/-- The status word of the first descriptor is beside the words that are fetched. -/
theorem word_completed {k off : ℕ} (hk : k ≤ ds.length) (hoff : off ≤ 4) :
    wordLE b (completed b mem q) (slot q k + BitVec.ofNat 32 off)
      = wordLE b mem (slot q k + BitVec.ofNat 32 off) := by
  have hval := h.toNat_slot hk (show off < 16 by omega)
  have hstatus := h.toNat_slot (Nat.zero_le _) (show 12 < 16 by omega)
  rw [slot_zero] at hstatus
  apply wordLE_storeAt (h.ramFast_slot hk (by omega)) (h.ramFast_head (Nat.le_refl 12))
  rw [hval]
  show _ ≤ (q + BitVec.ofNat 32 12).toNat ∨ (q + BitVec.ofNat 32 12).toNat + 4 ≤ _
  rw [hstatus]
  rcases Nat.eq_zero_or_pos k with rfl | hpos
  · left; omega
  · right; omega

end ListAt

/-- Past its first descriptor, the list is still there. -/
theorem ListAt.next (h : ListAt b mem q (d :: ds)) :
    ListAt b (completed b mem q) (q + 16#32) ds := by
  have hlen : (d :: ds).length = ds.length + 1 := rfl
  have hq : (q + 16#32).toNat = q.toNat + 16 := by
    have hval := h.toNat_slot (k := 1) (Nat.le_add_left 1 _) (show 0 < 16 by omega)
    rwa [slot, BitVec.add_zero] at hval
  have hroom := h.room
  have hlow := h.low
  -- a word of the rest is a word of the whole, and the status word left it alone
  have hword (k off : ℕ) (hk : k ≤ ds.length) (hoff : off ≤ 4) :
      wordLE b (completed b mem q) (slot (q + 16#32) k + BitVec.ofNat 32 off)
        = wordLE b mem (slot q (k + 1) + BitVec.ofNat 32 off) := by
    rw [slot_succ]
    exact h.word_completed (by omega) hoff
  have hplain (k : ℕ) (hk : k ≤ ds.length) :
      wordLE b (completed b mem q) (slot (q + 16#32) k) = wordLE b mem (slot q (k + 1)) := by
    have hzero := hword k 0 hk (by omega)
    rwa [BitVec.add_zero, BitVec.add_zero] at hzero
  constructor
  · omega
  · omega
  · intro k hk
    obtain ⟨h0, h1⟩ := h.fetched (k + 1) (by omega)
    exact ⟨(hplain k (by omega)).trans h0, (hword k 4 (by omega) (by omega)).trans h1⟩
  · rw [hplain ds.length (Nat.le_refl _)]
    exact h.stop
  · intro d' hd'
    exact h.kind d' (List.mem_cons_of_mem _ hd')
  · intro d' hd'
    exact h.straight d' (List.mem_cons_of_mem _ hd')
  · intro d' hd'
    exact h.apart d' (List.mem_cons_of_mem _ hd')

end Memory

/-! ## What is told of a list -/

/-- How far a list has come: its rest, where that lies, the bytes already moved of
its first descriptor, and memory. -/
structure Pos where
  q : U32
  ds : List Desc
  x : ℕ
  mem : Arrays

/-- The bytes the device accepted. -/
def accepted (l : List Io) : List U8 :=
  l.flatMap fun
    | .gave bs => bs
    | .wrote .. => []

/-- The bus writes. -/
def written (l : List Io) : List Io :=
  l.filter fun
    | .gave _ => false
    | .wrote .. => true

/-- The status words of a list, in its order. -/
def statuses (q : U32) : List Desc → List Io
  | [] => []
  | _ :: ds => .wrote (q + 12#32) (swap32 kDone) 4 :: statuses (q + 16#32) ds

/-- The bytes to come, if the rest of the list is `ds`. -/
def Pos.bytesOf (b : SawtoothBus) (P : Pos) : List Desc → List U8
  | [] => []
  | d :: ds => (buffer b P.mem d).drop P.x ++ buffers b (P.q + 16#32) (completed b P.mem P.q) ds

/-- What is done between two positions of a list: the device takes some more of the
first descriptor's buffer, or its status word is written when it has all of it, and
an OUTPUT has had some. -/
inductive Told (b : SawtoothBus) : Pos → List Io → Pos → Prop
  | refl (P : Pos) : Told b P [] P
  | gave {q : U32} {d : Desc} {ds : List Desc} {x n : ℕ} {mem : Arrays} {l : List Io} {P : Pos}
      (hn : x + n ≤ d.need) (h : Told b ⟨q, d :: ds, x + n, mem⟩ l P) :
      Told b ⟨q, d :: ds, x, mem⟩ (.gave (((buffer b mem d).drop x).take n) :: l) P
  | wrote {q : U32} {d : Desc} {ds : List Desc} {mem : Arrays} {l : List Io} {P : Pos}
      (hmoved : d.isOutput = true → 0 < d.need)
      (h : Told b ⟨q + 16#32, ds, 0, completed b mem q⟩ l P) :
      Told b ⟨q, d :: ds, d.need, mem⟩ (.wrote (q + 12#32) (swap32 kDone) 4 :: l) P

section Story

variable {b : SawtoothBus} {P P' P'' : Pos} {l l' : List Io}

theorem length_buffer (mem : Arrays) (d : Desc) : (buffer b mem d).length = d.need := by
  rw [buffer, List.length_map, addresses, List.length_map, List.length_range]

/-- Stories follow each other. -/
theorem Told.append (h : Told b P l P') (h' : Told b P' l' P'') : Told b P (l ++ l') P'' := by
  induction h with
  | refl P => exact h'
  | gave hn _ ih => exact .gave hn (ih h')
  | wrote hmoved _ ih => exact .wrote hmoved (ih h')

/-- A story can be broken off anywhere. -/
theorem Told.split (h : Told b P l P') :
    ∀ l₁ l₂, l = l₁ ++ l₂ → ∃ Q, Told b P l₁ Q ∧ Told b Q l₂ P' := by
  induction h with
  | refl P =>
      intro l₁ l₂ heq
      obtain ⟨rfl, rfl⟩ := List.append_eq_nil_iff.mp heq.symm
      exact ⟨P, .refl P, .refl P⟩
  | gave hn h ih =>
      intro l₁ l₂ heq
      rcases List.cons_eq_append_iff.mp heq with ⟨rfl, rfl⟩ | ⟨l₁', rfl, rfl⟩
      · exact ⟨_, .refl _, .gave hn h⟩
      · obtain ⟨Q, hfirst, hlast⟩ := ih l₁' l₂ rfl
        exact ⟨Q, .gave hn hfirst, hlast⟩
  | wrote hmoved h ih =>
      intro l₁ l₂ heq
      rcases List.cons_eq_append_iff.mp heq with ⟨rfl, rfl⟩ | ⟨l₁', rfl, rfl⟩
      · exact ⟨_, .refl _, .wrote hmoved h⟩
      · obtain ⟨Q, hfirst, hlast⟩ := ih l₁' l₂ rfl
        exact ⟨Q, .wrote hmoved hfirst, hlast⟩

/-- The status words written and those to come are those of the list. -/
theorem Told.written (h : Told b P l P') :
    statuses P.q P.ds = written l ++ statuses P'.q P'.ds := by
  induction h with
  | refl P => rfl
  | gave _ _ ih => exact ih
  | wrote _ _ ih => exact congrArg _ ih

/-- Past every byte of a descriptor, what was accepted is what the list has up to
there. -/
theorem Told.accepted_full (h : Told b P l P') {d : Desc} {ds : List Desc}
    (hds : P'.ds = d :: ds) (hx : P'.x = d.need) :
    ∃ pre, P.ds = pre ++ d :: ds ∧ P'.q = slot P.q pre.length
      ∧ accepted l = P.bytesOf b (pre ++ [d]) := by
  induction h with
  | refl P =>
      refine ⟨[], hds, (slot_zero _).symm, ?_⟩
      have hdrop : (buffer b P.mem d).drop P.x = [] := by
        rw [hx, ← length_buffer (b := b) P.mem d, List.drop_length]
      show [] = (buffer b P.mem d).drop P.x ++ []
      rw [hdrop, List.append_nil]
  | @gave q d' ds' x n mem l P' hn h ih =>
      obtain ⟨pre, hpre, hq, hacc⟩ := ih hds hx
      refine ⟨pre, hpre, hq, ?_⟩
      -- the list is not empty, so its first descriptor is the one accepted from
      obtain ⟨rest, hrest⟩ : ∃ rest, pre ++ [d] = d' :: rest := by
        cases pre with
        | nil =>
            obtain ⟨rfl, -⟩ := List.cons.inj hpre
            exact ⟨[], rfl⟩
        | cons e pre =>
            obtain ⟨rfl, -⟩ := List.cons.inj hpre
            exact ⟨pre ++ [d], rfl⟩
      rw [hrest] at hacc ⊢
      show ((buffer b mem d').drop x).take n ++ accepted l = (buffer b mem d').drop x ++ _
      rw [hacc]
      show _ ++ ((buffer b mem d').drop (x + n) ++ _) = _
      rw [← List.append_assoc, ← List.drop_drop, List.take_append_drop]
  | @wrote q d' ds' mem l P' hmoved h ih =>
      obtain ⟨pre, hpre, hq, hacc⟩ := ih hds hx
      refine ⟨d' :: pre, congrArg _ hpre, ?_, ?_⟩
      · rw [hq, slot_succ]
        rfl
      · have hdrop : (buffer b mem d').drop d'.need = [] := by
          rw [← length_buffer (b := b) mem d', List.drop_length]
        show accepted l = (buffer b mem d').drop d'.need ++ buffers b (q + 16#32) _ (pre ++ [d])
        rw [hdrop, List.nil_append, hacc]
        cases pre <;> rfl

/-- At the end of the list, everything was accepted. -/
theorem Told.accepted_all (h : Told b P l P') (hend : P'.ds = []) :
    accepted l = P.bytesOf b P.ds := by
  induction h with
  | refl P =>
      rw [hend]
      rfl
  | @gave q d ds x n mem l P' hn h ih =>
      show ((buffer b mem d).drop x).take n ++ accepted l = (buffer b mem d).drop x ++ _
      rw [ih hend]
      show _ ++ ((buffer b mem d).drop (x + n) ++ _) = _
      rw [← List.append_assoc, ← List.drop_drop, List.take_append_drop]
  | @wrote q d ds mem l P' hmoved h ih =>
      have hdrop : (buffer b mem d).drop d.need = [] := by
        rw [← length_buffer (b := b) mem d, List.drop_length]
      show accepted l = (buffer b mem d).drop d.need ++ buffers b (q + 16#32) _ ds
      rw [hdrop, List.nil_append, ih hend]
      cases ds <;> rfl

/-- The engine does not get past an OUTPUT without bytes. -/
theorem Told.stuck (h : Told b P l P') {d : Desc} (hout : d.isOutput = true) (hneed : d.need = 0)
    (hd : d ∈ P.ds) : d ∈ P'.ds := by
  induction h with
  | refl P => exact hd
  | gave _ _ ih => exact ih hd
  | wrote hmoved _ ih =>
      apply ih
      rcases List.mem_cons.mp hd with rfl | hd
      · have hpos := hmoved hout
        omega
      · exact hd

/-- What is left of the list is its end. -/
theorem Told.suffix (h : Told b P l P') : P'.ds <:+ P.ds := by
  induction h with
  | refl P => exact List.suffix_refl _
  | gave _ _ ih => exact ih
  | wrote _ _ ih => exact ih.trans (List.suffix_cons _ _)

/-- The STOP stays where it is. -/
theorem Told.stop_slot (h : Told b P l P') :
    slot P'.q P'.ds.length = slot P.q P.ds.length := by
  induction h with
  | refl P => rfl
  | gave _ _ ih => exact ih
  | wrote _ _ ih => rw [ih, slot_succ, List.length_cons]

/-- What is left to be done: a status word for each descriptor, and its bytes. -/
def Pos.left (P : Pos) : ℕ := (P.ds.map fun d => d.need + 1).sum - P.x

theorem Told.left_le (h : Told b P l P') : P'.left ≤ P.left := by
  induction h with
  | refl P => exact Nat.le_refl _
  | gave hn _ ih =>
      refine ih.trans ?_
      simp only [Pos.left]
      omega
  | wrote _ _ ih =>
      refine ih.trans ?_
      simp only [Pos.left, List.map_cons, List.sum_cons]
      omega

theorem bytesOf_start {q : U32} {ds₀ : List Desc} {mem : Arrays} (ds : List Desc) :
    Pos.bytesOf b ⟨q, ds₀, 0, mem⟩ ds = buffers b q mem ds := by
  cases ds <;> rfl

end Story

end Dma

end OpenPowerMac
