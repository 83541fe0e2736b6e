/-
The engine on a list of OUTPUT descriptors, and what a streaming device is given.

`meets_run` is one run: it tells the list's story a little further, and where it
stops short of the STOP it has moved on or the device refused what it was offered.
Over any number of wakes the story goes on (`wakes_tell`). A device that does not
refuse the same offer for ever is given every byte (`delivers_iff`), unless the
list has an OUTPUT without bytes.
-/
import OpenPowerMac.DbdmaStream

set_option autoImplicit false

namespace OpenPowerMac

open Trace Trace.Prog DbdmaChannel

namespace Dma

variable {σ α : Type} {b : SawtoothBus} {D : StreamDevice σ} {c : ChannelId}
  {serve : Hit → Dma (Board σ) Unit} {m : Machine (Board σ)} {P P' : Pos} {d : Desc}
  {ds : List Desc} {q : U32}

/-! ## Single operations -/

/-- An operation of the rest of the machine that reaches no channel. -/
theorem meets_act_done {n : ℕ} {f : Board σ → Act (Board σ) Hit α n} {r : Board σ} {a : α}
    {Q : α → Machine (Board σ) → Prop} (hf : f m.rest = .done r a)
    (hq : Q a { m with rest := r }) : Meets Pact.total (act serve f) m Q := by
  refine meets_bind (meets_look.mpr ?_)
  rw [hf]
  exact meets_exec_done hq

theorem meets_rd32le {pa : U32} {Q : U32 → Machine (Board σ) → Prop}
    (hp : b.ramFast pa 4 = true) (hq : Q (wordLE b m.rest.mem pa) m) :
    Meets Pact.total (rd32le (streamWorld b D) serve pa) m Q := by
  have hplace : ((streamWorld b D).bus m.rest).readPlace pa 4 = .store .ramFast pa.toNat :=
    readPlace_ramFast hp
  refine meets_bind (meets_bind (meets_look.mpr ?_))
  rw [hplace]
  exact meets_act_done rfl (meets_pure.mpr hq)

/-- A byte of a buffer. -/
theorem meets_busRead_plain {a : U32} {Q : U32 → Machine (Board σ) → Prop}
    (hp : b.plain a = true) (hq : Q (b.loadAt m.rest.mem a 1) m) :
    Meets Pact.total (busRead (streamWorld b D) serve a 1) m Q := by
  refine meets_bind (meets_look.mpr ?_)
  have hbus : ((streamWorld b D).bus m.rest).readPlace a 1 = b.readPlace a 1 := rfl
  rw [SawtoothBus.plain] at hp
  rw [hbus]
  split at hp
  · next h =>
      rw [h]
      exact meets_act_done rfl hq
  · next h =>
      rw [h]
      exact meets_act_done rfl hq
  · exact absurd hp (by decide)

theorem meets_collect_bytes {l : List U32} {Q : List U8 → Machine (Board σ) → Prop}
    (hp : ∀ a ∈ l, b.plain a = true) (hq : Q (l.map (byteAt b m.rest.mem)) m) :
    Meets Pact.total (collect l fun a => do
      let x ← busRead (streamWorld b D) serve a 1
      pure (x.setWidth 8 : U8)) m Q := by
  induction l generalizing Q with
  | nil => exact meets_pure.mpr hq
  | cons a l ih =>
      have ha := hp a List.mem_cons_self
      refine meets_bind (meets_bind (meets_busRead_plain ha (meets_pure.mpr ?_)))
      refine meets_bind (ih (fun a' ha' => hp a' (List.mem_cons_of_mem _ ha')) ?_)
      exact meets_pure.mpr hq

theorem meets_chan_at {Q : DbdmaChannel → Machine (Board σ) → Prop} (h : Q (m.chan c) m) :
    Meets Pact.total (chan c) m Q :=
  meets_bind (meets_look.mpr (meets_pure.mpr h))

/-- The machine with the descriptor at `q` complete. -/
def markDone (b : SawtoothBus) (q : U32) (m : Machine (Board σ)) : Machine (Board σ) :=
  { m with rest := { m.rest with
    mem := completed b m.rest.mem q
    done := m.rest.done ++ [.wrote (q + 12#32) (swap32 kDone) 4] } }

theorem meets_complete_at {Q : Unit → Machine (Board σ) → Prop}
    (hp : b.ramFast ((m.chan c).cmdPtr + 12#32) 4 = true)
    (hq : Q () (markDone b (m.chan c).cmdPtr m)) :
    Meets Pact.total (complete (streamWorld b D) serve c 0#32) m Q := by
  have hplace : ((streamWorld b D).bus m.rest).writePlace ((m.chan c).cmdPtr + 12#32) 4
      = .store .ramFast ((m.chan c).cmdPtr + 12#32).toNat := writePlace_ramFast hp
  refine meets_bind (meets_chan_at (meets_bind (meets_look.mpr ?_)))
  rw [hplace]
  exact meets_act_done rfl hq

/-! ## One descriptor -/

/-- The channel is armed and stands at a position of the list. -/
structure Stands (b : SawtoothBus) (c : ChannelId) (P : Pos) (m : Machine (Board σ)) : Prop where
  runs : (m.chan c).has kRun = true
  active : (m.chan c).has kActive = true
  ptr : (m.chan c).cmdPtr = P.q
  cursor : (m.chan c).xferDone = BitVec.ofNat 32 P.x
  mem : m.rest.mem = P.mem
  list : ListAt b P.mem P.q P.ds
  within : P.x = 0 ∨ ∃ d ds, P.ds = d :: ds ∧ P.x < d.need

/-- The channel has come to the STOP. -/
structure Halted (c : ChannelId) (P : Pos) (m : Machine (Board σ)) : Prop where
  idle : (m.chan c).has kActive = false
  ptr : (m.chan c).cmdPtr = P.q
  mem : m.rest.mem = P.mem
  done : P.ds = []

/-- What the engine fetches at a position. -/
def fetchedAt (b : SawtoothBus) (P : Pos) : Desc :=
  ⟨wordLE b P.mem P.q, wordLE b P.mem (P.q + 4#32)⟩

theorem Stands.fetched_cons (h : Stands b c P m) (hds : P.ds = d :: ds) : fetchedAt b P = d := by
  have hlist := h.list
  rw [hds] at hlist
  obtain ⟨hw0, haddr⟩ := hlist.fetched 0 (Nat.zero_lt_succ _)
  rw [slot_zero] at hw0 haddr
  rw [fetchedAt, hw0, haddr]
  rfl

theorem Stands.fetched_nil (h : Stands b c P m) (hds : P.ds = []) : (fetchedAt b P).op = 7 := by
  have hstop := h.list.stop
  rw [hds, List.length_nil, slot_zero] at hstop
  exact hstop

/-- The head of a turn changes nothing. -/
theorem meets_fetch_at {Q : Desc → Machine (Board σ) → Prop} (h : Stands b c P m)
    (hq : Q (fetchedAt b P) m) : Meets Pact.total (fetch (streamWorld b D) serve c) m Q := by
  have hw0 : b.ramFast (m.chan c).cmdPtr 4 = true := by
    have hram := h.list.ramFast_head (Nat.zero_le 12)
    rwa [BitVec.add_zero, ← h.ptr] at hram
  have haddr : b.ramFast ((m.chan c).cmdPtr + 4#32) 4 = true := by
    have hram := h.list.ramFast_head (show 4 ≤ 12 by omega)
    rwa [← h.ptr] at hram
  refine meets_bind (meets_chan_at (meets_bind (meets_act_done rfl ?_)))
  refine meets_bind (meets_chan_at (meets_bind (meets_rd32le hw0 ?_)))
  refine meets_bind (meets_chan_at (meets_bind (meets_rd32le haddr ?_)))
  refine meets_bind (meets_chan_at (meets_bind (meets_note_total (meets_pure.mpr ?_))))
  rw [fetchedAt, ← h.mem, ← h.ptr] at hq
  exact hq

theorem addresses_drop (a : U32) (n x : ℕ) :
    (addresses a n).drop x = addresses (a + BitVec.ofNat 32 x) (n - x) := by
  rw [addresses, addresses, ← List.map_drop, List.range_eq_range', List.drop_range',
    List.range'_eq_map_range, List.map_map]
  apply List.map_congr_left
  intro k _
  show a + BitVec.ofNat 32 (0 + x * 1 + k) = _
  rw [Nat.zero_add, Nat.mul_one, BitVec.ofNat_add, BitVec.add_assoc]

/-- What is offered of a descriptor's buffer. -/
def offer (b : SawtoothBus) (P : Pos) (d : Desc) : List U8 := (buffer b P.mem d).drop P.x

theorem length_offer : (offer b P d).length = d.need - P.x := by
  rw [offer, List.length_drop, length_buffer]

/-- The machine after the device was offered `bs`. -/
def given (D : StreamDevice σ) (c : ChannelId) (bs : List U8) (m : Machine (Board σ)) :
    Machine (Board σ) :=
  Machine.setChan c
    (fun ch => { ch with xferDone := ch.xferDone + BitVec.ofNat 32 (D.give m.rest.dev bs).1 })
    { m with rest := { m.rest with
      dev := (D.give m.rest.dev bs).2
      done := m.rest.done ++ [.gave (bs.take (D.give m.rest.dev bs).1)] } }

theorem given_chan (bs : List U8) : (given D c bs m).chan c = { m.chan c with
    xferDone := (m.chan c).xferDone + BitVec.ofNat 32 (D.give m.rest.dev bs).1 } :=
  chan_setChan_self

/-- The rest of a buffer lies where the cursor says, and the engine asks for all of
it. -/
theorem Stands.touched (h : Stands b c P m) (hds : P.ds = d :: ds) (hout : d.isOutput = true) :
    addresses (d.addr + (m.chan c).xferDone) (d.req - (m.chan c).xferDone).toNat
      = (addresses d.addr d.need).drop P.x := by
  have hreq := d.req.isLt
  have hneed : d.need = d.req.toNat := if_pos hout
  have hx : P.x ≤ d.need := by
    rcases h.within with hzero | ⟨d', ds', hds', hlt⟩
    · omega
    · obtain ⟨rfl, -⟩ := List.cons.inj (hds.symm.trans hds')
      exact Nat.le_of_lt hlt
  have hcount : (d.req - BitVec.ofNat 32 P.x).toNat = d.need - P.x := by
    rw [BitVec.toNat_sub, BitVec.toNat_ofNat]
    omega
  rw [h.cursor, hcount, addresses_drop]

theorem meets_streams_at {dev : Device} (hdev : c.dev = some dev)
    {Q : Bool → Machine (Board σ) → Prop} (hq : Q true m) :
    Meets Pact.total (streams (streamWorld b D) c) m Q := by
  refine meets_bind (meets_look.mpr ?_)
  rw [hdev]
  exact meets_pure.mpr hq

/-- The tail of an OUTPUT, with `k` bytes moved in all. -/
theorem meets_output_end {Q : Fate → Machine (Board σ) → Prop} {dev : Device}
    (hdev : c.dev = some dev) {x moved : U32} {k : ℕ} (hx : x = BitVec.ofNat 32 k)
    (hk : k ≤ d.req.toNat) (hram : b.ramFast ((m.chan c).cmdPtr + 12#32) 4 = true)
    (hpark : k = 0 ∨ k < d.req.toNat → Q .park m)
    (hdone : 0 < k → k = d.req.toNat → Q (.done moved) (markDone b (m.chan c).cmdPtr m)) :
    Meets Pact.total
      (if x = 0#32 then pure .park
      else do
        let stall ← streams (streamWorld b D) c
        if x < d.req && stall then pure .park
        else do
          complete (streamWorld b D) serve c (d.req - x)
          pure (.done moved)) m Q := by
  have hreq := d.req.isLt
  have hval : x.toNat = k := by
    rw [hx, BitVec.toNat_ofNat]
    omega
  by_cases hzero : x = 0#32
  · rw [if_pos hzero]
    rw [hzero] at hval
    exact meets_pure.mpr (hpark (.inl hval.symm))
  rw [if_neg hzero]
  have hpos : 0 < k :=
    Nat.pos_of_ne_zero fun h0 => hzero (BitVec.eq_of_toNat_eq (hval.trans h0))
  refine meets_bind (meets_streams_at hdev ?_)
  rw [Bool.and_true]
  by_cases hlt : x < d.req
  · rw [if_pos (decide_eq_true hlt)]
    rw [BitVec.lt_def, hval] at hlt
    exact meets_pure.mpr (hpark (.inr hlt))
  · rw [if_neg (by rwa [decide_eq_true_eq])]
    rw [BitVec.lt_def, hval] at hlt
    have hfull : k = d.req.toNat := by omega
    have hres : d.req - x = 0#32 := by
      rw [hx, hfull, BitVec.ofNat_toNat, BitVec.setWidth_eq, BitVec.sub_self]
    rw [hres]
    exact meets_bind (meets_complete_at hram (meets_pure.mpr (hdone hpos hfull)))

/-- An OUTPUT offers the rest of its buffer, and is complete with its last byte. -/
theorem meets_output_at {Q : Fate → Machine (Board σ) → Prop} {dev : Device}
    (hdev : c.dev = some dev) (h : Stands b c P m) (hds : P.ds = d :: ds)
    (hout : d.isOutput = true) {n : ℕ} (hn : n = (D.give m.rest.dev (offer b P d)).1)
    (hpark : P.x + n = 0 ∨ P.x + n < d.need → Q .park (given D c (offer b P d) m))
    (hdone : 0 < P.x + n → P.x + n = d.need →
      Q (.done (BitVec.ofNat 32 n)) (markDone b P.q (given D c (offer b P d) m))) :
    Meets Pact.total (output (streamWorld b D) serve c d) m Q := by
  have hreq := d.req.isLt
  have hneed : d.need = d.req.toNat := if_pos hout
  have hle : P.x + n ≤ d.need := by
    have hlt := (D.give m.rest.dev (offer b P d)).1.isLt
    have hlen : (offer b P d).length = d.need - P.x := length_offer
    rcases h.within with hzero | ⟨d', ds', hds', hx⟩
    · omega
    · obtain ⟨rfl, -⟩ := List.cons.inj (hds.symm.trans hds')
      omega
  -- what is offered starts at the cursor, and the device takes a prefix of it
  have htouched := h.touched hds hout
  have hbytes : ((addresses d.addr d.need).drop P.x).map (byteAt b m.rest.mem) = offer b P d := by
    rw [h.mem, List.map_drop, offer, buffer]
  have hapart : ∀ a ∈ (addresses d.addr d.need).drop P.x, b.plain a = true := fun a ha =>
    h.list.apart d (hds ▸ List.mem_cons_self) a (List.mem_of_mem_drop ha)
  have hcursor : ((given D c (offer b P d) m).chan c).xferDone = BitVec.ofNat 32 (P.x + n) := by
    rw [given_chan, h.cursor, ← hn, BitVec.ofNat_add]
  refine meets_bind (meets_look.mpr ?_)
  rw [hdev]
  refine meets_bind (meets_chan_at (meets_bind (meets_note_total ?_)))
  refine meets_bind (meets_act_done rfl ?_)
  rw [htouched]
  refine meets_bind (meets_collect_bytes hapart ?_)
  rw [hbytes]
  refine meets_bind (meets_act_done rfl ?_)
  refine meets_bind (meets_change.mpr (meets_bind (meets_chan_at ?_)))
  have hptr : ((given D c (offer b P d) m).chan c).cmdPtr = P.q := by
    rw [given_chan]
    exact h.ptr
  have hram : b.ramFast (((given D c (offer b P d) m).chan c).cmdPtr + 12#32) 4 = true := by
    rw [hptr]
    exact h.list.ramFast_head (Nat.le_refl 12)
  refine meets_output_end hdev hcursor (by omega) hram ?_ ?_
  · rw [← hneed]
    exact hpark
  · intro hpos hfull
    show Q (.done (BitVec.ofNat 32 (D.give m.rest.dev (offer b P d)).1))
      (markDone b ((given D c (offer b P d) m).chan c).cmdPtr (given D c (offer b P d) m))
    rw [hptr, ← hn]
    exact hdone hpos (hfull.trans hneed.symm)

/-! ## A turn -/

/-- The channel's step to the next descriptor. -/
def advanced (c : ChannelId) (d : Desc) (m : Machine (Board σ)) : Machine (Board σ) :=
  (m.setChan c fun ch =>
    { ch with xferDone := 0#32, irq := ch.irq || (d.w0 >>> 20) &&& 3#32 != 0#32 }).setChan c
      fun ch => { ch with cmdPtr := ch.cmdPtr + 16#32 }

theorem branchTaken_straight (ch : DbdmaChannel) (h : (d.w0 >>> 18) &&& 3#32 = 0#32) :
    branchTaken ch d = false := by
  have hbr : (if d.op = 4 ∨ d.op = 5 then 0#32 else (d.w0 >>> 18) &&& 3#32) = 0#32 := by
    rw [h, ite_self]
  unfold branchTaken
  simp only [hbr]
  rfl

theorem meets_advance_at {Q : Unit → Machine (Board σ) → Prop}
    (hbr : (d.w0 >>> 18) &&& 3#32 = 0#32) (hq : Q () (advanced c d m)) :
    Meets Pact.total (advance (streamWorld b D) serve c d) m Q := by
  refine meets_bind (meets_change.mpr (meets_bind (meets_chan_at ?_)))
  rw [branchTaken_straight _ hbr]
  exact meets_change.mpr hq

theorem advanced_chan : (advanced c d m).chan c = { m.chan c with
    xferDone := 0#32, irq := (m.chan c).irq || (d.w0 >>> 20) &&& 3#32 != 0#32,
    cmdPtr := (m.chan c).cmdPtr + 16#32 } := by
  rw [advanced, chan_setChan_self, chan_setChan_self]

/-- The position behind the first descriptor. -/
def Pos.next (b : SawtoothBus) (P : Pos) (ds : List Desc) : Pos :=
  ⟨P.q + 16#32, ds, 0, completed b P.mem P.q⟩

/-- A complete descriptor is behind the channel. -/
theorem Stands.next (h : Stands b c P m) (hds : P.ds = d :: ds) {m' : Machine (Board σ)}
    (hstatus : (m'.chan c).status = (m.chan c).status) (hptr : (m'.chan c).cmdPtr = P.q)
    (hmem : m'.rest.mem = P.mem) :
    Stands b c (P.next b ds) (advanced c d (markDone b P.q m')) := by
  have hlist := h.list
  rw [hds] at hlist
  have hchan := advanced_chan (c := c) (d := d) (m := markDone b P.q m')
  have hsame : ((markDone b P.q m').chan c).status = (m.chan c).status := hstatus
  constructor
  · have hruns := h.runs
    rw [hchan, has, hsame]
    exact hruns
  · have hactive := h.active
    rw [hchan, has, hsame]
    exact hactive
  · rw [hchan]
    exact congrArg (· + 16#32) hptr
  · rw [hchan]
    rfl
  · show completed b m'.rest.mem P.q = completed b P.mem P.q
    rw [hmem]
  · exact hlist.next
  · exact .inl rfl

/-- A channel that has moved part of a descriptor, or nothing, stays on it. -/
theorem Stands.park (h : Stands b c P m) (hds : P.ds = d :: ds)
    (hx : P.x + (D.give m.rest.dev (offer b P d)).1.val = 0
      ∨ P.x + (D.give m.rest.dev (offer b P d)).1.val < d.need) :
    Stands b c { P with x := P.x + (D.give m.rest.dev (offer b P d)).1.val }
      (given D c (offer b P d) m) := by
  have hchan := given_chan (D := D) (c := c) (m := m) (offer b P d)
  constructor
  · rw [hchan]
    exact h.runs
  · rw [hchan]
    exact h.active
  · rw [hchan]
    exact h.ptr
  · rw [hchan, BitVec.ofNat_add, ← h.cursor]
  · exact h.mem
  · exact h.list
  · rcases hx with hzero | hlt
    · exact .inl hzero
    · exact .inr ⟨d, ds, hds, hlt⟩

theorem Stands.halted (h : Stands b c P m) (hds : P.ds = []) :
    Halted c P (m.setChan c stopped) := by
  refine ⟨?_, ?_, h.mem, hds⟩
  · rw [chan_setChan_self]
    show (((m.chan c).status &&& ~~~kActive) &&& kActive != 0#32) = false
    rw [BitVec.and_assoc, show ~~~kActive &&& kActive = 0#32 from rfl, BitVec.and_zero]
    rfl
  · rw [chan_setChan_self]
    exact h.ptr

/-- Between the machine `m` at one position and `m'` at another, this much of the
list's story was told. -/
structure Tells (b : SawtoothBus) (P : Pos) (m : Machine (Board σ)) (P' : Pos)
    (m' : Machine (Board σ)) : Prop where
  story : ∃ new, m'.rest.done = m.rest.done ++ new ∧ Told b P new P'

/-- Nothing done, nothing told. -/
theorem Tells.of_done {m' : Machine (Board σ)} (h : m'.rest.done = m.rest.done) :
    Tells b P m P m' :=
  ⟨[], by rw [h, List.append_nil], .refl P⟩

theorem Tells.trans {P'' : Pos} {m' m'' : Machine (Board σ)} (h : Tells b P m P' m')
    (h' : Tells b P' m' P'' m'') : Tells b P m P'' m'' := by
  obtain ⟨new, hdone, htold⟩ := h.story
  obtain ⟨new', hdone', htold'⟩ := h'.story
  refine ⟨new ++ new', ?_, htold.append htold'⟩
  rw [hdone', hdone, List.append_assoc]

/-- The device was offered what is owed, and took nothing. -/
def Refused (b : SawtoothBus) (D : StreamDevice σ) (P : Pos) (m m' : Machine (Board σ)) : Prop :=
  ∃ d ds, P.ds = d :: ds ∧ d.isOutput = true ∧ (D.give m.rest.dev (offer b P d)).1.val = 0
    ∧ m'.rest.dev = (D.give m.rest.dev (offer b P d)).2

theorem Stands.cursor_le (h : Stands b c P m) (hds : P.ds = d :: ds) : P.x ≤ d.need := by
  rcases h.within with hzero | ⟨d', ds', hds', hlt⟩
  · omega
  · obtain ⟨rfl, -⟩ := List.cons.inj (hds.symm.trans hds')
    exact Nat.le_of_lt hlt

theorem left_next (h : P.x ≤ d.need) (hds : P.ds = d :: ds) : (P.next b ds).left < P.left := by
  simp only [Pos.left, Pos.next, hds, List.map_cons, List.sum_cons]
  omega

/-- What an OUTPUT was given belongs to its story. -/
theorem Stands.tells_given (h : Stands b c P m) (hds : P.ds = d :: ds) :
    Tells b P m { P with x := P.x + (D.give m.rest.dev (offer b P d)).1.val }
      (given D c (offer b P d) m) := by
  have hlt := (D.give m.rest.dev (offer b P d)).1.isLt
  have hlen : (offer b P d).length = d.need - P.x := length_offer
  have hle := h.cursor_le hds
  obtain ⟨q, ds₀, x, mem⟩ := P
  subst hds
  change x ≤ d.need at hle
  change _ = d.need - x at hlen
  refine ⟨[.gave ((offer b _ d).take (D.give m.rest.dev (offer b _ d)).1)], rfl, ?_⟩
  exact .gave (by show x + _ ≤ _; omega) (.refl _)

/-- A status word belongs to the story. -/
theorem tells_next (hds : P.ds = d :: ds) (hfull : P.x = d.need)
    (hmoved : d.isOutput = true → 0 < d.need) :
    Tells b P m (P.next b ds) (advanced c d (markDone b P.q m)) := by
  obtain ⟨q, ds₀, x, mem⟩ := P
  subst hds hfull
  exact ⟨[.wrote (q + 12#32) (swap32 kDone) 4], rfl, .wrote hmoved (.refl _)⟩

/-- A turn of the engine: it halts at the STOP, parks on an OUTPUT that is still owed
bytes, or passes a descriptor and goes on or parks behind it. -/
theorem meets_turn {dev : Device} (hdev : c.dev = some dev) (h : Stands b c P m) {n : ℕ}
    {idle : U32} {Q : Unit → Machine (Board σ) → Prop}
    (hhalt : P.ds = [] → Q () (m.setChan c stopped))
    (hpark : ∀ d ds, P.ds = d :: ds → d.isOutput = true →
      P.x + (D.give m.rest.dev (offer b P d)).1.val = 0
        ∨ P.x + (D.give m.rest.dev (offer b P d)).1.val < d.need →
      Q () (given D c (offer b P d) m))
    (hnext : ∀ P' m', Stands b c P' m' → Tells b P m P' m' → P'.left < P.left →
      Q () m' ∧ ∀ idle', Meets Pact.total (turns (streamWorld b D) serve c n idle') m' Q) :
    Meets Pact.total (turns (streamWorld b D) serve c (n + 1) idle) m Q := by
  have hruns : ¬ (!(m.chan c).has kRun) = true := by
    rw [h.runs]
    decide
  refine meets_bind (meets_chan_at ?_)
  rw [if_neg hruns]
  refine meets_bind (meets_fetch_at h ?_)
  -- what happens behind a descriptor that is complete, however it came to be
  have hgo {d : Desc} {ds : List Desc} (hds : P.ds = d :: ds) {moved : U32}
      {m' : Machine (Board σ)} (hst : Stands b c (P.next b ds) (advanced c d m'))
      (htells : Tells b P m (P.next b ds) (advanced c d m')) :
      Meets Pact.total (do
        advance (streamWorld b D) serve c d
        if moved ≠ 0#32 then turns (streamWorld b D) serve c n 0#32
        else if 512#32 < idle + 1#32 then pure ()
        else turns (streamWorld b D) serve c n (idle + 1#32)) m' Q := by
    have hstraight := h.list.straight d (hds ▸ List.mem_cons_self)
    obtain ⟨hq, hturns⟩ := hnext _ _ hst htells (left_next (h.cursor_le hds) hds)
    refine meets_bind (meets_advance_at hstraight ?_)
    split_ifs
    · exact hturns _
    · exact meets_pure.mpr hq
    · exact hturns _
  match hds : P.ds with
  | [] =>
      have hcmd : command (streamWorld b D) serve c (fetchedAt b P)
          = (do setChan c stopped; pure .park) := by
        unfold command
        rw [h.fetched_nil hds]
        rfl
      rw [hcmd]
      exact meets_bind (meets_bind (meets_change.mpr (meets_pure.mpr (meets_pure.mpr (hhalt hds)))))
  | d :: ds =>
      rw [h.fetched_cons hds]
      rcases h.list.kind d (hds ▸ List.mem_cons_self) with hout | hop
      · have hcmd : command (streamWorld b D) serve c d = output (streamWorld b D) serve c d := by
          rw [Desc.isOutput, Bool.or_eq_true, beq_iff_eq, beq_iff_eq] at hout
          unfold command
          rcases hout with hop | hop <;> rw [hop] <;> rfl
        rw [hcmd]
        refine meets_bind (meets_output_at hdev h hds hout rfl ?_ ?_)
        · intro hx
          exact meets_pure.mpr (hpark d ds hds hout hx)
        · intro hpos hfull
          have hchan := given_chan (D := D) (c := c) (m := m) (offer b P d)
          apply hgo hds
          · apply h.next hds
            · rw [hchan]
            · rw [hchan]
              exact h.ptr
            · exact h.mem
          · exact (h.tells_given hds).trans (tells_next hds hfull (fun _ => by omega))
      · have hnop : ¬ d.isOutput = true := by
          rw [Desc.isOutput, hop]
          decide
        have hneed : d.need = 0 := if_neg hnop
        have hcmd : command (streamWorld b D) serve c d
            = (do complete (streamWorld b D) serve c 0#32; pure (.done 0#32)) := by
          unfold command
          rw [hop]
          rfl
        rw [hcmd]
        have hram := h.list.ramFast_head (Nat.le_refl 12)
        rw [← h.ptr] at hram
        refine meets_bind (meets_bind (meets_complete_at hram (meets_pure.mpr ?_)))
        rw [h.ptr]
        have hx := h.cursor_le hds
        apply hgo hds
        · exact h.next hds rfl h.ptr h.mem
        · exact tells_next hds (by omega) (fun hout => absurd hout hnop)

/-! ## A run -/

/-- The loop tells the story on. -/
theorem meets_turns_tell {dev : Device} (hdev : c.dev = some dev) (n : ℕ) :
    ∀ {P : Pos} {m : Machine (Board σ)} (idle : U32), Stands b c P m →
      Meets Pact.total (turns (streamWorld b D) serve c n idle) m fun _ m' =>
        ∃ P', Tells b P m P' m' ∧ (Stands b c P' m' ∨ Halted c P' m') := by
  induction n with
  | zero =>
      intro P m idle h
      exact meets_pure.mpr ⟨P, .of_done rfl, .inl h⟩
  | succ n ih =>
      intro P m idle h
      apply meets_turn hdev h
      · intro hds
        exact ⟨P, .of_done rfl, .inr (h.halted hds)⟩
      · intro d ds hds _ hx
        exact ⟨_, h.tells_given hds, .inl (h.park hds hx)⟩
      · intro P' m' hst htells _
        refine ⟨⟨P', htells, .inl hst⟩, ?_⟩
        intro idle'
        refine (ih idle' hst).mono ?_
        rintro _ m'' ⟨P'', htells', hat⟩
        exact ⟨P'', htells.trans htells', hat⟩

/-- A run halts, moves on, or leaves the channel where it was because the device
refused. -/
theorem meets_turns_progress {dev : Device} (hdev : c.dev = some dev) (h : Stands b c P m)
    (n : ℕ) (idle : U32) :
    Meets Pact.total (turns (streamWorld b D) serve c (n + 1) idle) m fun _ m' =>
      ∃ P', Tells b P m P' m' ∧ (Halted c P' m'
        ∨ Stands b c P' m' ∧ (P'.left < P.left ∨ P' = P ∧ Refused b D P m m')) := by
  apply meets_turn hdev h
  · intro hds
    exact ⟨P, .of_done rfl, .inl (h.halted hds)⟩
  · intro d ds hds hout hx
    refine ⟨_, h.tells_given hds, .inr ⟨h.park hds hx, ?_⟩⟩
    rcases Nat.eq_zero_or_pos (D.give m.rest.dev (offer b P d)).1.val with hzero | hpos
    · right
      refine ⟨?_, d, ds, hds, hout, hzero, rfl⟩
      rw [hzero, Nat.add_zero]
    · left
      have hleft : P.left = d.need + 1 + (ds.map fun d => d.need + 1).sum - P.x := by
        rw [Pos.left, hds, List.map_cons, List.sum_cons]
      have hle := h.cursor_le hds
      simp only [Pos.left, hds, List.map_cons, List.sum_cons] at hleft ⊢
      omega
  · intro P' m' hst htells hlt
    refine ⟨⟨P', htells, .inr ⟨hst, .inl hlt⟩⟩, ?_⟩
    intro idle'
    refine (meets_turns_tell hdev n idle' hst).mono ?_
    rintro _ m'' ⟨P'', htells', hat⟩
    refine ⟨P'', htells.trans htells', ?_⟩
    obtain ⟨_, -, htold⟩ := htells'.story
    rcases hat with hst' | hhalt
    · exact .inr ⟨hst', .inl (Nat.lt_of_le_of_lt htold.left_le hlt)⟩
    · exact .inl hhalt

/-! ## Wakes -/

/-- Time passes for the device. -/
def tickOp (f : σ → σ) : Op (Board σ) := .guest fun r => { r with dev := f r.dev }

/-- Wakes of a channel from the `i`-th on, and what happens to the device before
each. -/
def wakes (c : ChannelId) (tick : ℕ → σ → σ) : ℕ → ℕ → List (Op (Board σ))
  | _, 0 => []
  | i, n + 1 => tickOp (tick i) :: .wake c :: wakes c tick (i + 1) n

def ticked (f : σ → σ) (m : Machine (Board σ)) : Machine (Board σ) :=
  { m with rest := { m.rest with dev := f m.rest.dev } }

theorem Stands.ticked (h : Stands b c P m) (f : σ → σ) : Stands b c P (ticked f m) :=
  ⟨h.runs, h.active, h.ptr, h.cursor, h.mem, h.list, h.within⟩

theorem Halted.ticked (h : Halted c P m) (f : σ → σ) : Halted c P (ticked f m) :=
  ⟨h.idle, h.ptr, h.mem, h.done⟩

/-- One tick and one wake. -/
theorem out_round {depth : ℕ} {f : σ → σ} {Q : Unit → Machine (Board σ) → Prop}
    (hq : Meets Pact.total ((Op.wake c).exec (streamWorld b D) depth) (ticked f m) Q) :
    ∃ m', Q () m' ∧ ∀ l, (history (streamWorld b D) depth (tickOp f :: .wake c :: l) m).out
      = (history (streamWorld b D) depth l m').out := by
  obtain ⟨_, m', hout, hpost⟩ := hq.out
  refine ⟨m', hpost, ?_⟩
  intro l
  have htick : ((tickOp f).exec (streamWorld b D) depth m).out = some ((), ticked f m) := rfl
  exact (out_bind_some htick).trans (out_bind_some hout)

theorem meets_wake_at {depth : ℕ} {Q : Unit → Machine (Board σ) → Prop} (h : Stands b c P m)
    (hq : ∀ serve, Meets Pact.total (turns (streamWorld b D) serve c 65536 0#32) m Q) :
    Meets Pact.total ((Op.wake c).exec (streamWorld b D) (depth + 1)) m Q := by
  refine meets_bind (meets_chan_at ?_)
  rw [h.runs, h.active, Bool.and_self, if_pos rfl]
  exact meets_bind (meets_note_total (meets_bind (meets_note_total (hq _))))

/-- A wake does nothing to a channel that has halted. -/
theorem meets_wake_halted {depth : ℕ} {Q : Unit → Machine (Board σ) → Prop}
    (h : (m.chan c).has kActive = false) (hq : Q () m) :
    Meets Pact.total ((Op.wake c).exec (streamWorld b D) depth) m Q := by
  refine meets_bind (meets_chan_at ?_)
  rw [h, Bool.and_false, if_neg Bool.false_ne_true]
  exact meets_pure.mpr hq

section Wakes

variable {tick : ℕ → σ → σ} {depth : ℕ} {dev : Device}

/-- Whatever the device does, wakes tell the list's story. -/
theorem wakes_tell (D : StreamDevice σ) (tick : ℕ → σ → σ) (depth : ℕ)
    (hdev : c.dev = some dev) (n : ℕ) :
    ∀ {i : ℕ} {P : Pos} {m : Machine (Board σ)}, Stands b c P m ∨ Halted c P m →
      ∃ m', (history (streamWorld b D) (depth + 1) (wakes c tick i n) m).out = some ((), m')
        ∧ ∃ P', Tells b P m P' m' ∧ (Stands b c P' m' ∨ Halted c P' m') := by
  induction n with
  | zero =>
      intro i P m h
      exact ⟨m, rfl, P, .of_done rfl, h⟩
  | succ n ih =>
      intro i P m h
      have hround : Meets Pact.total ((Op.wake c).exec (streamWorld b D) (depth + 1))
          (ticked (tick i) m) fun _ m' =>
            ∃ P', Tells b P m P' m' ∧ (Stands b c P' m' ∨ Halted c P' m') := by
        rcases h with hst | hhalt
        · refine meets_wake_at (hst.ticked _) fun _ => ?_
          refine (meets_turns_tell hdev _ _ (hst.ticked _)).mono ?_
          rintro _ m' ⟨P', htells, hat⟩
          exact ⟨P', ⟨htells.story⟩, hat⟩
        · exact meets_wake_halted (hhalt.ticked (tick i)).idle
            ⟨P, .of_done rfl, .inr (hhalt.ticked (tick i))⟩
      obtain ⟨m₁, ⟨P₁, htells, hat⟩, hout⟩ := out_round hround
      obtain ⟨m', hlast, P', htells', hat'⟩ := ih (i := i + 1) hat
      exact ⟨m', (hout _).trans hlast, P', htells.trans htells', hat'⟩

/-- Past the STOP nothing happens. -/
theorem wakes_halted (b : SawtoothBus) (D : StreamDevice σ) (tick : ℕ → σ → σ) (depth n : ℕ) :
    ∀ {i : ℕ} {m : Machine (Board σ)}, Halted c P m →
      ∃ m', (history (streamWorld b D) depth (wakes c tick i n) m).out = some ((), m')
        ∧ Halted c P m' ∧ m'.rest.done = m.rest.done := by
  induction n with
  | zero =>
      intro i m h
      exact ⟨m, rfl, h, rfl⟩
  | succ n ih =>
      intro i m h
      have hround : Meets Pact.total ((Op.wake c).exec (streamWorld b D) depth)
          (ticked (tick i) m) fun _ m' => Halted c P m' ∧ m'.rest.done = m.rest.done :=
        meets_wake_halted (h.ticked (tick i)).idle ⟨h.ticked (tick i), rfl⟩
      obtain ⟨m₁, ⟨hhalt, hdone⟩, hout⟩ := out_round hround
      obtain ⟨m', hlast, hhalt', hdone'⟩ := ih (i := i + 1) hhalt
      exact ⟨m', (hout _).trans hlast, hhalt', hdone'.trans hdone⟩

/-- `n` wakes from the `i`-th on lead from `m` to `m'`. -/
def Leads (b : SawtoothBus) (D : StreamDevice σ) (tick : ℕ → σ → σ) (depth : ℕ)
    (c : ChannelId) (i n : ℕ) (m m' : Machine (Board σ)) : Prop :=
  ∀ k, (history (streamWorld b D) depth (wakes c tick i (k + n)) m).out
    = (history (streamWorld b D) depth (wakes c tick (i + n) k) m').out

theorem Leads.trans {i n n' : ℕ} {m m₁ m' : Machine (Board σ)}
    (h : Leads b D tick depth c i n m m₁) (h' : Leads b D tick depth c (i + n) n' m₁ m') :
    Leads b D tick depth c i (n' + n) m m' := by
  intro k
  rw [← Nat.add_assoc, h (k + n'), h' k, Nat.add_assoc, Nat.add_comm n n']

/-- One wake: the channel halts, or moves on, or is refused. -/
theorem leads_round (D : StreamDevice σ) (tick : ℕ → σ → σ) (depth : ℕ)
    (hdev : c.dev = some dev) (h : Stands b c P m) (i : ℕ) :
    ∃ m', Leads b D tick (depth + 1) c i 1 m m' ∧ ∃ P', Tells b P m P' m' ∧ (Halted c P' m'
      ∨ Stands b c P' m' ∧ (P'.left < P.left ∨ P' = P ∧ Refused b D P (ticked (tick i) m) m')) := by
  have hround : Meets Pact.total ((Op.wake c).exec (streamWorld b D) (depth + 1))
      (ticked (tick i) m) _ := meets_wake_at (h.ticked (tick i)) fun _ =>
    meets_turns_progress hdev (h.ticked (tick i)) 65535 0#32
  obtain ⟨m', ⟨P', htells, hat⟩, hout⟩ := out_round hround
  exact ⟨m', fun k => hout _, P', ⟨htells.story⟩, hat⟩

/-! ## A device that does not refuse for ever -/

/-- The device's state when it is offered `bs` for the `j`-th time after refusing all
the times before, from the `i`-th wake on. -/
def offered (D : StreamDevice σ) (tick : ℕ → σ → σ) (bs : List U8) : ℕ → ℕ → σ → σ
  | i, 0, s => tick i s
  | i, j + 1, s => offered D tick bs (i + 1) j (D.give (tick i s) bs).2

/-- The device does not refuse the same bytes for ever. -/
def Willing (D : StreamDevice σ) (tick : ℕ → σ → σ) : Prop :=
  ∀ bs, bs ≠ [] → ∀ i s, ∃ j, 0 < (D.give (offered D tick bs i j s) bs).1.val

/-- Refused or not, in the end some of the offer is taken. -/
theorem leads_taken (hdev : c.dev = some dev) (hds : P.ds = d :: ds) (j : ℕ) :
    ∀ {i : ℕ} {m : Machine (Board σ)}, Stands b c P m →
      (d.isOutput = true →
        0 < (D.give (offered D tick (offer b P d) i j m.rest.dev) (offer b P d)).1.val) →
      ∃ n m', Leads b D tick (depth + 1) c i n m m' ∧ ∃ P', Tells b P m P' m'
        ∧ (Halted c P' m' ∨ Stands b c P' m' ∧ P'.left < P.left) := by
  induction j with
  | zero =>
      intro i m h htake
      obtain ⟨m', hleads, P', htells, hat⟩ := leads_round D tick depth hdev h i
      refine ⟨1, m', hleads, P', htells, ?_⟩
      rcases hat with hhalt | ⟨hst, hlt | ⟨-, d', ds', hds', hout, hzero, -⟩⟩
      · exact .inl hhalt
      · exact .inr ⟨hst, hlt⟩
      · obtain ⟨rfl, -⟩ := List.cons.inj (hds.symm.trans hds')
        exact absurd hzero (Nat.ne_of_gt (htake hout))
  | succ j ih =>
      intro i m h htake
      obtain ⟨m₁, hleads, P₁, htells, hat⟩ := leads_round D tick depth hdev h i
      rcases hat with hhalt | ⟨hst, hlt | ⟨rfl, d', ds', hds', hout, -, hafter⟩⟩
      · exact ⟨1, m₁, hleads, P₁, htells, .inl hhalt⟩
      · exact ⟨1, m₁, hleads, P₁, htells, .inr ⟨hst, hlt⟩⟩
      · obtain ⟨rfl, -⟩ := List.cons.inj (hds.symm.trans hds')
        have htake' := htake hout
        obtain ⟨n, m', hleads', P', htells', hat'⟩ := ih (i := i + 1) hst (fun _ => by
          rw [hafter]
          exact htake')
        exact ⟨n + 1, m', hleads.trans hleads', P', htells.trans htells', hat'⟩

/-- A willing device is brought to the STOP, if every OUTPUT has bytes. -/
theorem leads_halted (hdev : c.dev = some dev) (hwill : Willing D tick) (n : ℕ) :
    ∀ {i : ℕ} {P : Pos} {m : Machine (Board σ)}, P.left < n →
      (∀ d ∈ P.ds, d.isOutput = true → 0 < d.need) → Stands b c P m →
      ∃ k m', Leads b D tick (depth + 1) c i k m m' ∧ ∃ P', Tells b P m P' m' ∧ Halted c P' m' := by
  induction n with
  | zero =>
      intro i P m hlt
      exact absurd hlt (Nat.not_lt_zero _)
  | succ n ih =>
      intro i P m hleft hbytes h
      obtain ⟨k, m₁, hleads, P₁, htells, hat⟩ : ∃ k m', Leads b D tick (depth + 1) c i k m m'
          ∧ ∃ P', Tells b P m P' m' ∧ (Halted c P' m' ∨ Stands b c P' m' ∧ P'.left < P.left) := by
        match hds : P.ds with
        | [] =>
            obtain ⟨m', hleads, P', htells, hat⟩ := leads_round D tick depth hdev h i
            refine ⟨1, m', hleads, P', htells, ?_⟩
            rcases hat with hhalt | ⟨hst, hlt | ⟨-, d', ds', hds', -⟩⟩
            · exact .inl hhalt
            · exact .inr ⟨hst, hlt⟩
            · exact absurd (hds.symm.trans hds') (List.cons_ne_nil d' ds').symm
        | d :: ds =>
            by_cases hout : d.isOutput = true
            · -- something is owed, so the device will take some of it
              have hneed := hbytes d (hds ▸ List.mem_cons_self) hout
              have hlen : (offer b P d).length = d.need - P.x := length_offer
              have howed : offer b P d ≠ [] := by
                intro hnil
                rw [hnil, List.length_nil] at hlen
                rcases h.within with hzero | ⟨d', ds', hds', hlt⟩
                · omega
                · obtain ⟨rfl, -⟩ := List.cons.inj (hds.symm.trans hds')
                  omega
              obtain ⟨j, hj⟩ := hwill _ howed i m.rest.dev
              exact leads_taken hdev hds j h fun _ => hj
            · exact leads_taken hdev hds 0 h fun hout' => absurd hout' hout
      rcases hat with hhalt | ⟨hst, hlt⟩
      · exact ⟨k, m₁, hleads, P₁, htells, hhalt⟩
      · obtain ⟨_, -, htold⟩ := htells.story
        obtain ⟨k', m', hleads', P', htells', hhalt⟩ := ih (i := i + k) (by omega)
          (fun d hd => hbytes d (htold.suffix.subset hd)) hst
        exact ⟨k' + k, m', hleads.trans hleads', P', htells.trans htells', hhalt⟩

/-! ## What is delivered -/

/-- The channel is armed at the head of a list, and nothing was done yet. -/
structure Armed (c : ChannelId) (q : U32) (m : Machine (Board σ)) : Prop where
  runs : (m.chan c).has kRun = true
  active : (m.chan c).has kActive = true
  ptr : (m.chan c).cmdPtr = q
  cursor : (m.chan c).xferDone = 0#32
  done : m.rest.done = []

theorem Armed.stands (h : Armed c q m) (hlist : ListAt b m.rest.mem q ds) :
    Stands b c ⟨q, ds, 0, m.rest.mem⟩ m :=
  ⟨h.runs, h.active, h.ptr, h.cursor, rfl, hlist, .inl rfl⟩

/-- The list was carried out: the device accepted the buffers one after the other,
each descriptor's status word was written once, in order and without residual, with
the descriptor's last byte accepted and none behind it, and the channel is at the
STOP. -/
structure Delivered (b : SawtoothBus) (c : ChannelId) (q : U32) (ds : List Desc) (mem : Arrays)
    (m : Machine (Board σ)) : Prop where
  bytes : accepted m.rest.done = buffers b q mem ds
  status : written m.rest.done = statuses q ds
  lastByte : ∀ l₁ l₂ pa v len, m.rest.done = l₁ ++ .wrote pa v len :: l₂ →
    ∃ pre d post, ds = pre ++ d :: post ∧ pa = slot q pre.length + 12#32
      ∧ accepted l₁ = buffers b q mem (pre ++ [d])
  idle : (m.chan c).has kActive = false
  atStop : (m.chan c).cmdPtr = slot q ds.length

/-- A story told to its end. -/
theorem Halted.delivered {mem : Arrays} (h : Halted c P m)
    (htold : Told b ⟨q, ds, 0, mem⟩ m.rest.done P) : Delivered b c q ds mem m := by
  refine ⟨?_, ?_, ?_, h.idle, ?_⟩
  · rw [htold.accepted_all h.done, bytesOf_start]
  · have hwritten := htold.written
    rw [h.done] at hwritten
    exact (hwritten.trans (List.append_nil _)).symm
  · intro l₁ l₂ pa v len hsplit
    obtain ⟨Q, hfirst, hlast⟩ := htold.split l₁ _ hsplit
    cases hlast with
    | @wrote q' d post mem' l P hmoved hrest =>
        obtain ⟨pre, hds, hq, hacc⟩ := hfirst.accepted_full rfl rfl
        refine ⟨pre, d, post, hds, congrArg (· + 12#32) hq, ?_⟩
        rw [hacc, bytesOf_start]
  · have hstop := htold.stop_slot
    rw [h.done, List.length_nil, slot_zero] at hstop
    rw [h.ptr, hstop]

/-- An OUTPUT without bytes is never passed. -/
theorem not_delivered (hdev : c.dev = some dev) (harmed : Armed c q m)
    (hlist : ListAt b m.rest.mem q ds) (hd : d ∈ ds) (hout : d.isOutput = true)
    (hreq : d.req = 0#32) (n : ℕ) :
    ¬ ∃ m', (history (streamWorld b D) (depth + 1) (wakes c tick 0 n) m).out = some ((), m')
      ∧ Delivered b c q ds m.rest.mem m' := by
  rintro ⟨m', hm', hdelivered⟩
  have hneed : d.need = 0 := by
    rw [Desc.need, if_pos hout, hreq]
    rfl
  obtain ⟨m'', hm'', P', htells, hat⟩ :=
    wakes_tell D tick depth hdev n (i := 0) (.inl (harmed.stands hlist))
  obtain rfl : m' = m'' := by
    rw [hm'] at hm''
    exact congrArg Prod.snd (Option.some.inj hm'')
  obtain ⟨_, -, htold⟩ := htells.story
  have hmem : d ∈ P'.ds := htold.stuck hout hneed hd
  rcases hat with hst | hhalt
  · exact Bool.false_ne_true (hdelivered.idle.symm.trans hst.active)
  · rw [hhalt.done] at hmem
    exact absurd hmem List.not_mem_nil

/-- **A list is delivered exactly when none of its OUTPUT descriptors is empty.** A
willing device, woken often enough, is given the buffers of the list byte for byte,
and the channel comes to the STOP. -/
theorem delivers_iff {m : Machine (Board σ)} (hdev : c.dev = some dev) (hwill : Willing D tick)
    (harmed : Armed c q m) (hlist : ListAt b m.rest.mem q ds) :
    (∃ N, ∀ n ≥ N, ∃ m',
        (history (streamWorld b D) (depth + 1) (wakes c tick 0 n) m).out = some ((), m')
          ∧ Delivered b c q ds m.rest.mem m')
      ↔ ∀ d ∈ ds, d.isOutput = true → d.req ≠ 0#32 := by
  constructor
  · rintro ⟨N, hN⟩ d hd hout hreq
    exact not_delivered hdev harmed hlist hd hout hreq N (hN N (Nat.le_refl N))
  · intro hbytes
    have hneed : ∀ d ∈ ds, d.isOutput = true → 0 < d.need := by
      intro d hd hout
      rw [Desc.need, if_pos hout]
      exact Nat.pos_of_ne_zero fun h0 => hbytes d hd hout (BitVec.eq_of_toNat_eq h0)
    obtain ⟨N, m₁, hleads, P', htells, hhalt⟩ := leads_halted (i := 0) hdev hwill _
      (Nat.lt_succ_self _) hneed (harmed.stands hlist)
    refine ⟨N, ?_⟩
    intro n hn
    obtain ⟨k, rfl⟩ : ∃ k, n = k + N := ⟨n - N, by omega⟩
    obtain ⟨m', hout, hhalt', hdone⟩ :=
      wakes_halted b D tick (depth + 1) k (i := 0 + N) hhalt
    obtain ⟨new, hnew, htold⟩ := htells.story
    rw [harmed.done, List.nil_append] at hnew
    refine ⟨m', (hleads k).trans hout, hhalt'.delivered ?_⟩
    rw [hdone, hnew]
    exact htold

end Wakes

/-! ## Two lists -/

/-- A device that takes one byte of each offer. -/
def sipping : StreamDevice Unit where
  give _ bs := (⟨min 1 bs.length, by omega⟩, ())

theorem sipping_willing : Willing sipping fun _ s => s := by
  intro bs hbs i s
  have hpos := List.length_pos_iff.mpr hbs
  exact ⟨0, by show 0 < min 1 bs.length; omega⟩

def smallBus : SawtoothBus := { ramSize := 0x1000, romSize := 0 }

/-- The audio output channel, armed on a list at 0x100. -/
def armedAt (mem : Arrays) : Machine (Board Unit) where
  chan _ := { status := kRun ||| kActive, cmdPtr := 0x100#32 }
  rest := ⟨mem, (), []⟩

theorem armedAt_armed (mem : Arrays) : Armed .sndOut 0x100#32 (armedAt mem) where
  runs := by simp [armedAt, has, kRun, kActive]
  active := by simp [armedAt, has, kRun, kActive]
  ptr := rfl
  cursor := rfl
  done := rfl

/-- An `OUTPUT_LAST` of the two bytes at 0x200, and a STOP. -/
def twoBytes (x : Region × ℕ) : U8 :=
  if x = (.ram, 0x100) ∨ x = (.ram, 0x105) then 0x02#8
  else if x = (.ram, 0x103) then 0x10#8
  else if x = (.ram, 0x113) then 0x70#8
  else if x = (.ram, 0x200) then 0xAA#8
  else if x = (.ram, 0x201) then 0x55#8
  else 0#8

theorem twoBytes_list : ListAt smallBus twoBytes 0x100#32 [⟨0x10000002#32, 0x200#32⟩] where
  room := by simp [smallBus]
  low := by simp
  fetched k hk := by
    obtain rfl : k = 0 := Nat.lt_one_iff.mp hk
    show wordLE smallBus twoBytes (slot 0x100#32 0) = 0x10000002#32
      ∧ wordLE smallBus twoBytes (slot 0x100#32 0 + 4#32) = 0x200#32
    decide
  stop := by decide
  kind := by decide
  straight := by decide
  apart d hd a ha := by
    obtain rfl := List.mem_singleton.mp hd
    have hbuf : addresses 0x200#32 (Desc.need ⟨0x10000002#32, 0x200#32⟩) = [0x200#32, 0x201#32] := by
      decide
    rw [hbuf] at ha
    apply plain_ramFast
    rcases List.mem_pair.mp ha with rfl | rfl <;>
      simp [smallBus, SawtoothBus.ramFast, SawtoothBus.kDeviceWindowBase]

theorem delivers_twoBytes : ∃ N, ∀ n ≥ N, ∃ m',
    (history (streamWorld smallBus sipping) levels (wakes .sndOut (fun _ s => s) 0 n)
      (armedAt twoBytes)).out = some ((), m')
      ∧ Delivered smallBus .sndOut 0x100#32 [⟨0x10000002#32, 0x200#32⟩] twoBytes m' :=
  (delivers_iff rfl sipping_willing (armedAt_armed twoBytes) twoBytes_list).mpr (by decide)

/-- An `OUTPUT_MORE` without bytes, and a STOP. -/
def noBytes (x : Region × ℕ) : U8 := if x = (.ram, 0x113) then 0x70#8 else 0#8

theorem noBytes_list : ListAt smallBus noBytes 0x100#32 [⟨0#32, 0#32⟩] where
  room := by simp [smallBus]
  low := by simp
  fetched k hk := by
    obtain rfl : k = 0 := Nat.lt_one_iff.mp hk
    show wordLE smallBus noBytes (slot 0x100#32 0) = 0#32
      ∧ wordLE smallBus noBytes (slot 0x100#32 0 + 4#32) = 0#32
    decide
  stop := by decide
  kind := by decide
  straight := by decide
  apart d hd a ha := by
    obtain rfl := List.mem_singleton.mp hd
    exact absurd ha List.not_mem_nil

/-- That list is not carried out, however often the channel is woken. -/
theorem noBytes_parks : ¬ ∀ {σ : Type} (b : SawtoothBus) (D : StreamDevice σ) (tick : ℕ → σ → σ)
    (c : ChannelId) (dev : Device) (m : Machine (Board σ)) (q : U32) (ds : List Desc),
    c.dev = some dev → Willing D tick → Armed c q m → ListAt b m.rest.mem q ds →
      ∃ N, ∀ n ≥ N, ∃ m',
        (history (streamWorld b D) levels (wakes c tick 0 n) m).out = some ((), m')
          ∧ Delivered b c q ds m.rest.mem m' := by
  intro h
  obtain ⟨N, hN⟩ := h smallBus sipping (fun _ s => s) .sndOut .snd (armedAt noBytes) 0x100#32
    [⟨0#32, 0#32⟩] rfl sipping_willing (armedAt_armed noBytes) noBytes_list
  exact not_delivered rfl (armedAt_armed noBytes) noBytes_list List.mem_cons_self (by decide) rfl N
    (hN N (Nat.le_refl N))

end Dma

end OpenPowerMac
