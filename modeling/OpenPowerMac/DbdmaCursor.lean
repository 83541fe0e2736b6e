/-
The cursor and the count it was moved under.

`xferDone` outlives a park, and the descriptor it counts in lies in guest memory. So what is
carried from one activation of a channel to the next is that `xferDone` is within the `reqCount`
of the last request: `Counts` is that count for every channel, summed up from the log, and
`Nested` is what holds of it between any two steps. A nested operation leaves the count of a
channel whose `run` is open, and at most drops its cursor; that is what a `run` needs to go on
from where it was. What is left to the guest is `Event.Resumed`: a transfer descriptor that it has
changed under a channel, or pointed the channel at, must not ask for less than was moved.
-/
import OpenPowerMac.DbdmaRequests

set_option autoImplicit false

namespace OpenPowerMac

open Trace Trace.Prog DbdmaChannel

/-- `reqCount` of the descriptor for which each channel last asked a device. -/
abbrev Counts : Type := ChannelId → U32

/-- The count a request was made of is the channel's. -/
def Counts.post (g : Counts) : Event → Counts
  | .request r => Function.update g r.chan r.req
  | _ => g

/-- A `run` is entered only where none of its channel is open. A transfer descriptor asks for as
much as when the channel last asked a device, or for no less than it has moved. -/
def Event.Resumed (g : Counts) : Event → Prop
  | .enter (.run c) stack => .run c ∉ stack
  | .fetch c _ w0 cursor =>
      (w0 >>> 28).toNat < 4 → w0 &&& 0xFFFF#32 = g c ∨ cursor ≤ w0 &&& 0xFFFF#32
  | _ => True

instance (g : Counts) : DecidablePred (Event.Resumed g)
  | .enter (.run c) stack => inferInstanceAs (Decidable (.run c ∉ stack))
  | .fetch c _ w0 cursor => inferInstanceAs (Decidable
      ((w0 >>> 28).toNat < 4 → w0 &&& 0xFFFF#32 = g c ∨ cursor ≤ w0 &&& 0xFFFF#32))
  | .enter (.flush _) _ | .control .. | .wake .. | .request .. => isTrue trivial

/-- Every request is inside its buffer. -/
def Event.Bounded : Event → Prop
  | .request r => r.InBounds
  | _ => True

namespace Dma

/-- What is relied on and kept to, where the log has come to these counts. -/
def counts : Ledger Event Counts := ⟨Counts.post, Event.Resumed, fun _ => Event.Bounded⟩

variable {ρ α : Type} {w : World ρ} {serve : Hit → Dma ρ Unit} {c : ChannelId}
  {stack : List Frame} {m m₀ m₁ : Machine ρ} {g g₀ g₁ : Counts}
  {S : Machine ρ → Counts → Prop} {X Y : U32 → U32 → Prop}

/-! ## Properties of the cursors -/

/-- Cursors are kept, or dropped to zero. -/
def Drops (m m' : Machine ρ) : Prop :=
  ∀ c, (m'.chan c).xferDone = (m.chan c).xferDone ∨ (m'.chan c).xferDone = 0#32

theorem drops_setChan {f : DbdmaChannel → DbdmaChannel}
    (hf : ∀ ch, (f ch).xferDone = ch.xferDone ∨ (f ch).xferDone = 0#32) :
    Drops m (m.setChan c f) := by
  intro c'
  by_cases hc : c' = c
  · rw [hc, Machine.setChan]
    dsimp only
    rw [Function.update_self]
    exact hf _
  · rw [Machine.setChan]
    dsimp only
    rw [Function.update_of_ne hc]
    exact Or.inl rfl

/-- What a property of the cursors and the counts is closed under, for the bus accesses of the
engine to keep it. -/
structure Steadfast (serve : Hit → Dma ρ Unit) (S : Machine ρ → Counts → Prop) : Prop where
  drop : ∀ m m' g, Drops m m' → S m g → S m' g
  serve : ∀ h m g, S m g → Tallies counts (serve h) m g fun _ => S

theorem tallies_chan {Q : DbdmaChannel → Machine ρ → Counts → Prop} (h : Q (m.chan c) m g) :
    Tallies counts (chan c : Dma ρ DbdmaChannel) m g Q :=
  tallies_bind (tallies_look (tallies_pure h))

theorem tallies_streams {Q : Bool → Machine ρ → Counts → Prop} (h : ∀ b, Q b m g) :
    Tallies counts (streams w c) m g Q :=
  tallies_bind (tallies_look (tallies_pure (h _)))

namespace Steadfast

variable (hS : Steadfast serve S)
include hS

/-- The rest of the machine holds no cursor. -/
theorem rest (r : ρ) (hm : S m g) : S { m with rest := r } g :=
  hS.drop m _ g (fun _ => Or.inl rfl) hm

theorem tallies_own {f : DbdmaChannel → DbdmaChannel}
    (hf : ∀ ch, (f ch).xferDone = ch.xferDone ∨ (f ch).xferDone = 0#32) (hm : S m g) :
    Tallies counts (setChan c f : Dma ρ Unit) m g fun _ => S :=
  tallies_change (hS.drop m _ g (drops_setChan hf) hm)

theorem tallies_act {n : ℕ} {f : ρ → Act ρ Hit α n} (hm : S m g) :
    Tallies counts (act serve f) m g fun _ => S :=
  tallies_bind (tallies_look (tallies_exec (fun r _ _ h => hS.rest r h) hS.serve _ hm))

theorem tallies_busRead {pa : U32} {len : ℕ} (hm : S m g) :
    Tallies counts (busRead w serve pa len) m g fun _ => S := by
  refine tallies_bind (tallies_look ?_)
  split
  · exact tallies_bind (tallies_change (tallies_pure (hS.rest _ hm)))
  · exact hS.tallies_act hm

theorem tallies_busWrite {pa v : U32} {len : ℕ} (hm : S m g) :
    Tallies counts (busWrite w serve pa v len) m g fun _ => S := by
  refine tallies_bind (tallies_look ?_)
  split
  · exact tallies_bind (tallies_change (hS.serve _ _ _ (hS.rest _ hm)))
  · refine tallies_bind ((hS.tallies_act hm).mono fun _ m' g' h => ?_)
    split
    · exact hS.serve _ _ _ h
    · exact tallies_pure h
  · exact hS.tallies_act hm

theorem tallies_rd32le {pa : U32} (hm : S m g) :
    Tallies counts (rd32le w serve pa) m g fun _ => S :=
  tallies_bind ((hS.tallies_busRead hm).mono fun _ _ _ h => tallies_pure h)

/-- The end of a descriptor that goes on. -/
theorem tallies_complete_done {residual moved : U32} (hm : S m g) :
    Tallies counts (do complete w serve c residual; pure (Fate.done moved)) m g fun _ => S :=
  tallies_bind (Tallies.mono (tallies_bind (tallies_chan (hS.tallies_busWrite hm)))
    fun _ _ _ h => tallies_pure h)

theorem tallies_storeQuad {d : Desc} (hm : S m g) :
    Tallies counts (storeQuad w serve c d) m g fun _ => S := by
  unfold storeQuad
  refine tallies_bind (tallies_chan ?_)
  refine tallies_bind ((hS.tallies_rd32le hm).mono fun lit m₁ g₁ h₁ => ?_)
  refine tallies_bind ((hS.tallies_act h₁).mono fun _ m₂ g₂ h₂ => ?_)
  split_ifs
  · exact tallies_bind ((hS.tallies_busWrite h₂).mono fun _ _ _ h => hS.tallies_complete_done h)
  · exact tallies_bind ((hS.tallies_busWrite h₂).mono fun _ _ _ h => hS.tallies_complete_done h)
  · exact tallies_bind ((hS.tallies_busWrite h₂).mono fun _ _ _ h => hS.tallies_complete_done h)

theorem tallies_loadImage {addr : U32} {size : ℕ} (hm : S m g) :
    Tallies counts (loadImage w serve addr size) m g fun _ => S := by
  unfold loadImage
  split_ifs
  · exact hS.tallies_busRead hm
  · refine tallies_bind ((hS.tallies_busRead hm).mono fun _ m₁ g₁ h₁ => ?_)
    exact tallies_bind ((hS.tallies_busRead h₁).mono fun _ _ _ h => tallies_pure h)
  · exact tallies_bind ((hS.tallies_busRead hm).mono fun _ _ _ h => tallies_pure h)

theorem tallies_loadQuad {d : Desc} (hm : S m g) :
    Tallies counts (loadQuad w serve c d) m g fun _ => S := by
  unfold loadQuad
  refine tallies_bind ((hS.tallies_act hm).mono fun _ m₁ g₁ h₁ => ?_)
  refine tallies_bind ((hS.tallies_loadImage h₁).mono fun img m₂ g₂ h₂ => ?_)
  refine tallies_bind (tallies_chan ?_)
  exact tallies_bind ((hS.tallies_busWrite h₂).mono fun _ _ _ h => hS.tallies_complete_done h)

/-- The fetch ends where it logged: the first word and the cursor. -/
theorem tallies_fetch (hm : S m g) : Tallies counts (fetch w serve c) m g fun d m' g' =>
    S m' g' ∧ (d.op < 4 → d.req = g' c ∨ (m'.chan c).xferDone ≤ d.req) := by
  unfold fetch
  refine tallies_bind (tallies_chan ?_)
  refine tallies_bind ((hS.tallies_act hm).mono fun _ m₁ g₁ h₁ => ?_)
  refine tallies_bind (tallies_chan ?_)
  refine tallies_bind ((hS.tallies_rd32le h₁).mono fun w0 m₂ g₂ h₂ => ?_)
  refine tallies_bind (tallies_chan ?_)
  refine tallies_bind ((hS.tallies_rd32le h₂).mono fun addr m₃ g₃ h₃ => ?_)
  refine tallies_bind (tallies_chan ?_)
  exact tallies_bind (tallies_note fun hr => ⟨trivial, tallies_pure ⟨h₃, hr⟩⟩)

theorem tallies_goOn {d : Desc} (hm : S m g) :
    Tallies counts (goOn w serve c d) m g fun _ => S := by
  unfold goOn
  refine tallies_bind (tallies_chan ?_)
  split_ifs
  · refine tallies_bind ((hS.tallies_rd32le hm).mono fun target m₁ g₁ h₁ => ?_)
    exact hS.tallies_own (fun _ => Or.inl rfl) h₁
  · exact hS.tallies_own (fun _ => Or.inl rfl) hm

/-- A flush ends with the cursor dropped. -/
theorem tallies_flush (hm : S m g) : Tallies counts (flush w serve c) m g fun _ => S := by
  unfold flush
  refine tallies_bind (tallies_chan ?_)
  refine tallies_bind ((hS.tallies_act hm).mono fun _ m₁ g₁ h₁ => ?_)
  refine tallies_bind (tallies_chan ?_)
  refine tallies_bind ((hS.tallies_rd32le h₁).mono fun w0 m₂ g₂ h₂ => ?_)
  refine tallies_bind (tallies_chan ?_)
  refine tallies_bind ((hS.tallies_busWrite h₂).mono fun _ m₃ g₃ h₃ => ?_)
  exact hS.tallies_own (fun _ => Or.inr rfl) h₃

end Steadfast

/-! ## What nested operations keep -/

/-- The cursor of a channel whose `run` is open is kept or dropped, and its count stays; another's
cursor is within its count. -/
def NestedAt (stack : List Frame) (m₀ : Machine ρ) (g₀ : Counts) (c : ChannelId) (m : Machine ρ)
    (g : Counts) : Prop :=
  if Frame.run c ∈ stack then
    g c = g₀ c ∧ ((m.chan c).xferDone = (m₀.chan c).xferDone ∨ (m.chan c).xferDone = 0#32)
  else (m.chan c).xferDone ≤ g c

def Nested (stack : List Frame) (m₀ : Machine ρ) (g₀ : Counts) (m : Machine ρ) (g : Counts) :
    Prop :=
  ∀ c, NestedAt stack m₀ g₀ c m g

/-- Inside a `run` of channel `c`: the others, and the channel's own cursor and count. -/
structure Turn (c : ChannelId) (stack : List Frame) (m₀ : Machine ρ) (g₀ : Counts)
    (X : U32 → U32 → Prop) (m : Machine ρ) (g : Counts) : Prop where
  others : ∀ c', c' ≠ c → NestedAt stack m₀ g₀ c' m g
  own : X (m.chan c).xferDone (g c)

/-- The hits keep what is nested in this stack. -/
def Serves (serve : Hit → Dma ρ Unit) (stack : List Frame) : Prop :=
  ∀ h m g m₀ g₀, Nested stack m₀ g₀ m g → Tallies counts (serve h) m g fun _ => Nested stack m₀ g₀

theorem NestedAt.drop (h : NestedAt stack m₀ g₀ c m g)
    (hd : (m₁.chan c).xferDone = (m.chan c).xferDone ∨ (m₁.chan c).xferDone = 0#32) :
    NestedAt stack m₀ g₀ c m₁ g := by
  unfold NestedAt at *
  split_ifs at *
  · refine ⟨h.1, ?_⟩
    rcases hd with hd | hd
    · rw [hd]
      exact h.2
    · exact Or.inr hd
  · rcases hd with hd | hd <;> rw [hd]
    · exact h
    · exact Nat.zero_le _

/-- Frame after frame. -/
theorem NestedAt.trans (h : NestedAt stack m₀ g₀ c m g) (h' : NestedAt stack m g c m₁ g₁) :
    NestedAt stack m₀ g₀ c m₁ g₁ := by
  unfold NestedAt at *
  split_ifs at *
  · refine ⟨h'.1.trans h.1, ?_⟩
    rcases h'.2 with hd | hd
    · rw [hd]
      exact h.2
    · exact Or.inr hd
  · exact h'

/-- A flush opens no `run`. -/
theorem nested_flush_iff : Nested (.flush c :: stack) m₀ g₀ m g ↔ Nested stack m₀ g₀ m g := by
  simp [Nested, NestedAt]

theorem nested_steadfast (h : Serves serve stack) : Steadfast serve (Nested stack m₀ g₀) where
  drop _ _ _ hd hm c := (hm c).drop (hd c)
  serve hit m g hm := h hit m g m₀ g₀ hm

/-- Around a nested operation of a `run`, seen from the `run`. -/
theorem Turn.around (hX : ∀ x y, X x y → X 0#32 y) (h : Turn c stack m₀ g₀ X m g)
    (h' : Nested (.run c :: stack) m g m₁ g₁) : Turn c stack m₀ g₀ X m₁ g₁ := by
  refine ⟨fun c' hne => (h.others c' hne).trans ?_, ?_⟩
  · have hc' := h' c'
    unfold NestedAt at hc' ⊢
    simpa [hne] using hc'
  · have hc := h' c
    rw [NestedAt, if_pos List.mem_cons_self] at hc
    rw [hc.1]
    rcases hc.2 with hd | hd <;> rw [hd]
    · exact h.own
    · exact hX _ _ h.own

/-- What a `run` hands to a nested operation. -/
theorem Turn.nested (h : Turn c stack m₀ g₀ X m g) : Nested (.run c :: stack) m g m g := by
  intro c'
  by_cases hc : c' = c
  · rw [hc, NestedAt, if_pos List.mem_cons_self]
    exact ⟨rfl, Or.inl rfl⟩
  · have hc' := h.others c' hc
    unfold NestedAt at hc' ⊢
    split_ifs at hc' with hin
    · rw [if_pos (List.mem_cons_of_mem _ hin)]
      exact ⟨rfl, Or.inl rfl⟩
    · rw [if_neg (by simp [hc, hin])]
      exact hc'

/-- What stands through the hits of a turn: the own cursor only falls to zero. -/
theorem turn_steadfast (h : Serves serve (.run c :: stack)) (hX : ∀ x y, X x y → X 0#32 y) :
    Steadfast serve (Turn c stack m₀ g₀ X) where
  drop m m' g hd hm := by
    refine ⟨fun c' hne => (hm.others c' hne).drop (hd c'), ?_⟩
    rcases hd c with hc | hc <;> rw [hc]
    · exact hm.own
    · exact hX _ _ hm.own
  serve hit m g hm := (h hit m g m g hm.nested).mono fun _ _ _ h' => hm.around hX h'

/-- The channel's own cursor moves. -/
theorem Turn.move (h : Turn c stack m₀ g₀ X m g) {f : DbdmaChannel → DbdmaChannel}
    (hf : ∀ ch, X ch.xferDone (g c) → Y (f ch).xferDone (g c)) :
    Turn c stack m₀ g₀ Y (m.setChan c f) g := by
  refine ⟨fun c' hne => (h.others c' hne).drop (Or.inl ?_), ?_⟩
  · rw [Machine.setChan]
    dsimp only
    rw [Function.update_of_ne hne]
  · rw [Machine.setChan]
    dsimp only
    rw [Function.update_self]
    exact hf _ h.own

/-- The channel asks under another count. -/
theorem Turn.ask (h : Turn c stack m₀ g₀ X m g) {r : Request} (hr : r.chan = c)
    (hY : X (m.chan c).xferDone (g c) → Y (m.chan c).xferDone r.req) :
    Turn c stack m₀ g₀ Y m (Counts.post g (.request r)) := by
  have hpost : Counts.post g (.request r) = Function.update g c r.req := by rw [← hr]; rfl
  rw [hpost]
  refine ⟨fun c' hne => ?_, ?_⟩
  · have hc' := h.others c' hne
    unfold NestedAt at hc' ⊢
    rwa [Function.update_of_ne hne]
  · rw [Function.update_self]
    exact hY h.own

/-! ## A turn -/

/-- So many bytes more are within the count. -/
def Leaves (moved : ℕ) (cursor count : U32) : Prop := cursor.toNat + moved ≤ count.toNat

theorem Leaves.drop {moved : ℕ} (x y : U32) (h : Leaves moved x y) : Leaves moved 0#32 y := by
  unfold Leaves at *
  rw [show (0#32 : U32).toNat = 0 from rfl]
  omega

/-- The moved bytes are added to the cursor. -/
theorem Leaves.moved {moved x y : U32} (h : Leaves moved.toNat x y) : Leaves 0 (x + moved) y := by
  have hy := y.isLt
  unfold Leaves at *
  rw [BitVec.toNat_add, Nat.mod_eq_of_lt (by omega)]
  exact h

/-- Between descriptors, and at a park, the cursor is within the count. -/
abbrev Within (c : ChannelId) (stack : List Frame) (m₀ : Machine ρ) (g₀ : Counts) :
    Machine ρ → Counts → Prop :=
  Turn c stack m₀ g₀ (Leaves 0)

section Run

variable (hserve : Serves serve (.run c :: stack))
include hserve

theorem within_steadfast (m₀ : Machine ρ) (g₀ : Counts) : Steadfast serve (Within c stack m₀ g₀) :=
  turn_steadfast hserve Leaves.drop

omit hserve in
/-- A request from a cursor within the descriptor's count is in bounds, and what the device may
move is what the count leaves. -/
theorem tallies_request {Q : Unit → Machine ρ → Counts → Prop} {req addr cursor : U32} {n : ℕ}
    (hle : cursor ≤ req) (hn : n ≤ (req - cursor).toNat) (h : Turn c stack m₀ g₀ X m g)
    (hX : X (m.chan c).xferDone (g c) → (m.chan c).xferDone ≤ cursor)
    (hQ : ∀ g', Turn c stack m₀ g₀ (Leaves n) m g' → Q () m g') :
    Tallies counts
      (note (.request ⟨c, req, addr, cursor, req - cursor, addresses (addr + cursor) n⟩)) m g
      Q := by
  refine tallies_note fun _ => ⟨(sound_addresses hn).inBounds_iff.mpr hle, hQ _ ?_⟩
  refine h.ask rfl fun hx => ?_
  have hcur := BitVec.le_def.mp (hX hx)
  have hsub := BitVec.toNat_sub_of_le hle
  have hle' := BitVec.le_def.mp hle
  show (m.chan c).xferDone.toNat + n ≤ req.toNat
  omega

/-- The bytes that are stored move the cursor by as many, -/
theorem tallies_takeBytes {d : Desc} (hm : Within c stack m₀ g₀ m g)
    (hreq : (m.chan c).xferDone ≤ d.req) :
    Tallies counts (takeBytes w serve c d) m g fun moved =>
      Turn c stack m₀ g₀ (Leaves moved.toNat) := by
  -- the device may be reached while the cursor is dropped, never moved on
  have hbelow : Steadfast serve (Turn c stack m₀ g₀ fun x _ => x ≤ (m.chan c).xferDone) :=
    turn_steadfast hserve fun _ _ _ => Nat.zero_le _
  unfold takeBytes
  refine tallies_bind (tallies_chan ?_)
  split
  · refine tallies_bind ((hbelow.tallies_act ⟨hm.others, Nat.le_refl _⟩).mono
      fun tmp m₁ g₁ h₁ => ?_)
    refine tallies_bind (tallies_request hreq tmp.property h₁ id fun g₂ h₂ => ?_)
    have hleft : Steadfast serve (Turn c stack m₀ g₀ (Leaves tmp.val.length)) :=
      turn_steadfast hserve Leaves.drop
    refine tallies_bind ((hleft.tallies_act h₂).mono fun _ m₃ g₃ h₃ => ?_)
    refine tallies_bind ((tallies_forEach (fun p m g h => hleft.tallies_busWrite h) _ h₃).mono
      fun _ m₄ g₄ h₄ => tallies_pure ?_)
    have hlen : (BitVec.ofNat 32 tmp.val.length).toNat = tmp.val.length := by
      rw [BitVec.toNat_ofNat]
      exact Nat.mod_eq_of_lt (Nat.lt_of_le_of_lt tmp.property (BitVec.isLt _))
    rw [hlen]
    exact h₄
  · exact tallies_pure hm

/-- and it is at zero when the descriptor is done. -/
theorem tallies_input {d : Desc} (hm : Within c stack m₀ g₀ m g)
    (hreq : (m.chan c).xferDone ≤ d.req) :
    Tallies counts (input w serve c d) m g fun _ => Within c stack m₀ g₀ := by
  have hS := within_steadfast hserve m₀ g₀
  unfold input
  refine tallies_bind ((tallies_takeBytes hserve hm hreq).mono fun moved m₁ g₁ h₁ => ?_)
  have h₂ := h₁.move (f := fun ch => { ch with xferDone := ch.xferDone + moved })
    fun _ => Leaves.moved
  refine tallies_bind (tallies_change (tallies_bind (tallies_chan ?_)))
  split_ifs
  · exact tallies_pure h₂
  · refine tallies_bind (tallies_streams fun stall => ?_)
    split_ifs
    · exact tallies_pure h₂
    · exact hS.tallies_complete_done h₂
  · exact hS.tallies_complete_done h₂

theorem tallies_output {d : Desc} (hm : Within c stack m₀ g₀ m g)
    (hreq : (m.chan c).xferDone ≤ d.req) :
    Tallies counts (output w serve c d) m g fun _ => Within c stack m₀ g₀ := by
  have hS := within_steadfast hserve m₀ g₀
  unfold output
  refine tallies_bind (tallies_look ?_)
  split
  · refine tallies_bind (tallies_chan ?_)
    have hat : Turn c stack m₀ g₀ (fun x _ => x ≤ (m.chan c).xferDone) m g :=
      ⟨hm.others, Nat.le_refl _⟩
    refine tallies_bind (tallies_request hreq (Nat.le_refl _) hat id fun g₁ h₁ => ?_)
    have hleft : Steadfast serve
        (Turn c stack m₀ g₀ (Leaves (d.req - (m.chan c).xferDone).toNat)) :=
      turn_steadfast hserve Leaves.drop
    refine tallies_bind ((hleft.tallies_act h₁).mono fun _ m₂ g₂ h₂ => ?_)
    refine tallies_bind ((tallies_collect (fun a m g h => tallies_bind
      ((hleft.tallies_busRead h).mono fun _ _ _ h => tallies_pure h)) _ h₂).mono
      fun tmp m₃ g₃ h₃ => ?_)
    refine tallies_bind ((hleft.tallies_act h₃.2).mono fun taken m₄ g₄ h₄ => ?_)
    -- the device took no more than it was given
    have htaken : taken.val ≤ (d.req - (m.chan c).xferDone).toNat := by
      have hlen := h₃.1
      have hlt := taken.isLt
      rw [addresses, List.length_map, List.length_range] at hlen
      omega
    have hval : (BitVec.ofNat 32 taken.val).toNat = taken.val := by
      rw [BitVec.toNat_ofNat]
      exact Nat.mod_eq_of_lt (Nat.lt_of_le_of_lt htaken (BitVec.isLt _))
    have h₅ := h₄.move (Y := Leaves 0)
      (f := fun ch => { ch with xferDone := ch.xferDone + BitVec.ofNat 32 taken.val })
      fun ch hx => Leaves.moved (by unfold Leaves at hx ⊢; omega)
    refine tallies_bind (tallies_change (tallies_bind (tallies_chan ?_)))
    split_ifs
    · exact tallies_pure h₅
    · refine tallies_bind (tallies_streams fun stall => ?_)
      split_ifs
      · exact tallies_pure h₅
      · exact hS.tallies_complete_done h₅
  · exact hS.tallies_complete_done hm

/-- A command, from a cursor within the count that the descriptor is relied on for. -/
theorem tallies_command {d : Desc} (hm : Within c stack m₀ g₀ m g)
    (hreq : d.op < 4 → d.req = g c ∨ (m.chan c).xferDone ≤ d.req) :
    Tallies counts (command w serve c d) m g fun _ => Within c stack m₀ g₀ := by
  have hS := within_steadfast hserve m₀ g₀
  have hle : d.op < 4 → (m.chan c).xferDone ≤ d.req := by
    intro hop
    rcases hreq hop with hsame | hle
    · rw [hsame]
      exact hm.own
    · exact hle
  unfold command
  split
  · refine tallies_bind ((hS.tallies_own ?_ hm).mono fun _ _ _ h => tallies_pure h)
    exact fun _ => Or.inr rfl
  · next hop => exact tallies_input hserve hm (hle (by omega))
  · next hop => exact tallies_input hserve hm (hle (by omega))
  · next hop => exact tallies_output hserve hm (hle (by omega))
  · next hop => exact tallies_output hserve hm (hle (by omega))
  · exact hS.tallies_storeQuad hm
  · exact hS.tallies_loadQuad hm
  · exact hS.tallies_complete_done hm
  · refine tallies_bind ((hS.tallies_own ?_ hm).mono fun _ _ _ h => tallies_pure h)
    exact fun _ => Or.inl rfl

/-- **The loop of `run`.** -/
theorem tallies_turns (n : ℕ) : ∀ (idle : U32) (m : Machine ρ) (g : Counts),
    Within c stack m₀ g₀ m g →
    Tallies counts (turns w serve c n idle) m g fun _ => Within c stack m₀ g₀ := by
  have hS := within_steadfast hserve m₀ g₀
  induction n with
  | zero => exact fun idle m g hm => tallies_pure hm
  | succ n ih =>
      intro idle m g hm
      unfold turns
      refine tallies_bind (tallies_chan ?_)
      by_cases hrun : (!(m.chan c).has kRun) = true
      · rw [if_pos hrun]
        exact tallies_pure hm
      · rw [if_neg hrun]
        refine tallies_bind ((hS.tallies_fetch hm).mono fun d m₁ g₁ h₁ => ?_)
        refine tallies_bind ((tallies_command hserve h₁.1 h₁.2).mono fun fate m₂ g₂ h₂ => ?_)
        rcases fate with _ | moved
        · exact tallies_pure h₂
        · have hadvance : Tallies counts (advance w serve c d) m₂ g₂
              fun _ => Within c stack m₀ g₀ :=
            tallies_bind ((hS.tallies_own (fun _ => Or.inr rfl) h₂).mono
              fun _ _ _ h => hS.tallies_goOn h)
          refine tallies_bind (hadvance.mono fun _ m₃ g₃ h₃ => ?_)
          split_ifs
          · exact ih _ m₃ g₃ h₃
          · exact tallies_pure h₃
          · exact ih _ m₃ g₃ h₃

/-- A `run` entered with none of its channel open. -/
theorem tallies_run (hc : Frame.run c ∉ stack) (hm : Nested stack m₀ g₀ m g) :
    Tallies counts (run w serve c) m g fun _ => Nested stack m₀ g₀ := by
  have hown := hm c
  rw [NestedAt, if_neg hc] at hown
  refine (tallies_turns hserve 65536 0#32 m g ⟨fun c' _ => hm c', hown⟩).mono
    fun _ m' g' h' c' => ?_
  by_cases hne : c' = c
  · rw [hne, NestedAt, if_neg hc]
    exact h'.own
  · exact h'.others c' hne

end Run

/-! ## The registers' side -/

section Calls

variable {call : Frame → Dma ρ Unit} (hdrop : ∀ m m' g, Drops m m' → S m g → S m' g)
  (hcall : ∀ f m g, S m g → Tallies counts (call f) m g fun _ => S)
include hdrop hcall

theorem tallies_flushArm (hm : S m g) : Tallies counts (flushArm call c) m g fun _ => S := by
  unfold flushArm
  refine tallies_bind (tallies_chan ?_)
  split_ifs
  · exact tallies_bind (tallies_change (hcall _ _ _
      (hdrop _ _ _ (drops_setChan fun _ => Or.inl rfl) hm)))
  · exact tallies_bind (tallies_change (tallies_pure
      (hdrop _ _ _ (drops_setChan fun _ => Or.inl rfl) hm)))
  · exact tallies_pure hm

theorem tallies_wakeArm (hm : S m g) : Tallies counts (wakeArm call c) m g fun _ => S := by
  unfold wakeArm
  refine tallies_bind (tallies_chan ?_)
  split_ifs
  · exact tallies_bind (tallies_change (hcall _ _ _
      (hdrop _ _ _ (drops_setChan fun _ => Or.inl rfl) hm)))
  · exact tallies_bind (tallies_change (tallies_pure
      (hdrop _ _ _ (drops_setChan fun _ => Or.inl rfl) hm)))
  · exact tallies_pure hm

/-- A fresh list starts with its cursor dropped. -/
theorem tallies_startArm {wasRun : Bool} (hm : S m g) :
    Tallies counts (startArm call c wasRun) m g fun _ => S := by
  unfold startArm
  refine tallies_bind (tallies_chan ?_)
  split_ifs
  · exact tallies_bind (tallies_change (hcall _ _ _
      (hdrop _ _ _ (drops_setChan fun _ => Or.inr rfl) hm)))
  · exact tallies_pure hm

omit hcall in
theorem tallies_stopArm (hm : S m g) :
    Tallies counts (stopArm c : Dma ρ Unit) m g fun _ => S := by
  unfold stopArm
  refine tallies_bind (tallies_chan ?_)
  split_ifs
  · exact tallies_change (hdrop _ _ _ (drops_setChan fun _ => Or.inr rfl) hm)
  · exact tallies_pure hm

theorem tallies_channelControl {native : U32} (hm : S m g) :
    Tallies counts (channelControl call c native) m g fun _ => S := by
  unfold channelControl
  refine tallies_bind (tallies_chan (tallies_bind (tallies_change ?_)))
  have h₁ : S (m.setChan c fun ch => ch.latch native) g :=
    hdrop _ _ _ (drops_setChan fun _ => Or.inl rfl) hm
  refine tallies_bind ((tallies_flushArm hdrop hcall h₁).mono fun _ _ _ h₂ => ?_)
  refine tallies_bind ((tallies_wakeArm hdrop hcall h₂).mono fun _ _ _ h₃ => ?_)
  refine tallies_bind ((tallies_startArm hdrop hcall h₃).mono fun _ _ _ h₄ => ?_)
  exact tallies_stopArm hdrop h₄

theorem tallies_channelWrite {stack : List Frame} {off v : U32} {len : ℕ} (hm : S m g) :
    Tallies counts (channelWrite call stack c off v len) m g fun _ => S := by
  have hset : ∀ f : DbdmaChannel → DbdmaChannel, (∀ ch, (f ch).xferDone = ch.xferDone) →
      Tallies counts (setChan c f : Dma ρ Unit) m g fun _ => S := fun f hf =>
    tallies_change (hdrop _ _ _ (drops_setChan fun ch => Or.inl (hf ch)) hm)
  unfold channelWrite
  refine tallies_bind (tallies_chan ?_)
  split
  · exact tallies_bind (tallies_note fun _ => ⟨trivial, tallies_channelControl hdrop hcall hm⟩)
  · split_ifs
    · exact tallies_pure hm
    · exact hset _ fun _ => rfl
  · exact hset _ fun _ => rfl
  · exact hset _ fun _ => rfl
  · exact hset _ fun _ => rfl
  · exact tallies_pure hm

omit hdrop in
theorem tallies_wake {stack : List Frame} (hm : S m g) :
    Tallies counts (wake call stack c) m g fun _ => S := by
  unfold wake
  refine tallies_bind (tallies_chan ?_)
  split_ifs
  · exact tallies_bind (tallies_note fun _ => ⟨trivial, hcall _ _ _ hm⟩)
  · exact tallies_pure hm

theorem hit_steadfast {stack : List Frame} : Steadfast (hit call stack) S where
  drop := hdrop
  serve h m g hm := by
    cases h with
    | reg c off v len => exact tallies_channelWrite hdrop hcall hm
    | wake c => exact tallies_wake hcall hm

end Calls

/-! ## Nesting -/

theorem nested_drop (m m' : Machine ρ) (g : Counts) (hd : Drops m m')
    (hm : Nested stack m₀ g₀ m g) : Nested stack m₀ g₀ m' g :=
  fun c => (hm c).drop (hd c)

/-- **A frame keeps what is nested around it**, whatever it enters itself. -/
theorem tallies_enter (d : ℕ) : ∀ stack f m g m₀ g₀, Nested stack m₀ g₀ m g →
    Tallies counts (enter w d stack f) m g fun _ => Nested stack m₀ g₀ := by
  induction d with
  | zero =>
      intro stack f m g m₀ g₀ hm
      unfold enter
      exact tallies_bind (tallies_note fun _ => ⟨trivial, tallies_quit⟩)
  | succ d ih =>
      intro stack f m g m₀ g₀ hm
      have hserve : Serves (hit (enter w d (f :: stack)) (f :: stack)) (f :: stack) := by
        intro h m g m₀ g₀ hm
        exact (hit_steadfast nested_drop fun f' m' g' => ih _ f' m' g' m₀ g₀).serve h m g hm
      unfold enter
      refine tallies_bind (tallies_note fun hr => ⟨trivial, ?_⟩)
      cases f with
      | run c => exact tallies_run hserve hr hm
      | flush c =>
          refine ((nested_steadfast hserve).tallies_flush (nested_flush_iff.mpr hm)).mono ?_
          exact fun _ _ _ h => nested_flush_iff.mp h

/-- An operation from outside, with no frame open. -/
theorem tallies_op {d : ℕ} (op : Op ρ) (hm : Nested [] m₀ g₀ m g) :
    Tallies counts (op.exec w d) m g fun _ => Nested [] m₀ g₀ := by
  have hS : Steadfast (hit (enter w d []) []) (Nested [] m₀ g₀) :=
    hit_steadfast nested_drop fun f m g => tallies_enter d [] f m g m₀ g₀
  cases op with
  | write pa v len => exact hS.tallies_busWrite hm
  | wake c => exact hS.serve (.wake c) m g hm
  | guest f => exact tallies_change (nested_drop m _ g (fun _ => Or.inl rfl) hm)

/-- **Requests stay in bounds**, over any history from cursors at zero: any writes, wakes, devices
and nesting, and any rewriting of the descriptors that leaves a channel holding a cursor a count no
less than it. -/
theorem requests_inBounds (w : World ρ) (d : ℕ) (ops : List (Op ρ)) (m : Machine ρ)
    (hm : ∀ c, (m.chan c).xferDone = 0#32)
    (hresumed : Along Counts.post Event.Resumed (fun _ => 0#32) (history w d ops m).log) :
    ∀ r, Event.request r ∈ (history w d ops m).log → r.InBounds := by
  have hstart : Nested [] m (fun _ => 0#32) m (fun _ => 0#32) := by
    intro c
    rw [NestedAt, if_neg List.not_mem_nil, hm c]
    exact Nat.le_refl _
  have hkept := (tallies_forEach (fun op m g h => tallies_op (w := w) (d := d) op h) ops hstart
    hresumed).1
  exact fun r hr => hkept.forall (q := Event.Bounded) (fun _ _ h => h) _ hr

/-- The guest raises `reqCount` to 14 over the four bytes moved, leaves it for a wake, and lowers it
to 13 over twelve. -/
def resumeOps : List (Op (ℕ → U8)) :=
  [.write 0x8000890C#32 0x00010000#32 4, .write 0x80008900#32 0x00800080#32 4,
    .guest fun r => Function.update r 0x100 14#8, .wake .sndIn, .wake .sndIn,
    .guest fun r => Function.update r 0x100 13#8, .wake .sndIn]

theorem requests_inBounds_resume :
    ¬ ∃ r, Event.request r ∈ (history codecWorld levels resumeOps (powerOn inputRam)).log
      ∧ ¬ r.InBounds := by
  rintro ⟨r, hr, hout⟩
  exact hout (requests_inBounds codecWorld levels resumeOps (powerOn inputRam) (fun _ => rfl)
    (by decide +kernel) r hr)

end Dma

end OpenPowerMac
