/-
What the engine asks of a device.

A request is for `reqCount - xferDone` bytes in 32 bits, at the descriptor's
address plus `xferDone`; it is in bounds exactly when the cursor is not past
`reqCount`. The cursor outlives a park while the descriptor stays in guest memory,
so the subtraction wraps when the guest has shrunk `reqCount` below it.
-/
import OpenPowerMac.DbdmaNesting

set_option autoImplicit false

namespace OpenPowerMac

open Trace Trace.Prog DbdmaChannel

/-- A request is for at most what is left of the descriptor, and touches only the
descriptor's own buffer. -/
def Request.InBounds (r : Request) : Prop :=
  r.cursor.toNat + r.want.toNat ≤ r.req.toNat
    ∧ ∀ a ∈ r.touched, (a - r.addr).toNat < r.req.toNat

/-- The cursor decides. -/
theorem Request.Sound.inBounds_iff {r : Request} (h : r.Sound) :
    r.InBounds ↔ r.cursor.toNat ≤ r.req.toNat := by
  obtain ⟨hwant, htouched⟩ := h
  have hreq := r.req.isLt
  constructor
  · rintro ⟨hle, -⟩
    omega
  · intro hle
    have hval : r.want.toNat = r.req.toNat - r.cursor.toNat := by
      rw [hwant, BitVec.toNat_sub_of_le hle]
    refine ⟨by omega, ?_⟩
    intro a ha
    obtain ⟨k, hk, rfl⟩ := htouched a ha
    have hoff : r.addr + r.cursor + BitVec.ofNat 32 k - r.addr = r.cursor + BitVec.ofNat 32 k := by
      rw [BitVec.add_assoc, BitVec.add_comm r.addr, BitVec.add_sub_cancel]
    rw [hoff, BitVec.toNat_add, BitVec.toNat_ofNat]
    omega

namespace Dma

variable {ρ : Type}

/-- A history of the machine: operations one after another. -/
def history (w : World ρ) (d : ℕ) (ops : List (Op ρ)) : Dma ρ Unit :=
  forEach ops fun op => op.exec w d

/-- Nothing unsound is ever logged. -/
theorem history_sound (w : World ρ) (d : ℕ) (ops : List (Op ρ)) (m : Machine ρ) :
    ∀ e ∈ (history w d ops m).log, e.Sound := by
  have hroom : Room ⟨fun _ => True, Event.Sound, True⟩ fun _ _ => True :=
    ⟨fun _ _ _ _ => trivial, fun _ _ _ _ _ => trivial⟩
  have hop (op : Op ρ) (m : Machine ρ) (_ : True) :
      Meets ⟨fun _ => True, Event.Sound, True⟩ (op.exec w d) m fun _ _ => True :=
    meets_exec_true (fun _ h => h) hroom trivial op
  exact (meets_forEach hop ops trivial fun _ _ => trivial).1

/-! ## A descriptor that shrinks under a parked channel -/

/-- A machine with a codec that supplies four bytes at a time, and streams. -/
def codecWorld : World (ℕ → U8) where
  limit := 0
  bus _ := { ramSize := 0x4000000, romSize := 0 }
  noteNow r := r
  read pa len r := .done r (ramRead r pa len)
  write pa v len r := .done (ramWrite r pa v len) ()
  snoopBeforeDmaRead _ _ r := .done r ()
  snoopBeforeDmaWrite _ _ r := .done r ()
  dmaTake _ n r := .done r ⟨List.replicate (min n.toNat 4) 0#8, by simp⟩
  dmaGive _ bs r := .done r ⟨min bs.length 4, by omega⟩
  dmaWriteSink _ _ := true
  dmaStreams _ _ := true

/-- Power-on. -/
def powerOn (r : ρ) : Machine ρ := ⟨fun _ => {}, r⟩

/-- An `INPUT_MORE` for eight bytes to 0x200, at 0x100. -/
def inputRam (a : ℕ) : U8 :=
  if a = 0x100 then 8#8 else if a = 0x103 then 0x20#8 else if a = 0x105 then 2#8 else 0#8

/-- The audio input channel is pointed at it and started; it parks after four
bytes. The guest makes `reqCount` 2, and the channel is woken. -/
def shrinkOps : List (Op (ℕ → U8)) :=
  [.write 0x8000890C#32 0x00010000#32 4, .write 0x80008900#32 0x00800080#32 4,
    .guest fun r => Function.update r 0x100 2#8, .wake .sndIn]

/-- A logged request's cursor is inside its count. -/
def cursorFits : Event → Bool
  | .request r => decide (r.cursor.toNat ≤ r.req.toNat)
  | _ => true

theorem request_outOfBounds : ¬ ∀ (ops : List (Op (ℕ → U8))) (r : Request),
    Event.request r ∈ (history codecWorld levels ops (powerOn inputRam)).log → r.InBounds := by
  intro h
  -- the cursor alone tells, and the kernel can run the history for it
  have hpast :
      (history codecWorld levels shrinkOps (powerOn inputRam)).log.all cursorFits = false := by
    decide +kernel
  refine absurd (List.all_eq_true.mpr ?_) (by rw [hpast]; decide)
  intro e he
  cases e with
  | request r =>
      obtain ⟨hle, -⟩ := h shrinkOps r he
      exact decide_eq_true (by omega)
  | _ => rfl

end Dma

end OpenPowerMac
