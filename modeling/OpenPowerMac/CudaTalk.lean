/-
The conversation of the host with the Cuda: the two sides of it, and the wires between.

The host's side is what it has shifted out and in (`CudaHost`), the Cuda's what it has heard and
answered (`Recorded`). The handshake (`Follows`) is on the edges of port B that the host makes;
what an edge does to the transport is read off the wires alone (`link`).
-/
import OpenPowerMac.MacIo

set_option autoImplicit false

namespace OpenPowerMac

open ViaReg

/-! ## Both sides -/

/-- A packet engine, and what it has heard and answered. -/
structure Recorded (κ : Type) where
  dev : κ
  packets : List (List U8)
  responses : List (List U8)

/-- Every packet and every response is written down. -/
def PacketEngine.recorded {κ : Type} (E : PacketEngine κ) : PacketEngine (Recorded κ) where
  hostPacket k pkt :=
    { dev := E.hostPacket k.dev pkt
      packets := k.packets ++ [pkt]
      responses := k.responses ++ [E.response (E.hostPacket k.dev pkt)] }
  response k := E.response k.dev
  consumeResponse k := { k with dev := E.consumeResponse k.dev }

/-- The Cuda with its record. -/
def Cuda.recorded : PacketEngine (Recorded Cuda) := Cuda.engine.recorded

/-- A transfer as the host has it. With no response to collect it is null, and no byte of it
is one. -/
inductive Transfer where
  | closed
  | shiftOut (pkt : List U8)
  | shiftIn (bytes : List U8)
  | null

/-- A clocking edge that the transfer expects. -/
def Transfer.ClocksWell (out staged : Prop) : Transfer → Prop
  | .closed => False
  | .shiftOut _ => out ∧ staged
  | .shiftIn _ => ¬ out
  | .null => True

/-- A closing edge that the transfer expects. -/
def Transfer.ClosesWell (negated : Prop) : Transfer → Prop
  | .shiftIn _ => negated
  | _ => True

instance (out staged : Prop) [Decidable out] [Decidable staged] (tr : Transfer) :
    Decidable (tr.ClocksWell out staged) :=
  match tr with
  | .closed => inferInstanceAs (Decidable False)
  | .shiftOut _ => inferInstanceAs (Decidable (_ ∧ _))
  | .shiftIn _ => inferInstanceAs (Decidable (¬ _))
  | .null => inferInstanceAs (Decidable True)

instance (negated : Prop) [Decidable negated] (tr : Transfer) : Decidable (tr.ClosesWell negated) :=
  match tr with
  | .closed => inferInstanceAs (Decidable True)
  | .shiftOut _ => inferInstanceAs (Decidable True)
  | .shiftIn _ => inferInstanceAs (Decidable negated)
  | .null => inferInstanceAs (Decidable True)

/-- The host: the transfer that is open, the byte that waits in the shift register, and the
packets and responses that are over. -/
structure CudaHost where
  transfer : Transfer
  staged : Option U8
  sent : List (List U8)
  collected : List (List U8)

/-- What happens at the VIA. -/
inductive ViaAccess where
  | tick
  | read (r : ViaReg)
  | write (r : ViaReg) (v : U8)

def MacIo.step {κ : Type} (E : PacketEngine κ) (s : MacIo κ) : ViaAccess → MacIo κ
  | .tick => s.tick E
  | .read r => (s.viaRead r).2
  | .write r v => s.viaWrite E r v

/-! ## The edges of port B -/

/-- TIP is asserted. -/
def Opens (old now : U8) : Prop := Low bTIP now ∧ ¬ Low bTIP old

/-- TIP is negated. -/
def Closes (old now : U8) : Prop := ¬ Low bTIP now ∧ Low bTIP old

/-- TACK flips inside a transfer. -/
def Clocks (old now : U8) : Prop :=
  Low bTIP now ∧ Low bTIP old ∧ (old ^^^ now) &&& bTACK ≠ 0#8

instance (old now : U8) : Decidable (Opens old now) := inferInstanceAs (Decidable (_ ∧ _))
instance (old now : U8) : Decidable (Closes old now) := inferInstanceAs (Decidable (_ ∧ _))
instance (old now : U8) : Decidable (Clocks old now) := inferInstanceAs (Decidable (_ ∧ _))

/-! ## The host -/

namespace CudaHost

variable {κ : Type} (E : PacketEngine κ)

def atRest : CudaHost := { transfer := .closed, staged := none, sent := [], collected := [] }

/-- A transfer opens. The edge clocks its first byte, in either direction. -/
def opened (h : CudaHost) (s s' : MacIo κ) : CudaHost :=
  if s.ShiftsOut then { h with transfer := .shiftOut h.staged.toList, staged := none }
  else if E.hasResponse s.cuda then { h with transfer := .shiftIn [s'.via vSR], staged := none }
  else { h with transfer := .null, staged := none }

/-- A transfer closes. -/
def closed (h : CudaHost) : CudaHost :=
  match h.transfer with
  | .shiftOut pkt => { h with transfer := .closed, sent := h.sent ++ [pkt] }
  | .shiftIn bytes => { h with transfer := .closed, collected := h.collected ++ [bytes] }
  | _ => { h with transfer := .closed }

/-- An edge of TACK: the staged byte is out, or there is another one in as long as TREQ is
asserted. -/
def clocked (h : CudaHost) (s s' : MacIo κ) : CudaHost :=
  match h.transfer with
  | .shiftOut pkt => { h with transfer := .shiftOut (pkt ++ h.staged.toList), staged := none }
  | .shiftIn bytes =>
    if Low bTREQ (s.via vORB) then
      { h with transfer := .shiftIn (bytes ++ [s'.via vSR]), staged := none }
    else h
  | _ => h

/-- What an access is for the host. -/
def step (h : CudaHost) (s s' : MacIo κ) : ViaAccess → CudaHost
  | .write vSR v => { h with staged := some v }
  | .write vORB _ =>
    if Opens (s.via vORB) (s'.via vORB) then h.opened E s s'
    else if Closes (s.via vORB) (s'.via vORB) then h.closed
    else if Clocks (s.via vORB) (s'.via vORB) then h.clocked s s'
    else h
  | _ => h

end CudaHost

/-- The mac-io and the host, side by side. -/
structure Talk (κ : Type) where
  io : MacIo κ
  host : CudaHost

namespace Talk

variable {κ : Type} (E : PacketEngine κ)

def step (t : Talk κ) (a : ViaAccess) : Talk κ :=
  { io := t.io.step E a, host := t.host.step E t.io (t.io.step E a) a }

def run (t : Talk κ) (as : List ViaAccess) : Talk κ := as.foldl (step E) t

/-- The handshake, at an opening edge: a shift-out has its first byte staged and finds TREQ
negated, a shift-in finds it asserted. -/
structure OpensWell (t : Talk κ) : Prop where
  out : t.io.ShiftsOut → ¬ Low bTREQ (t.io.via vORB) ∧ t.host.staged ≠ none
  in_ : ¬ t.io.ShiftsOut → Low bTREQ (t.io.via vORB)

/-- The handshake, at a clocking edge: inside a transfer, in its direction, and with the byte
staged that is to go out. -/
def ClocksWell (t : Talk κ) : Prop := t.host.transfer.ClocksWell t.io.ShiftsOut (t.host.staged ≠ none)

/-- The handshake, at a closing edge: each byte of a response is clocked before. -/
def ClosesWell (t : Talk κ) : Prop := t.host.transfer.ClosesWell (¬ Low bTREQ (t.io.via vORB))

/-- The handshake. -/
def Follows (t : Talk κ) : ViaAccess → Prop
  | .write vORB v =>
    let old := t.io.via vORB
    let now := (t.io.step E (.write vORB v)).via vORB
    (Opens old now → t.OpensWell) ∧ (Closes old now → t.ClosesWell) ∧ (Clocks old now → t.ClocksWell)
  | _ => True

/-- No command is opened while a response waits. -/
def Clear (t : Talk κ) : ViaAccess → Prop
  | .write vORB v =>
    Opens (t.io.via vORB) ((t.io.step E (.write vORB v)).via vORB) → t.io.ShiftsOut →
      ¬ E.hasResponse t.io.cuda
  | _ => True

instance (t : Talk κ) : Decidable t.OpensWell :=
  decidable_of_iff
    ((t.io.ShiftsOut → ¬ Low bTREQ (t.io.via vORB) ∧ t.host.staged ≠ none)
      ∧ (¬ t.io.ShiftsOut → Low bTREQ (t.io.via vORB)))
    ⟨fun h => ⟨h.1, h.2⟩, fun h => ⟨h.out, h.in_⟩⟩

instance (t : Talk κ) : Decidable t.ClocksWell := inferInstanceAs (Decidable (Transfer.ClocksWell _ _ _))

instance (t : Talk κ) : Decidable t.ClosesWell := inferInstanceAs (Decidable (Transfer.ClosesWell _ _))

instance decFollows (E : PacketEngine κ) (t : Talk κ) (a : ViaAccess) : Decidable (t.Follows E a) :=
  match a with
  | .tick => inferInstanceAs (Decidable True)
  | .read _ => inferInstanceAs (Decidable True)
  | .write r v => by
    cases r
    case vORB => exact inferInstanceAs (Decidable ((_ → t.OpensWell) ∧ (_ → t.ClosesWell) ∧ (_ → t.ClocksWell)))
    all_goals exact inferInstanceAs (Decidable True)

instance decClear (E : PacketEngine κ) (t : Talk κ) (a : ViaAccess) : Decidable (t.Clear E a) :=
  match a with
  | .tick => inferInstanceAs (Decidable True)
  | .read _ => inferInstanceAs (Decidable True)
  | .write r v => by
    cases r
    case vORB => exact inferInstanceAs (Decidable (_ → _ → ¬ _))
    all_goals exact inferInstanceAs (Decidable True)

/-- Every step of a run. -/
def Always (P : Talk κ → ViaAccess → Prop) : Talk κ → List ViaAccess → Prop
  | _, [] => True
  | t, a :: as => P t a ∧ Always P (t.step E a) as

instance decAlways (P : Talk κ → ViaAccess → Prop) [∀ t a, Decidable (P t a)] :
    (t : Talk κ) → (as : List ViaAccess) → Decidable (t.Always E P as)
  | _, [] => inferInstanceAs (Decidable True)
  | t, a :: as =>
    have := decAlways P (t.step E a) as
    inferInstanceAs (Decidable (P t a ∧ _))

end Talk

/-! ## The lines -/

open MacIo (wired)

theorem low_treq_wired (treq : Bool) (orb : U8) : Low bTREQ (wired treq orb) ↔ treq = true := by
  unfold wired Low
  rcases treq with _ | _
  · revert orb
    decide
  · revert orb
    decide

theorem wired_and_tip (treq : Bool) (orb : U8) : wired treq orb &&& bTIP = orb &&& bTIP := by
  unfold wired
  rcases treq with _ | _
  · revert orb
    decide
  · revert orb
    decide

theorem wired_and_tack (treq : Bool) (orb : U8) : wired treq orb &&& bTACK = orb &&& bTACK := by
  unfold wired
  rcases treq with _ | _
  · revert orb
    decide
  · revert orb
    decide

/-- What the wires of the transport carry. -/
structure Link (κ : Type) where
  cuda : κ
  orb : U8
  sr : U8
  hostPkt : List U8
  respIndex : ℕ
  respDelay : ℕ
  sending : Bool
  receiving : Bool
  syncing : Bool
  treq : Bool

namespace MacIo

variable {κ : Type} (s : MacIo κ)

def link : Link κ where
  cuda := s.cuda
  orb := s.via vORB
  sr := s.via vSR
  hostPkt := s.hostPkt
  respIndex := s.respIndex
  respDelay := s.respDelay
  sending := s.sending
  receiving := s.receiving
  syncing := s.syncing
  treq := s.treq

@[simp] theorem link_setIfr (bits : U8) : (s.setIfr bits).link = s.link := rfl

@[simp] theorem link_clearIfr (bits : U8) : (s.clearIfr bits).link = s.link := rfl

@[simp] theorem link_setVia_sr (v : U8) : (s.setVia vSR v).link = { s.link with sr := v } := rfl

@[simp] theorem link_setVia_orb (v : U8) : (s.setVia vORB v).link = { s.link with orb := v } := rfl

@[simp] theorem link_updateTreq :
    s.updateTreq.link = { s.link with orb := wired s.treq (s.via vORB) } := by
  unfold updateTreq
  dsimp only
  split <;> rfl

@[simp] theorem link_setTreq (v : Bool) :
    (s.setTreq v).link = { s.link with treq := v, orb := wired v (s.via vORB) } := by
  rw [setTreq, link_updateTreq]
  rfl

@[simp] theorem via_acr_updateTreq : s.updateTreq.via vACR = s.via vACR := by
  unfold updateTreq
  dsimp only
  split <;> rfl

/-- The write to port B before its edges act. -/
def orbDriven (v : U8) : MacIo κ :=
  (s.setVia vORB ((s.via vORB &&& ~~~(s.via vDDRB)) ||| (v &&& s.via vDDRB))).updateTreq

theorem acr_orbDriven (v : U8) : (s.orbDriven v).via vACR = s.via vACR := by
  rw [orbDriven, via_acr_updateTreq]
  rfl

theorem cuda_orbDriven (v : U8) : (s.orbDriven v).cuda = s.cuda := by
  change (s.orbDriven v).link.cuda = _
  rw [orbDriven, link_updateTreq]
  rfl

variable (E : PacketEngine κ)

theorem link_shiftByte (b : U8) :
    (s.shiftByte E b).link =
      if (E.response s.cuda).length ≤ s.respIndex + 1 then
        { s.link with respIndex := s.respIndex + 1, sr := b, treq := false, orb := wired false (s.via vORB) }
      else { s.link with respIndex := s.respIndex + 1, sr := b } := by
  change MacIo.link (if (E.response s.cuda).length ≤ s.respIndex + 1 then
    MacIo.setTreq _ false else _) = _
  split
  · rw [link_setTreq]
    rfl
  · rfl

/-! ## What a transfer leaves of port B -/

/-- TIP and TACK are the host's. -/
def SameLines (o o' : U8) : Prop := o' &&& bTIP = o &&& bTIP ∧ o' &&& bTACK = o &&& bTACK

theorem sameLines_wired (treq : Bool) (o : U8) : SameLines o (wired treq o) :=
  ⟨wired_and_tip treq o, wired_and_tack treq o⟩

theorem sameLines_setTreq (v : Bool) : SameLines (s.via vORB) ((s.setTreq v).via vORB) := by
  have horb : (s.setTreq v).via vORB = wired v (s.via vORB) := congrArg Link.orb (s.link_setTreq v)
  rw [horb]
  exact sameLines_wired v _

theorem sameLines_shiftByte (b : U8) : SameLines (s.via vORB) ((s.shiftByte E b).via vORB) := by
  have horb := congrArg Link.orb (s.link_shiftByte E b)
  change (s.shiftByte E b).via vORB = _ at horb
  rw [horb]
  split
  · exact sameLines_wired false _
  · exact ⟨rfl, rfl⟩

theorem sameLines_cudaClockByte : SameLines (s.via vORB) ((s.cudaClockByte E).via vORB) := by
  unfold cudaClockByte
  split
  · exact ⟨rfl, rfl⟩
  · split
    · exact ⟨rfl, rfl⟩
    · split
      · split
        · exact ⟨rfl, rfl⟩
        · exact s.sameLines_shiftByte E _
      · exact ⟨rfl, rfl⟩

theorem sameLines_tackEdge : SameLines (s.via vORB) ((s.tackEdge E).via vORB) := by
  unfold tackEdge
  split
  · exact s.sameLines_setTreq false
  · exact s.sameLines_cudaClockByte E

theorem sameLines_transferOpens : SameLines (s.via vORB) ((s.transferOpens E).via vORB) := by
  unfold transferOpens
  split
  · exact sameLines_shiftByte _ E _
  · split_ifs
    · exact ⟨rfl, rfl⟩
    · exact sameLines_setTreq _ true

theorem via_packetEnds : (s.packetEnds E).via = s.via := by
  unfold packetEnds
  dsimp only
  split_ifs <;> rfl

theorem sameLines_transferCloses : SameLines (s.via vORB) ((s.transferCloses E).via vORB) := by
  change SameLines _ (((s.packetEnds E).responseEnds E).via vORB)
  unfold responseEnds
  split_ifs
  · have hlines := sameLines_setTreq
      { s.packetEnds E with
        sending := false, cuda := E.consumeResponse (s.packetEnds E).cuda, respIndex := 0 } false
    rwa [show ({ s.packetEnds E with
      sending := false, cuda := E.consumeResponse (s.packetEnds E).cuda, respIndex := 0 } : MacIo κ).via
        = s.via from s.via_packetEnds E] at hlines
  · rw [via_packetEnds]
    exact ⟨rfl, rfl⟩

theorem sameLines_tickResponse : SameLines (s.via vORB) ((s.tickResponse E).via vORB) := by
  unfold tickResponse
  dsimp only
  split_ifs
  · exact sameLines_setTreq _ true
  · exact ⟨rfl, rfl⟩
  · exact ⟨rfl, rfl⟩

theorem sameLines_syncStep : SameLines (s.via vORB) (s.syncStep.via vORB) := by
  unfold syncStep
  dsimp only
  split_ifs
  · exact sameLines_setTreq _ _
  · exact sameLines_setTreq _ _

end MacIo

theorem xor_and_eq (x y z : U8) : (x ^^^ y) &&& z = (x &&& z) ^^^ (y &&& z) := by
  ext i
  simp [Bool.and_xor_distrib_right]

/-- The edges do not depend on TREQ. -/
theorem edges_congr (old : U8) {o o' : U8} (h : MacIo.SameLines o o') :
    (Opens old o' ↔ Opens old o) ∧ (Closes old o' ↔ Closes old o) ∧ (Clocks old o' ↔ Clocks old o) := by
  obtain ⟨htip, htack⟩ := h
  have hlow : Low bTIP o' ↔ Low bTIP o := by rw [Low, Low, htip]
  have hflip : (old ^^^ o') &&& bTACK = (old ^^^ o) &&& bTACK := by
    rw [xor_and_eq, htack, ← xor_and_eq]
  refine ⟨?_, ?_, ?_⟩
  · rw [Opens, Opens, hlow]
  · rw [Closes, Closes, hlow]
  · rw [Clocks, Clocks, hlow, hflip]

end OpenPowerMac
