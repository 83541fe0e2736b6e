/-
What the conversation keeps.

The wires agree with the host on the transfer that is open, and the record with it on those
that are over (`Inv`). So a host that keeps the handshake and opens no command while a response
waits is heard byte for byte, and collects every response whole (`conversation_kept`). The
second condition is needed: `transferOpens` asks whether there is a response, and not whether
it has been announced (`command_lost`).
-/
import OpenPowerMac.CudaTalk

set_option autoImplicit false

namespace OpenPowerMac

open ViaReg

open MacIo (wired)

/-! ## The invariant -/

/-- What the engine is relied on for: every packet is answered, and a response that is
consumed is gone. -/
structure PacketEngine.Answers {κ : Type} (E : PacketEngine κ) : Prop where
  answered : ∀ k pkt, pkt ≠ [] → E.response (E.hostPacket k pkt) ≠ []
  consumed : ∀ k, E.response (E.consumeResponse k) = []

theorem Cuda.engine_answers : Cuda.engine.Answers where
  answered k _ h := k.hostPacket_response h
  consumed _ := rfl

/-- A response that is still to be collected. -/
def pending (r : List U8) : List (List U8) := if r = [] then [] else [r]

section Invariant

variable {κ : Type} (E : PacketEngine κ)

/-- What the wires hold of the host's transfer. -/
def InTransfer (l : Link (Recorded κ)) : Transfer → Prop
  | .closed =>
    l.sending = false ∧ l.receiving = false ∧ l.syncing = false
      ∧ (E.response l.cuda.dev ≠ [] → l.treq = true ∨ l.respDelay ≠ 0)
  | .shiftOut pkt =>
    l.sending = false ∧ l.receiving = true ∧ l.syncing = false
      ∧ l.hostPkt = pkt ∧ pkt ≠ [] ∧ E.response l.cuda.dev = []
  | .shiftIn bytes =>
    l.sending = true ∧ l.receiving = false ∧ l.syncing = false
      ∧ bytes = (E.response l.cuda.dev).take l.respIndex ∧ bytes ≠ []
      ∧ l.respIndex ≤ (E.response l.cuda.dev).length
      ∧ (l.treq = true ↔ l.respIndex < (E.response l.cuda.dev).length)
  | .null =>
    l.sending = false ∧ l.receiving = false ∧ l.syncing = true ∧ E.response l.cuda.dev = []

/-- The wires and the host agree on the transfer that is open, and the record on those that
are over. -/
structure Inv (l : Link (Recorded κ)) (h : CudaHost) : Prop where
  wire : Low bTREQ l.orb ↔ l.treq = true
  transfer : InTransfer E l h.transfer
  staged : ∀ b, h.staged = some b → l.sr = b
  heard : l.cuda.packets = h.sent
  answered : l.cuda.responses = h.collected ++ pending (E.response l.cuda.dev)

variable {E} {l : Link (Recorded κ)} {h : CudaHost}

/-- A byte that is staged. -/
theorem Inv.stage (hinv : Inv E l h) (v : U8) :
    Inv E { l with sr := v } { h with staged := some v } where
  wire := hinv.wire
  transfer := by
    have htransfer := hinv.transfer
    revert htransfer
    rcases h.transfer with _ | pkt | bytes | _ <;> exact id
  staged b hb := Option.some.inj hb
  heard := hinv.heard
  answered := hinv.answered

/-- The tick leaves an open transfer alone: a response that is on its way needs no
announcement. -/
theorem Inv.tickResponse {s : MacIo (Recorded κ)} (hinv : Inv E s.link h) :
    Inv E (s.tickResponse E.recorded).link h := by
  unfold MacIo.tickResponse
  dsimp only
  split
  · next hdelay =>
    split
    · next hlast =>
      obtain ⟨hzero, hsend, hrecv, hresp⟩ := hlast
      rw [MacIo.link_setTreq]
      refine ⟨low_treq_wired true _, ?_, hinv.staged, hinv.heard, hinv.answered⟩
      have htransfer := hinv.transfer
      revert htransfer
      rcases h.transfer with _ | pkt | bytes | _
      · rintro ⟨-, -, hsync, -⟩
        exact ⟨hsend, hrecv, hsync, fun _ => .inl rfl⟩
      · rintro ⟨-, hyes, -⟩
        exact absurd (hrecv.symm.trans hyes) nofun
      · rintro ⟨hyes, -⟩
        exact absurd (hsend.symm.trans hyes) nofun
      · rintro ⟨-, -, -, hnone⟩
        exact absurd hnone hresp
    · next hnot =>
      refine ⟨hinv.wire, ?_, hinv.staged, hinv.heard, hinv.answered⟩
      have htransfer := hinv.transfer
      revert htransfer
      rcases h.transfer with _ | pkt | bytes | _
      · rintro ⟨hsend, hrecv, hsync, -⟩
        refine ⟨hsend, hrecv, hsync, fun hresp => .inr fun hzero => hnot ⟨hzero, hsend, hrecv, hresp⟩⟩
      all_goals exact id
  · exact hinv

theorem Inv.orbDriven {s : MacIo (Recorded κ)} (hinv : Inv E s.link h) (v : U8) :
    Inv E (s.orbDriven v).link h := by
  rw [MacIo.orbDriven, MacIo.link_updateTreq, MacIo.link_setVia_orb]
  refine ⟨low_treq_wired s.treq _, ?_, hinv.staged, hinv.heard, hinv.answered⟩
  have htransfer := hinv.transfer
  revert htransfer
  rcases h.transfer with _ | pkt | bytes | _ <;> exact id

/-! ## The edges -/

/-- A byte of the response is shifted in. -/
theorem inTransfer_shiftByte {s : MacIo (Recorded κ)} {b : U8} {bytes : List U8}
    (hsend : s.sending = true) (hrecv : s.receiving = false) (hsync : s.syncing = false)
    (hbytes : bytes = (E.response s.cuda.dev).take s.respIndex)
    (hb : (E.response s.cuda.dev)[s.respIndex]? = some b) (htreq : s.treq = true) :
    InTransfer E (s.shiftByte E.recorded b).link (.shiftIn (bytes ++ [b])) := by
  have hlt : s.respIndex < (E.response s.cuda.dev).length := (List.getElem?_eq_some_iff.mp hb).1
  have hmore : bytes ++ [b] = (E.response s.cuda.dev).take (s.respIndex + 1) := by
    rw [List.take_add_one, hb, hbytes]
    rfl
  have hne : bytes ++ [b] ≠ [] := by simp
  rw [MacIo.link_shiftByte]
  by_cases hlast : (E.response s.cuda.dev).length ≤ s.respIndex + 1
  · rw [if_pos (show (E.recorded.response s.cuda).length ≤ _ from hlast)]
    refine ⟨hsend, hrecv, hsync, hmore, hne, hlt, ?_⟩
    exact ⟨nofun, fun h => absurd h (not_lt.mpr hlast)⟩
  · rw [if_neg (show ¬ (E.recorded.response s.cuda).length ≤ _ from hlast)]
    refine ⟨hsend, hrecv, hsync, hmore, hne, hlt, ?_⟩
    exact ⟨fun _ => not_le.mp hlast, fun _ => htreq⟩

/-- What a byte shifted in leaves of the rest. -/
theorem inv_shiftByte {s : MacIo (Recorded κ)} {b : U8} {bytes : List U8}
    (hwire : Low bTREQ (s.via vORB) ↔ s.treq = true)
    (htransfer : InTransfer E (s.shiftByte E.recorded b).link (.shiftIn bytes))
    (hheard : s.cuda.packets = h.sent)
    (hanswered : s.cuda.responses = h.collected ++ pending (E.response s.cuda.dev)) :
    Inv E (s.shiftByte E.recorded b).link { h with transfer := .shiftIn bytes, staged := none } := by
  have hcuda : (s.shiftByte E.recorded b).link.cuda = s.cuda := by
    rw [MacIo.link_shiftByte]
    split <;> rfl
  refine ⟨?_, htransfer, nofun, ?_, ?_⟩
  · rw [MacIo.link_shiftByte]
    split
    · exact low_treq_wired false _
    · exact hwire
  · rw [hcuda]
    exact hheard
  · rw [hcuda]
    exact hanswered

theorem Inv.opened {s : MacIo (Recorded κ)} (hinv : Inv E s.link h) (hclosed : h.transfer = .closed)
    (hout : s.ShiftsOut → h.staged ≠ none ∧ E.response s.cuda.dev = [])
    (hin : ¬ s.ShiftsOut → s.treq = true) :
    Inv E (s.transferOpens E.recorded).link (h.opened E.recorded s (s.transferOpens E.recorded)) := by
  have htransfer := hinv.transfer
  rw [hclosed] at htransfer
  obtain ⟨hsend, hrecv, hsync, -⟩ := htransfer
  -- with a response waiting the transfer sends; without one it takes a packet or syncs
  rcases hresp : E.response s.cuda.dev with _ | ⟨b, rest⟩
  · have hnone : ¬ E.recorded.hasResponse s.cuda := fun h => h hresp
    have hopens : s.transferOpens E.recorded =
        if s.ShiftsOut then
          { s with receiving := true, hostPkt := [s.via vSR] }.setIfr iSR
        else ({ s with syncing := true }.setTreq true).setIfr iSR := by
      unfold MacIo.transferOpens
      rw [show E.recorded.response s.cuda = [] from hresp]
    by_cases hacr : s.ShiftsOut
    · obtain ⟨hstaged, -⟩ := hout hacr
      obtain ⟨b, hb⟩ := Option.ne_none_iff_exists'.mp hstaged
      rw [hopens, if_pos hacr, CudaHost.opened, if_pos hacr, hb]
      refine ⟨hinv.wire, ?_, nofun, hinv.heard, hinv.answered⟩
      refine ⟨hsend, rfl, hsync, ?_, by simp, hresp⟩
      exact congrArg (fun x => [x]) (hinv.staged b hb)
    · rw [hopens, if_neg hacr, CudaHost.opened, if_neg hacr, if_neg hnone, MacIo.link_setIfr,
        MacIo.link_setTreq]
      refine ⟨low_treq_wired true _, ?_, nofun, hinv.heard, hinv.answered⟩
      exact ⟨hsend, hrecv, rfl, hresp⟩
  · have hsome : E.recorded.hasResponse s.cuda := by
      change E.response s.cuda.dev ≠ []
      rw [hresp]
      exact List.cons_ne_nil b rest
    have hacr : ¬ s.ShiftsOut := fun hacr => hsome (hout hacr).2
    have hopens : s.transferOpens E.recorded =
        { s with sending := true, respIndex := 0 }.shiftByte E.recorded b := by
      unfold MacIo.transferOpens
      rw [show E.recorded.response s.cuda = b :: rest from hresp]
    have hsr : (s.transferOpens E.recorded).via vSR = b := by
      change (s.transferOpens E.recorded).link.sr = b
      rw [hopens, MacIo.link_shiftByte]
      split <;> rfl
    rw [CudaHost.opened, if_neg hacr, if_pos hsome, hsr, hopens]
    have hbytes := inTransfer_shiftByte (s := { s with sending := true, respIndex := 0 }) rfl hrecv hsync rfl
      (by rw [hresp]; rfl) (hin hacr)
    exact inv_shiftByte hinv.wire hbytes hinv.heard hinv.answered

theorem MacIo.packetEnds_of_not {s : MacIo (Recorded κ)} (hrecv : s.receiving = false) :
    s.packetEnds E.recorded = s := by
  rw [MacIo.packetEnds, if_neg (by rw [hrecv]; exact Bool.false_ne_true)]

theorem MacIo.responseEnds_of_not {s : MacIo (Recorded κ)} (hsend : s.sending = false) :
    s.responseEnds E.recorded = s := by
  rw [MacIo.responseEnds, if_neg (by rw [hsend]; exact Bool.false_ne_true)]

/-- The engine hears the packet, and its answer waits for its announcement. -/
theorem MacIo.packetEnds_of {s : MacIo (Recorded κ)} (hE : E.Answers) (hrecv : s.receiving = true)
    (hpkt : s.hostPkt ≠ []) :
    s.packetEnds E.recorded =
      { s with
        receiving := false, cuda := E.recorded.hostPacket s.cuda s.hostPkt, hostPkt := []
        respDelay := 65536 } := by
  have hresp : E.recorded.hasResponse (E.recorded.hostPacket s.cuda s.hostPkt) :=
    hE.answered s.cuda.dev s.hostPkt hpkt
  rw [MacIo.packetEnds, if_pos hrecv]
  dsimp only
  rw [if_pos hpkt, if_pos hresp]

theorem Inv.closed {s : MacIo (Recorded κ)} (hE : E.Answers) (hinv : Inv E s.link h)
    (hwhole : ∀ bytes, h.transfer = .shiftIn bytes → s.treq = false) :
    Inv E (s.transferCloses E.recorded).link h.closed := by
  have htransfer := hinv.transfer
  have hheard := hinv.heard
  have hanswered := hinv.answered
  unfold MacIo.transferCloses CudaHost.closed
  rw [MacIo.link_setIfr]
  rcases hphase : h.transfer with _ | pkt | bytes | _
  · -- the close that ends no transfer, after power on
    rw [hphase] at htransfer
    obtain ⟨hsend, hrecv, hsync, hwait⟩ := htransfer
    rw [MacIo.packetEnds_of_not hrecv, MacIo.responseEnds_of_not hsend]
    exact ⟨hinv.wire, ⟨hsend, hrecv, rfl, hwait⟩, hinv.staged, hheard, hanswered⟩
  · rw [hphase] at htransfer
    obtain ⟨hsend, hrecv, hsync, hpkt, hne, hnone⟩ := htransfer
    have hpkt : s.hostPkt = pkt := hpkt
    have hreply := hE.answered s.cuda.dev pkt hne
    have hidle : ¬ s.sending = true := by
      rw [show s.sending = false from hsend]
      exact Bool.false_ne_true
    rw [MacIo.packetEnds_of hE hrecv (by rw [hpkt]; exact hne), MacIo.responseEnds]
    dsimp only
    rw [if_neg hidle, hpkt]
    refine ⟨hinv.wire, ?_, hinv.staged, ?_, ?_⟩
    · exact ⟨hsend, rfl, rfl, fun _ => .inr (show 65536 ≠ 0 by decide)⟩
    · change s.cuda.packets ++ [pkt] = h.sent ++ [pkt]
      rw [show s.cuda.packets = h.sent from hheard]
    · change s.cuda.responses ++ [E.response (E.hostPacket s.cuda.dev pkt)]
        = h.collected ++ pending (E.response (E.hostPacket s.cuda.dev pkt))
      rw [show s.cuda.responses = _ from hanswered, show E.response s.link.cuda.dev = [] from hnone,
        pending, if_pos rfl, List.append_nil, pending, if_neg hreply]
  · rw [hphase] at htransfer
    obtain ⟨hsend, hrecv, hsync, hbytes, hne, hle, htreq⟩ := htransfer
    -- TREQ is negated, so the index is past the last byte
    have hover : ¬ s.respIndex < (E.response s.cuda.dev).length := by
      intro hlt
      have hyes : s.treq = true := htreq.mpr hlt
      rw [hwhole bytes hphase] at hyes
      cases hyes
    have hall : bytes = E.response s.cuda.dev := by
      rw [hbytes]
      exact List.take_of_length_le (not_lt.mp hover)
    have hgone : E.response (E.consumeResponse s.cuda.dev) = [] := hE.consumed s.cuda.dev
    rw [MacIo.packetEnds_of_not hrecv, MacIo.responseEnds, if_pos (show s.sending = true from hsend)]
    change Inv E { (MacIo.setTreq _ false).link with syncing := false } _
    rw [MacIo.link_setTreq]
    refine ⟨low_treq_wired false _, ?_, hinv.staged, hheard, ?_⟩
    · exact ⟨rfl, hrecv, rfl, fun hresp => absurd hgone hresp⟩
    · change s.cuda.responses = h.collected ++ [bytes]
        ++ pending (E.response (E.consumeResponse s.cuda.dev))
      rw [hgone, show s.cuda.responses = _ from hanswered, pending, pending, if_pos rfl,
        List.append_nil, hall, if_neg (show ¬ E.response s.link.cuda.dev = [] from hall ▸ hne)]
      rfl
  · rw [hphase] at htransfer
    obtain ⟨hsend, hrecv, hsync, hnone⟩ := htransfer
    rw [MacIo.packetEnds_of_not hrecv, MacIo.responseEnds_of_not hsend]
    refine ⟨hinv.wire, ?_, hinv.staged, hheard, hanswered⟩
    exact ⟨hsend, hrecv, rfl, fun hresp => absurd hnone hresp⟩

/-- An edge with the shift register out: the byte that was staged joins the packet. -/
theorem Inv.clocked_out {s : MacIo (Recorded κ)} {pkt : List U8} (hinv : Inv E s.link h)
    (htip : Low bTIP (s.via vORB)) (hphase : h.transfer = .shiftOut pkt) (hacr : s.ShiftsOut)
    (hstaged : h.staged ≠ none) :
    Inv E (s.tackEdge E.recorded).link (h.clocked s (s.tackEdge E.recorded)) := by
  have htransfer := hinv.transfer
  rw [hphase] at htransfer
  obtain ⟨hsend, hrecv, hsync, hpkt, hne, hnone⟩ := htransfer
  obtain ⟨b, hb⟩ := Option.ne_none_iff_exists'.mp hstaged
  have hsr : s.via vSR = b := hinv.staged b hb
  have hnosync : ¬ s.syncing = true := by
    rw [show s.syncing = false from hsync]
    exact Bool.false_ne_true
  have hedge : s.tackEdge E.recorded =
      { s with receiving := true, hostPkt := s.hostPkt ++ [s.via vSR] }.setIfr iSR := by
    rw [MacIo.tackEdge, if_neg hnosync, MacIo.cudaClockByte, if_neg (not_not.mpr htip),
      if_pos hacr]
  unfold CudaHost.clocked
  rw [hphase, hedge, MacIo.link_setIfr]
  refine ⟨hinv.wire, ?_, nofun, hinv.heard, hinv.answered⟩
  rw [show h.staged = some b from hb]
  refine ⟨hsend, rfl, hsync, ?_, by simp, hnone⟩
  change s.hostPkt ++ [s.via vSR] = pkt ++ [b]
  rw [hsr, show s.hostPkt = pkt from hpkt]

/-- An edge with the shift register in: another byte of the response, as long as TREQ is asserted;
after that the edge clocks none. -/
theorem Inv.clocked_in {s : MacIo (Recorded κ)} {bytes : List U8} (hinv : Inv E s.link h)
    (htip : Low bTIP (s.via vORB)) (hphase : h.transfer = .shiftIn bytes) (hacr : ¬ s.ShiftsOut) :
    Inv E (s.tackEdge E.recorded).link (h.clocked s (s.tackEdge E.recorded)) := by
  have htransfer := hinv.transfer
  rw [hphase] at htransfer
  obtain ⟨hsend, hrecv, hsync, hbytes, hne, hle, htreq⟩ := htransfer
  have hnosync : ¬ s.syncing = true := by
    rw [show s.syncing = false from hsync]
    exact Bool.false_ne_true
  -- a byte was heard before, so there is a response to go on with
  have hresp : E.recorded.hasResponse s.cuda := by
    intro hnil
    have hnil : E.response s.link.cuda.dev = [] := hnil
    rw [hnil, List.take_nil] at hbytes
    exact hne hbytes
  have hedge : s.tackEdge E.recorded = s.cudaClockByte E.recorded := by
    rw [MacIo.tackEdge, if_neg hnosync]
  have hclock : s.cudaClockByte E.recorded
      = (E.response s.cuda.dev)[s.respIndex]?.elim s (s.shiftByte E.recorded) := by
    rw [MacIo.cudaClockByte, if_neg (not_not.mpr htip), if_neg hacr, if_pos ⟨hsend, hresp⟩]
    have hresponse : E.recorded.response s.cuda = E.response s.cuda.dev := rfl
    rw [hresponse]
    cases (E.response s.cuda.dev)[s.respIndex]? <;> rfl
  unfold CudaHost.clocked
  rw [hphase, hedge, hclock]
  -- TREQ stays asserted while a byte is left, which is what the host goes by
  by_cases hasserted : Low bTREQ (s.via vORB)
  · have hon : s.treq = true := hinv.wire.mp hasserted
    have hlt : s.respIndex < (E.response s.cuda.dev).length := htreq.mp hon
    have hget := List.getElem?_eq_getElem hlt
    rw [hget]
    dsimp only [Option.elim_some]
    rw [if_pos hasserted]
    have hsr : (s.shiftByte E.recorded (E.response s.cuda.dev)[s.respIndex]).via vSR
        = (E.response s.cuda.dev)[s.respIndex] := by
      change (s.shiftByte E.recorded _).link.sr = _
      rw [MacIo.link_shiftByte]
      split <;> rfl
    rw [hsr]
    exact inv_shiftByte hinv.wire (inTransfer_shiftByte hsend hrecv hsync hbytes hget hon)
      hinv.heard hinv.answered
  · have hover : ¬ s.respIndex < (E.response s.cuda.dev).length :=
      fun hlt => hasserted (hinv.wire.mpr (htreq.mpr hlt))
    rw [List.getElem?_eq_none (not_lt.mp hover)]
    dsimp only
    rw [if_neg hasserted]
    exact hinv

/-- An edge inside a transfer without bytes ends the sync, and negates TREQ. -/
theorem Inv.clocked_null {s : MacIo (Recorded κ)} (hinv : Inv E s.link h)
    (hphase : h.transfer = .null) :
    Inv E (s.tackEdge E.recorded).link (h.clocked s (s.tackEdge E.recorded)) := by
  have htransfer := hinv.transfer
  rw [hphase] at htransfer
  obtain ⟨hsend, hrecv, hsync, hnone⟩ := htransfer
  have hedge : s.tackEdge E.recorded = (s.setTreq false).setIfr iSR := by
    rw [MacIo.tackEdge, if_pos (show s.syncing = true from hsync)]
  unfold CudaHost.clocked
  rw [hphase, hedge, MacIo.link_setIfr, MacIo.link_setTreq]
  dsimp only
  refine ⟨low_treq_wired false _, ?_, hinv.staged, hinv.heard, hinv.answered⟩
  rw [hphase]
  exact ⟨hsend, hrecv, hsync, hnone⟩

theorem Inv.clocked {s : MacIo (Recorded κ)} (hinv : Inv E s.link h) (htip : Low bTIP (s.via vORB))
    (hwell : Talk.ClocksWell { io := s, host := h }) :
    Inv E (s.tackEdge E.recorded).link (h.clocked s (s.tackEdge E.recorded)) := by
  unfold Talk.ClocksWell at hwell
  dsimp only at hwell
  rcases hphase : h.transfer with _ | pkt | bytes | _
  · rw [hphase] at hwell
    exact absurd hwell id
  · rw [hphase] at hwell
    exact hinv.clocked_out htip hphase hwell.1 hwell.2
  · rw [hphase] at hwell
    exact hinv.clocked_in htip hphase hwell
  · exact hinv.clocked_null hphase

/-- Sync stepping touches no response that has been announced. -/
theorem Inv.syncStep {s : MacIo (Recorded κ)} (hinv : Inv E s.link h) (hclosed : h.transfer = .closed)
    (hquiet : ¬ E.recorded.hasResponse s.cuda ∨ s.respDelay ≠ 0) : Inv E s.syncStep.link h := by
  have htransfer := hinv.transfer
  rw [hclosed] at htransfer
  obtain ⟨hsend, hrecv, hsync, -⟩ := htransfer
  have hlink : s.syncStep.link = (s.setTreq (decide (Low bTACK (s.via vORB)))).link := by
    unfold MacIo.syncStep
    dsimp only
    split <;> rfl
  rw [hlink, MacIo.link_setTreq]
  refine ⟨low_treq_wired _ _, ?_, hinv.staged, hinv.heard, hinv.answered⟩
  rw [hclosed]
  refine ⟨hsend, hrecv, hsync, fun hresp => .inr ?_⟩
  exact hquiet.resolve_left fun hno => hno hresp

theorem MacIo.sameLines_orbWrite (E : PacketEngine κ) (s : MacIo κ) (v : U8) :
    MacIo.SameLines ((s.orbDriven v).via vORB) ((s.orbWrite E v).via vORB) := by
  unfold MacIo.orbWrite
  dsimp only
  split_ifs
  · exact MacIo.sameLines_transferOpens _ E
  · exact MacIo.sameLines_transferCloses _ E
  · exact MacIo.sameLines_tackEdge _ E
  · exact MacIo.sameLines_syncStep _
  · exact ⟨rfl, rfl⟩

/-- A write to port B drives the lines, and then goes by the edge that makes. -/
theorem MacIo.orbWrite_eq (E : PacketEngine κ) (s : MacIo κ) (v : U8) : s.orbWrite E v =
    if Opens (s.via vORB) ((s.orbDriven v).via vORB) then (s.orbDriven v).transferOpens E
    else if Closes (s.via vORB) ((s.orbDriven v).via vORB) then (s.orbDriven v).transferCloses E
    else if Low bTIP ((s.orbDriven v).via vORB)
        ∧ (s.via vORB ^^^ (s.orbDriven v).via vORB) &&& bTACK ≠ 0#8 then
      (s.orbDriven v).tackEdge E
    else if ¬ Low bTIP ((s.orbDriven v).via vORB)
        ∧ (s.via vORB ^^^ (s.orbDriven v).via vORB) &&& bTACK ≠ 0#8
        ∧ (s.orbDriven v).sending = false ∧ (s.orbDriven v).receiving = false
        ∧ (¬ E.hasResponse (s.orbDriven v).cuda ∨ (s.orbDriven v).respDelay ≠ 0) then
      (s.orbDriven v).syncStep
    else s.orbDriven v := rfl

section Edges

variable {s : MacIo (Recorded κ)} (hinv : Inv E s.link h) (v : U8)
include hinv

omit hinv in
theorem shiftsOut_orbDriven : (s.orbDriven v).ShiftsOut ↔ s.ShiftsOut := by
  rw [MacIo.ShiftsOut, MacIo.ShiftsOut, s.acr_orbDriven v]

omit hinv in
theorem treq_orbDriven : (s.orbDriven v).treq = s.treq := by
  change (s.orbDriven v).link.treq = _
  rw [MacIo.orbDriven, MacIo.link_updateTreq]
  rfl

/-- The opening edge, for a host that looked at the lines before it drove them. -/
theorem Inv.opened_orb (hclosed : h.transfer = .closed)
    (hwell : Talk.OpensWell { io := s, host := h })
    (hclear : s.ShiftsOut → ¬ E.recorded.hasResponse s.cuda) :
    Inv E ((s.orbDriven v).transferOpens E.recorded).link
      (h.opened E.recorded s ((s.orbDriven v).transferOpens E.recorded)) := by
  have hacr := shiftsOut_orbDriven (s := s) v
  have hcuda := s.cuda_orbDriven v
  have hhost : h.opened E.recorded s ((s.orbDriven v).transferOpens E.recorded)
      = h.opened E.recorded (s.orbDriven v) ((s.orbDriven v).transferOpens E.recorded) := by
    unfold CudaHost.opened
    rw [hcuda]
    simp only [hacr]
  rw [hhost]
  refine (hinv.orbDriven v).opened hclosed (fun hout => ?_) (fun hin => ?_)
  · refine ⟨(hwell.out (hacr.mp hout)).2, ?_⟩
    rw [hcuda]
    exact not_not.mp (hclear (hacr.mp hout))
  · rw [treq_orbDriven]
    exact hinv.wire.mp (hwell.in_ fun hout => hin (hacr.mpr hout))

/-- The closing edge. -/
theorem Inv.closed_orb (hE : E.Answers) (hwell : Talk.ClosesWell { io := s, host := h }) :
    Inv E ((s.orbDriven v).transferCloses E.recorded).link h.closed := by
  refine (hinv.orbDriven v).closed hE fun bytes hbytes => ?_
  have hnegated : ¬ Low bTREQ (s.via vORB) := by
    unfold Talk.ClosesWell at hwell
    dsimp only at hwell
    rw [hbytes] at hwell
    exact hwell
  rw [treq_orbDriven]
  exact Bool.eq_false_iff.mpr fun hyes => hnegated (hinv.wire.mpr hyes)

/-- The clocking edge. -/
theorem Inv.clocked_orb (htip : Low bTIP ((s.orbDriven v).via vORB))
    (hwell : Talk.ClocksWell { io := s, host := h }) :
    Inv E ((s.orbDriven v).tackEdge E.recorded).link
      (h.clocked s ((s.orbDriven v).tackEdge E.recorded)) := by
  have hw := hinv.orbDriven v
  have hasserted : Low bTREQ (s.via vORB) ↔ Low bTREQ ((s.orbDriven v).via vORB) := by
    rw [show Low bTREQ ((s.orbDriven v).via vORB) ↔ _ from hw.wire, show Low bTREQ (s.via vORB) ↔ _
      from hinv.wire]
    exact iff_of_eq (congrArg (· = true) (treq_orbDriven (s := s) v).symm)
  have hhost : h.clocked s ((s.orbDriven v).tackEdge E.recorded)
      = h.clocked (s.orbDriven v) ((s.orbDriven v).tackEdge E.recorded) := by
    unfold CudaHost.clocked
    simp only [hasserted]
  rw [hhost]
  refine hw.clocked htip ?_
  revert hwell
  unfold Talk.ClocksWell
  simp only [shiftsOut_orbDriven]
  exact id

/-- A write to port B, by its edges. -/
theorem Inv.orbWrite (hE : E.Answers) (htip : h.transfer ≠ .closed → Low bTIP (s.via vORB))
    (hfollows : Talk.Follows E.recorded { io := s, host := h } (.write vORB v))
    (hclear : Talk.Clear E.recorded { io := s, host := h } (.write vORB v)) :
    Inv E (s.orbWrite E.recorded v).link
      (h.step E.recorded s (s.orbWrite E.recorded v) (.write vORB v)) := by
  obtain ⟨hopens, hcloses, hclocks⟩ := hfollows
  obtain ⟨hopen, hclose, hclock⟩ := edges_congr (s.via vORB) (s.sameLines_orbWrite E.recorded v)
  have horb := s.orbWrite_eq E.recorded v
  unfold CudaHost.step
  dsimp only
  by_cases hedge : Opens (s.via vORB) ((s.orbDriven v).via vORB)
  · have hclosed : h.transfer = .closed := by
      by_contra hne
      exact hedge.2 (htip hne)
    rw [if_pos (hopen.mpr hedge), horb, if_pos hedge]
    exact hinv.opened_orb v hclosed (hopens (hopen.mpr hedge)) (hclear (hopen.mpr hedge))
  rw [if_neg (fun h => hedge (hopen.mp h))]
  by_cases hshut : Closes (s.via vORB) ((s.orbDriven v).via vORB)
  · rw [if_pos (hclose.mpr hshut), horb, if_neg hedge, if_pos hshut]
    exact hinv.closed_orb v hE (hcloses (hclose.mpr hshut))
  rw [if_neg (fun h => hshut (hclose.mp h))]
  by_cases htack : Low bTIP ((s.orbDriven v).via vORB)
      ∧ (s.via vORB ^^^ (s.orbDriven v).via vORB) &&& bTACK ≠ 0#8
  · have hwas : Low bTIP (s.via vORB) := by
      by_contra hno
      exact hedge ⟨htack.1, hno⟩
    have hclocked : Clocks (s.via vORB) ((s.orbDriven v).via vORB) := ⟨htack.1, hwas, htack.2⟩
    rw [if_pos (hclock.mpr hclocked), horb, if_neg hedge, if_neg hshut, if_pos htack]
    exact hinv.clocked_orb v htack.1 (hclocks (hclock.mpr hclocked))
  · have hnot : ¬ Clocks (s.via vORB) ((s.orbDriven v).via vORB) := fun h => htack ⟨h.1, h.2.2⟩
    rw [if_neg (fun h => hnot (hclock.mp h)), horb, if_neg hedge, if_neg hshut, if_neg htack]
    split
    · next hsync =>
      -- the host is between transfers: TIP is up, and no edge has opened one
      obtain ⟨hup, -, -, -, hquiet⟩ := hsync
      refine (hinv.orbDriven v).syncStep ?_ hquiet
      by_contra hne
      exact hshut ⟨hup, htip hne⟩
    · exact hinv.orbDriven v

end Edges

/-! ## The run -/

/-- The timers are not on the wires. -/
theorem MacIo.link_tickTimers (s : MacIo κ) : s.tickSync.tickT1.tickT2.link = s.link := by
  have hsync : ∀ s : MacIo κ, s.tickSync.link = s.link := by
    intro s
    unfold MacIo.tickSync
    dsimp only
    split_ifs <;> rfl
  have ht1 : ∀ s : MacIo κ, s.tickT1.link = s.link := by
    intro s
    unfold MacIo.tickT1
    dsimp only
    split_ifs <;> rfl
  have ht2 : ∀ s : MacIo κ, s.tickT2.link = s.link := by
    intro s
    unfold MacIo.tickT2
    split_ifs <;> rfl
  rw [ht2, ht1, hsync]

/-- The ticks between count, and only every eighth of them is seen on the wires. -/
theorem MacIo.link_tick_of {E : PacketEngine κ} (s : MacIo κ) :
    (s.tick E).link = s.link ∨ (s.tick E).link = ({ s with viaDivider := 0 }.tickResponse E).link := by
  unfold MacIo.tick
  split
  · exact .inl rfl
  · exact .inr (MacIo.link_tickTimers _)

theorem MacIo.link_viaRead (s : MacIo κ) (r : ViaReg) : (s.viaRead r).2.link = s.link := by
  cases r <;> rfl

/-- Only port B and the shift register are on the wires. -/
theorem MacIo.link_viaWrite (E : PacketEngine κ) (s : MacIo κ) {r : ViaReg} (v : U8) (horb : r ≠ vORB)
    (hsr : r ≠ vSR) : (s.viaWrite E r v).link = s.link := by
  cases r
  case vORB => exact absurd rfl horb
  case vSR => exact absurd rfl hsr
  case vIER =>
    rw [MacIo.viaWrite]
    split_ifs <;> rfl
  all_goals rfl

/-- The invariant, with TIP low as long as a transfer is open. -/
structure Agreed (E : PacketEngine κ) (t : Talk (Recorded κ)) : Prop where
  inv : Inv E t.io.link t.host
  tip : t.host.transfer ≠ .closed → Low bTIP (t.io.via vORB)

theorem agreed_powerOn {k : κ} (hk : E.response k = []) :
    Agreed E { io := MacIo.powerOn { dev := k, packets := [], responses := [] }, host := CudaHost.atRest } where
  inv :=
    { wire := show Low bTREQ bTREQ ↔ false = true by decide
      transfer := ⟨rfl, rfl, rfl, fun h => absurd hk h⟩
      staged := nofun
      heard := rfl
      answered := by
        change [] = [] ++ pending (E.response k)
        rw [hk]
        rfl }
  tip h := absurd rfl h

theorem CudaHost.step_quiet (E : PacketEngine κ) {h : CudaHost} {s s' : MacIo κ} {a : ViaAccess}
    (horb : ∀ v, a ≠ .write vORB v) (hsr : ∀ v, a ≠ .write vSR v) : h.step E s s' a = h := by
  unfold CudaHost.step
  split
  · exact absurd rfl (hsr _)
  · exact absurd rfl (horb _)
  · rfl

theorem Agreed.tip_orbWrite {t : Talk (Recorded κ)} (ht : Agreed E t) (v : U8) :
    (t.step E.recorded (.write vORB v)).host.transfer ≠ .closed →
      Low bTIP ((t.step E.recorded (.write vORB v)).io.via vORB) := by
  change (t.host.step E.recorded t.io (t.io.orbWrite E.recorded v) (.write vORB v)).transfer ≠ .closed →
    Low bTIP ((t.io.orbWrite E.recorded v).via vORB)
  intro hne
  by_contra hup
  revert hne
  unfold CudaHost.step
  dsimp only
  rw [if_neg fun h => hup h.1]
  split
  · unfold CudaHost.closed
    split <;> exact fun h => h rfl
  · next hnot =>
    rw [if_neg fun h => hup h.1]
    exact fun hne => hnot ⟨hup, ht.tip hne⟩

theorem Agreed.step {t : Talk (Recorded κ)} (hE : E.Answers) (ht : Agreed E t) {a : ViaAccess}
    (hfollows : t.Follows E.recorded a) (hclear : t.Clear E.recorded a) : Agreed E (t.step E.recorded a) := by
  rcases a with _ | r | ⟨r, v⟩
  · refine ⟨?_, ?_⟩
    · change Inv E (t.io.tick E.recorded).link t.host
      rcases t.io.link_tick_of (E := E.recorded) with heq | heq
      · rw [heq]
        exact ht.inv
      · rw [heq]
        exact Inv.tickResponse (s := { t.io with viaDivider := 0 }) ht.inv
    · change t.host.transfer ≠ .closed → Low bTIP (t.io.tick E.recorded).link.orb
      rcases t.io.link_tick_of (E := E.recorded) with heq | heq
      · rw [heq]
        exact ht.tip
      · rw [heq]
        intro hne
        have hlines := MacIo.sameLines_tickResponse { t.io with viaDivider := 0 } E.recorded
        exact hlines.1.trans (ht.tip hne)
  · refine ⟨?_, ?_⟩
    · change Inv E (t.io.viaRead r).2.link t.host
      rw [MacIo.link_viaRead]
      exact ht.inv
    · change _ → Low bTIP (t.io.viaRead r).2.link.orb
      rw [MacIo.link_viaRead]
      exact ht.tip
  · by_cases horb : r = vORB
    · subst horb
      exact ⟨ht.inv.orbWrite v hE ht.tip hfollows hclear, ht.tip_orbWrite v⟩
    · by_cases hsr : r = vSR
      · subst hsr
        exact ⟨ht.inv.stage v, ht.tip⟩
      · have hhost : (t.step E.recorded (.write r v)).host = t.host :=
          CudaHost.step_quiet _ (fun w h => horb (ViaAccess.write.inj h).1) (fun w h => hsr (ViaAccess.write.inj h).1)
        have hlink : (t.step E.recorded (.write r v)).io.link = t.io.link :=
          t.io.link_viaWrite _ v horb hsr
        refine ⟨?_, ?_⟩
        · rw [hhost, hlink]
          exact ht.inv
        · change _ → Low bTIP (t.step E.recorded (.write r v)).io.link.orb
          rw [hhost, hlink]
          exact ht.tip

theorem Agreed.run (hE : E.Answers) (as : List ViaAccess) :
    ∀ {t : Talk (Recorded κ)}, Agreed E t → t.Always E.recorded (Talk.Follows E.recorded) as →
      t.Always E.recorded (Talk.Clear E.recorded) as → Agreed E (t.run E.recorded as) := by
  induction as with
  | nil => exact fun ht _ _ => ht
  | cons a as ih =>
    rintro t ht ⟨hfollows, hfollows'⟩ ⟨hclear, hclear'⟩
    exact ih (ht.step hE hfollows hclear) hfollows' hclear'

/-- Nothing is lost and nothing made up. -/
structure Kept (E : PacketEngine κ) (t : Talk (Recorded κ)) : Prop where
  /-- The engine hears every packet once, byte for byte. -/
  heard : t.io.cuda.packets = t.host.sent
  /-- Every response is collected once and whole, but for the one that waits. -/
  answered : t.io.cuda.responses = t.host.collected ++ pending (E.response t.io.cuda.dev)
  /-- What the host shifts out is taken in. -/
  out : ∀ pkt, t.host.transfer = .shiftOut pkt →
    t.io.receiving = true ∧ t.io.sending = false ∧ t.io.hostPkt = pkt
  /-- What the host shifts in is the response, and TREQ tells it where the response ends. -/
  in_ : ∀ bytes, t.host.transfer = .shiftIn bytes →
    t.io.sending = true ∧ t.io.receiving = false ∧ bytes <+: E.response t.io.cuda.dev
      ∧ (¬ Low bTREQ (t.io.via vORB) ↔ bytes = E.response t.io.cuda.dev)
  /-- A response that waits is announced, or is going to be. -/
  waits : t.host.transfer = .closed → E.response t.io.cuda.dev ≠ [] →
    Low bTREQ (t.io.via vORB) ∨ t.io.respDelay ≠ 0

theorem Agreed.kept {t : Talk (Recorded κ)} (ht : Agreed E t) : Kept E t where
  heard := ht.inv.heard
  answered := ht.inv.answered
  out pkt hpkt := by
    have htransfer := ht.inv.transfer
    rw [hpkt] at htransfer
    obtain ⟨hsend, hrecv, -, hsame, -⟩ := htransfer
    exact ⟨hrecv, hsend, hsame⟩
  in_ bytes hin := by
    have htransfer := ht.inv.transfer
    rw [hin] at htransfer
    obtain ⟨hsend, hrecv, -, hbytes, -, hle, htreq⟩ := htransfer
    refine ⟨hsend, hrecv, ?_, ?_⟩
    · rw [hbytes]
      exact List.take_prefix _ _
    · have hwire : Low bTREQ (t.io.via vORB) ↔ t.io.treq = true := ht.inv.wire
      have htreq : t.io.treq = true ↔ t.io.respIndex < (E.response t.io.cuda.dev).length := htreq
      rw [hwire, htreq, not_lt, show bytes = _ from hbytes]
      exact (List.take_eq_self_iff _).symm
  waits hclosed hresp := by
    have htransfer := ht.inv.transfer
    rw [hclosed] at htransfer
    obtain ⟨-, -, -, hwait⟩ := htransfer
    exact (hwait hresp).imp_left ht.inv.wire.mpr

end Invariant

/-! ## The host -/

/-- The mac-io after power on, with a host at rest. -/
def Talk.powerOn (c : Cuda) : Talk (Recorded Cuda) :=
  { io := MacIo.powerOn { dev := c, packets := [], responses := [] }, host := CudaHost.atRest }

/-- A host that keeps the handshake and opens no command while a response waits is heard
whole, and collects whole what it is answered. -/
theorem conversation_kept (c : Cuda) (hc : c.resp = []) (as : List ViaAccess)
    (hfollows : (Talk.powerOn c).Always Cuda.recorded (Talk.Follows Cuda.recorded) as)
    (hclear : (Talk.powerOn c).Always Cuda.recorded (Talk.Clear Cuda.recorded) as) :
    Kept Cuda.engine ((Talk.powerOn c).run Cuda.recorded as) :=
  ((agreed_powerOn hc).run Cuda.engine_answers as hfollows hclear).kept

/-- A Cuda that has never been spoken to. -/
def Cuda.fresh : Cuda := { pram := fun _ => 0#8, resp := [], autopoll := false, timeOffset := 0#32 }

/-- A packet, and its answer, which the host is let to collect by a sync step. -/
def patientHost : List ViaAccess :=
  [.write vDDRB 0x30#8, .write vORB 0x30#8, .write vACR 0x1C#8,
    .write vSR 0x01#8, .write vORB 0x10#8, .write vORB 0x30#8, .tick,
    .write vORB 0x20#8, .write vACR 0x0C#8, .write vORB 0x00#8, .read vSR,
    .write vORB 0x10#8, .read vSR, .write vORB 0x00#8, .read vSR, .write vORB 0x20#8]

theorem conversation_kept_patient :
    ((Talk.powerOn Cuda.fresh).run Cuda.recorded patientHost).host.collected = [[0x01#8, 0x00#8, 0xFF#8]]
      ∧ Kept Cuda.engine ((Talk.powerOn Cuda.fresh).run Cuda.recorded patientHost) :=
  ⟨by decide +kernel, conversation_kept Cuda.fresh rfl patientHost (by decide +kernel) (by decide +kernel)⟩

/-- Two packets: the second one is opened while the answer to the first waits for its
announcement. -/
def hastyHost : List ViaAccess :=
  [.write vDDRB 0x30#8, .write vORB 0x30#8, .write vACR 0x1C#8,
    .write vSR 0x01#8, .write vORB 0x10#8, .write vORB 0x30#8,
    .write vSR 0x00#8, .write vORB 0x10#8, .write vORB 0x30#8]

/-- The second packet is not heard, and the answer to the first not collected. -/
theorem command_lost :
    ¬ ∀ c : Cuda, c.resp = [] → ∀ as : List ViaAccess,
      (Talk.powerOn c).Always Cuda.recorded (Talk.Follows Cuda.recorded) as →
        Kept Cuda.engine ((Talk.powerOn c).run Cuda.recorded as) := by
  intro hall
  have hkept := hall Cuda.fresh rfl hastyHost (by decide +kernel)
  exact absurd hkept.heard (by decide +kernel)

end OpenPowerMac
