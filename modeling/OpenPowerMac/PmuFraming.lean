/-
Conversations with the PMU, and the frames it parses for them.

Nothing marks the end of a command. A frame is dropped by the first byte out after a byte in,
so a conversation finds its frame empty exactly when the one before it read a byte
(`framed_iff`). Otherwise its bytes land behind those of the last command, and the PMU answers
that one again.
-/
import OpenPowerMac.Pmu
import Mathlib.Logic.Relation

set_option autoImplicit false

namespace OpenPowerMac

open ViaReg

namespace PmuVia

/-! ## Between the edges -/

/-- The register an access writes. -/
def Access.written : Access → Option ViaReg
  | .read .. => none
  | .write off _ _ => some (regOf off)

/-- The access is an edge of REQ. -/
def Edge (s : PmuVia) : Access → Prop
  | .read .. => False
  | .write off v _ => regOf off = vORB ∧ decide (v &&& 0x10#8 ≠ 0#8) ≠ s.lastReq

/-- An access that is no edge, and writes none of the registers that are held. -/
def Idle (held : ViaReg → Prop) (s s' : PmuVia) : Prop :=
  ∃ a : Access, ¬ s.Edge a ∧ (∀ r, a.written = some r → ¬ held r) ∧ s' = s.after a

/-- Any number of them. -/
def Idles (held : ViaReg → Prop) : PmuVia → PmuVia → Prop := Relation.ReflTransGen (Idle held)

/-- What the conversation is made of: the wire, the frame, and the bytes that are still to be
read of the reply. -/
structure Told where
  req : Bool
  dirIn : Bool
  frame : List U8
  due : List U8
  reset : Bool

def told (s : PmuVia) : Told where
  req := s.lastReq
  dirIn := s.lastDirIn
  frame := s.frame
  due := s.reply.drop s.replyAt
  reset := s.resetRequest

theorem readReg_told (s : PmuVia) (k : PmuClock) (r : ViaReg) :
    (s.readReg k r).2.told = s.told := by
  cases r <;> rfl

theorem readReg_sr (s : PmuVia) (k : PmuClock) (r : ViaReg) : (s.readReg k r).2.sr = s.sr := by
  cases r <;> rfl

/-- Only port B reaches the PMU. -/
theorem writeReg_told (s : PmuVia) (k : PmuClock) {r : ViaReg} (v : U8) (hr : r ≠ vORB) :
    (s.writeReg k r v).told = s.told := by
  cases r
  case vORB => exact absurd rfl hr
  case vIER =>
    simp only [writeReg]
    split <;> rfl
  all_goals rfl

theorem orbWrite_quiet (s : PmuVia) {v : U8} (h : decide (v &&& 0x10#8 ≠ 0#8) = s.lastReq) :
    s.orbWrite v = { s with orb := v } := by
  simp [orbWrite, h]

theorem writeReg_sr (s : PmuVia) (k : PmuClock) {r : ViaReg} (v : U8) (hb : r ≠ vORB)
    (hr : r ≠ vSR) : (s.writeReg k r v).sr = s.sr := by
  cases r
  case vORB => exact absurd rfl hb
  case vSR => exact absurd rfl hr
  case vIER =>
    simp only [writeReg]
    split <;> rfl
  all_goals rfl

theorem Idle.told {held : ViaReg → Prop} {s s' : PmuVia} (h : Idle held s s') :
    s'.told = s.told := by
  rcases h with ⟨a, hedge, -, rfl⟩
  cases a with
  | read off k => exact s.readReg_told k _
  | write off v k =>
    by_cases hb : regOf off = vORB
    · have hq : decide (v &&& 0x10#8 ≠ 0#8) = s.lastReq := by
        by_contra hne
        exact hedge ⟨hb, hne⟩
      simp only [after, write, hb, writeReg, s.orbWrite_quiet hq]
      rfl
    · exact s.writeReg_told k v hb

theorem Idle.sr {held : ViaReg → Prop} {s s' : PmuVia} (h : Idle held s s') (hsr : held vSR) :
    s'.sr = s.sr := by
  rcases h with ⟨a, hedge, hheld, rfl⟩
  cases a with
  | read off k => exact s.readReg_sr k _
  | write off v k =>
    have hr : regOf off ≠ vSR := fun e => hheld _ rfl (e ▸ hsr)
    by_cases hb : regOf off = vORB
    · have hq : decide (v &&& 0x10#8 ≠ 0#8) = s.lastReq := by
        by_contra hne
        exact hedge ⟨hb, hne⟩
      simp only [after, write, hb, writeReg, s.orbWrite_quiet hq]
    · exact s.writeReg_sr k v hb hr

theorem Idles.told {held : ViaReg → Prop} {s s' : PmuVia} (h : Idles held s s') :
    s'.told = s.told := by
  induction h with
  | refl => rfl
  | tail _ hstep ih => rw [hstep.told, ih]

theorem Idles.sr {held : ViaReg → Prop} {s s' : PmuVia} (h : Idles held s s')
    (hsr : held vSR) : s'.sr = s.sr := by
  induction h with
  | refl => rfl
  | tail _ hstep ih => rw [hstep.sr hsr, ih]

/-! ## Bytes -/

/-- The host asserts REQ. -/
def Asserts (s s' : PmuVia) : Prop :=
  ∃ off v k, regOf off = vORB ∧ v &&& 0x10#8 = 0#8 ∧ s.lastReq = true ∧ s' = s.write off v k

/-- The host releases REQ. -/
def Releases (s s' : PmuVia) : Prop :=
  ∃ off v k, regOf off = vORB ∧ v &&& 0x10#8 ≠ 0#8 ∧ s.lastReq = false ∧ s' = s.write off v k

theorem Asserts.edge {s s' : PmuVia} (h : Asserts s s') :
    ∃ v, s' = { s with orb := v, lastReq := false }.reqEdge true := by
  rcases h with ⟨off, v, k, hoff, hv, hreq, rfl⟩
  exact ⟨v, by simp [write, writeReg, hoff, orbWrite, hv, hreq]⟩

theorem Releases.edge {s s' : PmuVia} (h : Releases s s') :
    ∃ v, s' = { s with orb := v, lastReq := true }.reqEdge false := by
  rcases h with ⟨off, v, k, hoff, hv, hreq, rfl⟩
  exact ⟨v, by simp [write, writeReg, hoff, orbWrite, hv, hreq]⟩

/-- No register is held. -/
def anything : ViaReg → Prop := fun _ => False

/-- A byte out: it is in the shift register when REQ is asserted, and the mode is one out at
both edges. -/
def PutByte (b : U8) (s s' : PmuVia) : Prop :=
  ∃ s₁ s₂ s₃, Idles anything s s₁ ∧ s₁.ShiftsOut ∧ s₁.sr = b ∧ Asserts s₁ s₂
    ∧ Idles anything s₂ s₃ ∧ s₃.ShiftsOut ∧ Releases s₃ s'

/-- The host reads the shift register. -/
def ReadsSr (b : U8) (s : PmuVia) : Prop := ∃ off k, regOf off = vSR ∧ (s.read off k).1 = b

/-- A byte in: the mode is one in at both edges, and the host reads the shift register once the
byte is there, on either side of the release, with no write to it in between. -/
def GetByte (b : U8) (s s' : PmuVia) : Prop :=
  ∃ s₁ s₂ s₃ s₄, Idles anything s s₁ ∧ ¬ s₁.ShiftsOut ∧ Asserts s₁ s₂
    ∧ Idles (· = vSR) s₂ s₃ ∧ ¬ s₃.ShiftsOut ∧ Releases s₃ s₄ ∧ Idles (· = vSR) s₄ s'
    ∧ (ReadsSr b s₃ ∨ ReadsSr b s')

theorem ReadsSr.eq {b : U8} {s : PmuVia} (h : ReadsSr b s) : b = s.sr := by
  rcases h with ⟨off, k, hoff, rfl⟩
  simp [read, readReg, hoff]

/-- The frame a byte out lands behind. -/
def Told.open (t : Told) : List U8 := if t.dirIn then [] else t.frame

/-- What a byte out does. -/
def Told.put (t : Told) (b : U8) : Told :=
  { t with
    dirIn := false
    frame := t.open ++ [b]
    due := replyOf (t.open ++ [b])
    reset := t.reset || decide (t.open = [] ∧ b = 0xD0#8) }

/-- What a byte in does. -/
def Told.get (t : Told) : Told := { t with dirIn := true, due := t.due.tail }

theorem takeByte_told (s : PmuVia) :
    s.takeByte.told =
      { s.told with
        dirIn := false
        frame := s.told.open ++ [s.sr]
        reset := s.told.reset || decide (s.told.open = [] ∧ s.sr = 0xD0#8) } := by
  simp only [takeByte, told, Told.open]
  by_cases hd : s.lastDirIn = true
  · by_cases hb : s.sr = 0xD0#8 <;> simp [hd, hb]
  · by_cases hf : s.frame = []
    · by_cases hb : s.sr = 0xD0#8 <;> simp [hd, hf, hb]
    · simp [hd, hf]

theorem giveByte_told (s : PmuVia) : s.giveByte.told = s.told.get := by
  simp only [giveByte, nextReply, told, Told.get]
  rcases hb : s.reply[s.replyAt]? with - | b
  · have hlen : s.reply.length ≤ s.replyAt := List.getElem?_eq_none_iff.mp hb
    simp [List.drop_eq_nil_of_le hlen]
  · simp [List.tail_drop]

theorem giveByte_sr (s : PmuVia) : s.giveByte.sr = s.told.due.headD 0#8 := by
  simp only [giveByte, nextReply, told]
  rcases hb : s.reply[s.replyAt]? with - | b
  · have hlen : s.reply.length ≤ s.replyAt := List.getElem?_eq_none_iff.mp hb
    simp [List.drop_eq_nil_of_le hlen]
  · simp [List.headD_eq_head?_getD, hb]

/-- A byte out lands behind the frame, and the whole of it is answered anew. -/
theorem PutByte.told {b : U8} {s s' : PmuVia} (h : PutByte b s s') : s'.told = s.told.put b := by
  rcases h with ⟨s₁, s₂, s₃, h₁, hout, hsr, hassert, h₂, hout₃, hrel⟩
  rcases hassert.edge with ⟨v, hs₂⟩
  rcases hrel.edge with ⟨v', rfl⟩
  have htaken : s₂.told =
      { s.told with
        req := false
        dirIn := false
        frame := s.told.open ++ [b]
        reset := s.told.reset || decide (s.told.open = [] ∧ b = 0xD0#8) } := by
    rw [← h₁.told, ← hsr, hs₂, reqEdge, if_pos rfl]
    rw [if_pos (show ({ s₁ with orb := v, lastReq := false } : PmuVia).ShiftsOut from hout)]
    exact takeByte_told _
  have hthere := h₂.told.trans htaken
  have hframe : s₃.frame = s.told.open ++ [b] := congrArg Told.frame hthere
  have hreq : s.told.req = true := by
    rcases hassert with ⟨-, -, -, -, -, hreq, -⟩
    rw [← h₁.told]
    exact hreq
  -- the release computes the reply to the frame as it is by then
  have hpos : ({ s₃ with orb := v', lastReq := true, ack := true } : PmuVia).ShiftsOut
      ∧ s₃.frame ≠ [] := ⟨hout₃, by simp [hframe]⟩
  have hlast : (PmuVia.reqEdge { s₃ with orb := v', lastReq := true } false).told =
      { s₃.told with req := true, due := replyOf s₃.frame } := by
    simp only [reqEdge]
    rw [if_neg Bool.false_ne_true, if_pos hpos]
    rfl
  rw [hlast, hthere, hframe]
  simp only [Told.put, hreq]

/-- A byte in is the next one due. -/
theorem GetByte.told {b : U8} {s s' : PmuVia} (h : GetByte b s s') :
    s'.told = s.told.get ∧ b = s.told.due.headD 0#8 := by
  rcases h with ⟨s₁, s₂, s₃, s₄, h₁, hin, hassert, h₂, hin₃, hrel, h₄, hread⟩
  rcases hassert.edge with ⟨v, hs₂⟩
  rcases hrel.edge with ⟨v', rfl⟩
  have hgive : s₂ = giveByte { s₁ with orb := v, lastReq := false } := by
    rw [hs₂, reqEdge, if_pos rfl]
    exact if_neg (show ¬ ({ s₁ with orb := v, lastReq := false } : PmuVia).ShiftsOut from hin)
  have hrelease : PmuVia.reqEdge { s₃ with orb := v', lastReq := true } false =
      { s₃ with orb := v', lastReq := true, ack := true } := by
    simp only [reqEdge]
    rw [if_neg Bool.false_ne_true]
    exact if_neg fun hc => hin₃ hc.1
  have hreq : s.told.req = true := by
    rcases hassert with ⟨-, -, -, -, -, hreq, -⟩
    rw [← h₁.told]
    exact hreq
  rw [hrelease] at h₄
  constructor
  · have hthere : s₃.told = { s.told.get with req := false } := by
      rw [h₂.told, hgive, giveByte_told, ← h₁.told]
      rfl
    rw [h₄.told]
    show ({ s₃.told with req := true } : Told) = _
    rw [hthere]
    simp only [Told.get, hreq]
  · -- SR holds the byte from the assert on
    have hsr₃ : s₃.sr = s.told.due.headD 0#8 := by
      rw [h₂.sr rfl, hgive, giveByte_sr, ← h₁.told]
      rfl
    rcases hread with hr | hr
    · rw [hr.eq, hsr₃]
    · rw [hr.eq, h₄.sr rfl]
      exact hsr₃

/-! ## Conversations -/

/-- The bytes out, one after the other. -/
inductive Puts : List U8 → PmuVia → PmuVia → Prop
  | nil (s : PmuVia) : Puts [] s s
  | cons {b : U8} {bs : List U8} {s s₁ s' : PmuVia} :
    PutByte b s s₁ → Puts bs s₁ s' → Puts (b :: bs) s s'

/-- The bytes in, one after the other. -/
inductive Gets : List U8 → PmuVia → PmuVia → Prop
  | nil (s : PmuVia) : Gets [] s s
  | cons {b : U8} {bs : List U8} {s s₁ s' : PmuVia} :
    GetByte b s s₁ → Gets bs s₁ s' → Gets (b :: bs) s s'

/-- A conversation: the command, its data, and the bytes read back, with the PMU as it is once
the command is out and once all is over. -/
structure Conversation where
  cmd : U8
  data : List U8
  heard : List U8
  asked : PmuVia
  done : PmuVia

/-- The conversation is held from a state. -/
def Conversation.HeldFrom (c : Conversation) (s : PmuVia) : Prop :=
  Puts (c.cmd :: c.data) s c.asked ∧ Gets c.heard c.asked c.done

/-- The machine looks at the reset request, and may take it. -/
def handedOver (s : PmuVia) (taken : Bool) : PmuVia :=
  if taken then { s with resetRequest := false } else s

/-- Conversations one after the other. -/
inductive Talks : PmuVia → List Conversation → Prop
  | nil (s : PmuVia) : Talks s []
  | cons {s : PmuVia} (taken : Bool) {c : Conversation} {cs : List Conversation} :
    c.HeldFrom (s.handedOver taken) → Talks c.done cs → Talks s (c :: cs)

/-- The frame parsed is the conversation's own, the bytes read are its reply and then zeros, and
a PMU_RESET has requested the reset. -/
structure Conversation.Framed (c : Conversation) : Prop where
  frame : c.asked.frame = c.cmd :: c.data
  heard : c.heard =
    (replyOf (c.cmd :: c.data) ++ List.replicate c.heard.length 0#8).take c.heard.length
  reset : c.cmd = 0xD0#8 → c.done.resetRequest = true

/-! ## What a conversation leaves -/

/-- The next byte out starts a frame. -/
def Told.Fresh (t : Told) : Prop := t.open = []

theorem Told.put_open (t : Told) (b : U8) : (t.put b).open = t.open ++ [b] := rfl

/-- All bytes out: they land behind what is there, whatever it is. -/
theorem Puts.told {bs : List U8} {s s' : PmuVia} (h : Puts bs s s') :
    s'.told.open = s.told.open ++ bs ∧ (bs ≠ [] → s'.told.dirIn = false
      ∧ s'.told.frame = s.told.open ++ bs ∧ s'.told.due = replyOf (s.told.open ++ bs)) := by
  induction h with
  | nil s => simp
  | @cons b bs s s₁ s' hput hrest ih =>
    rw [hput.told, Told.put_open, List.append_assoc] at ih
    refine ⟨ih.1, fun _ => ?_⟩
    by_cases hbs : bs = []
    · subst hbs
      cases hrest
      rw [hput.told]
      exact ⟨rfl, rfl, rfl⟩
    · exact ih.2 hbs

/-- The reset stays requested. -/
theorem Puts.reset {bs : List U8} {s s' : PmuVia} (h : Puts bs s s')
    (hs : s.told.reset = true) : s'.told.reset = true := by
  induction h with
  | nil s => exact hs
  | cons hput _ ih =>
    apply ih
    rw [hput.told]
    simp [Told.put, hs]

/-- PMU_RESET at the start of a frame requests the reset. -/
theorem Puts.requests {b : U8} {bs : List U8} {s s' : PmuVia} (h : Puts (b :: bs) s s')
    (hs : s.told.Fresh) (hb : b = 0xD0#8) : s'.told.reset = true := by
  cases h with
  | cons hput hrest =>
    apply hrest.reset
    rw [hput.told]
    simp only [Told.put, show s.told.open = [] from hs, hb, and_self, decide_true, Bool.or_true]

/-- All bytes in: what is due, and then zeros. -/
theorem Gets.heard {bs : List U8} {s s' : PmuVia} (h : Gets bs s s') :
    bs = (s.told.due ++ List.replicate bs.length 0#8).take bs.length := by
  induction h with
  | nil s => rfl
  | @cons b bs s s₁ s' hget _ ih =>
    rcases hget.told with ⟨htold, hb⟩
    rw [htold] at ih
    rw [List.length_cons, hb]
    rcases hdue : s.told.due with - | ⟨d, ds⟩
    · simp only [Told.get, hdue, List.tail_nil, List.nil_append, List.take_replicate] at ih
      rw [min_self] at ih
      rw [List.headD_nil, List.nil_append, List.replicate_succ, ← ih]
      exact (List.take_of_length_le (by simp)).symm
    · simp only [Told.get, hdue, List.tail_cons] at ih
      rw [List.headD_cons, List.cons_append, List.take_succ_cons, List.replicate_succ']
      congr 1
      rw [← List.append_assoc, List.take_append_of_le_length (by simp)]
      exact ih

theorem Gets.told {bs : List U8} {s s' : PmuVia} (h : Gets bs s s') :
    s'.told.frame = s.told.frame ∧ s'.told.reset = s.told.reset
      ∧ s'.told.dirIn = if bs = [] then s.told.dirIn else true := by
  induction h with
  | nil s => simp
  | @cons b bs s s₁ s' hget _ ih =>
    rw [hget.told.1] at ih
    refine ⟨ih.1, ih.2.1, ?_⟩
    rw [ih.2.2]
    simp [Told.get]

theorem handedOver_open (s : PmuVia) (taken : Bool) :
    (s.handedOver taken).told.open = s.told.open := by
  cases taken <;> rfl

/-- From a fresh start the conversation is framed. -/
theorem Conversation.HeldFrom.framed {c : Conversation} {s : PmuVia} (h : c.HeldFrom s)
    (hs : s.told.Fresh) : c.Framed := by
  have hopen : s.told.open = [] := hs
  rcases h.1.told.2 (List.cons_ne_nil _ _) with ⟨-, hframe, hdue⟩
  rw [hopen, List.nil_append] at hframe hdue
  refine ⟨hframe, ?_, fun hcmd => ?_⟩
  · have hheard := h.2.heard
    rwa [hdue] at hheard
  · exact h.2.told.2.1.trans (h.1.requests hs hcmd)

/-- With bytes already there it is not. -/
theorem Conversation.HeldFrom.not_framed {c : Conversation} {s : PmuVia} (h : c.HeldFrom s)
    (hs : ¬ s.told.Fresh) : ¬ c.Framed := by
  intro hc
  apply hs
  rcases h.1.told.2 (List.cons_ne_nil _ _) with ⟨-, hframe, -⟩
  have heq : s.told.open ++ c.cmd :: c.data = c.cmd :: c.data := hframe.symm.trans hc.frame
  exact List.append_left_eq_self.mp heq

/-- A byte read back is what leaves a fresh start behind. -/
theorem Conversation.HeldFrom.fresh_iff {c : Conversation} {s : PmuVia} (h : c.HeldFrom s) :
    c.done.told.Fresh ↔ c.heard ≠ [] := by
  rcases h.1.told.2 (List.cons_ne_nil _ _) with ⟨hdir, hframe, -⟩
  rcases h.2.told with ⟨hframe', -, hdir'⟩
  rw [hframe] at hframe'
  rw [hdir] at hdir'
  unfold Told.Fresh Told.open
  by_cases hheard : c.heard = []
  · rw [if_pos hheard] at hdir'
    simp [hdir', hframe', hheard]
  · rw [if_neg hheard] at hdir'
    simp [hdir', hheard]

theorem Talks.framed_iff_of_fresh {s : PmuVia} {cs : List Conversation} (h : Talks s cs)
    (hs : s.told.Fresh) :
    (∀ c ∈ cs, c.Framed) ↔ ∀ c ∈ cs.dropLast, c.heard ≠ [] := by
  induction h with
  | nil s => simp
  | @cons s taken c cs hheld htalks ih =>
    have hc : c.Framed := hheld.framed ((handedOver_open s taken).trans hs)
    cases htalks with
    | nil => simpa using hc
    | @cons _ taken' c' cs' hheld' htalks' =>
      rw [List.dropLast_cons_cons]
      by_cases hheard : c.heard = []
      · -- its bytes stay, and the next conversation finds them
        have hstale : ¬ (c.done.handedOver taken').told.Fresh := fun hfresh =>
          
          hheld.fresh_iff.mp ((handedOver_open _ taken').symm.trans hfresh) hheard
        refine iff_of_false (fun hall => ?_) (fun hall => hall c List.mem_cons_self hheard)
        exact hheld'.not_framed hstale (hall c' (List.mem_cons_of_mem c List.mem_cons_self))
      · have hrest := ih (hheld.fresh_iff.mpr hheard)
        rw [List.forall_mem_cons, hrest, List.forall_mem_cons]
        exact and_congr (iff_of_true hc hheard) Iff.rfl

/-- Every conversation is framed exactly when each but the last reads a byte. -/
theorem framed_iff (straps : U8) {cs : List Conversation} (h : Talks (powerOn straps) cs) :
    (∀ c ∈ cs, c.Framed) ↔ ∀ c ∈ cs.dropLast, c.heard ≠ [] :=
  h.framed_iff_of_fresh rfl

/-! ## A host -/

/-- The host shifts a byte out. -/
def sendByte (b : U8) (k : PmuClock) (s : PmuVia) : PmuVia :=
  ((((s.write 0x1400#32 b k).write 0x1600#32 0x1C#8 k).write 0#32 0x00#8 k).write 0#32 0x10#8 k)

/-- The host has a byte shifted in. -/
def fetchByte (k : PmuClock) (s : PmuVia) : PmuVia :=
  (((s.write 0x1600#32 0x0C#8 k).write 0#32 0x00#8 k).write 0#32 0x10#8 k)

theorem Idles.single (held : ViaReg → Prop) (s : PmuVia) (off : U32) (v : U8) (k : PmuClock)
    (hoff : regOf off ≠ vORB) (hheld : ¬ held (regOf off)) :
    Idles held s (s.write off v k) := by
  apply Relation.ReflTransGen.single
  refine ⟨.write off v k, fun h => hoff h.1, ?_, rfl⟩
  intro r hr
  cases hr
  exact hheld

theorem giveByte_wires (s : PmuVia) :
    s.giveByte.lastReq = s.lastReq ∧ s.giveByte.acr = s.acr := by
  simp only [giveByte, nextReply]
  rcases s.reply[s.replyAt]? with - | b <;> exact ⟨rfl, rfl⟩

/-- An edge moves neither the line nor the mode. -/
theorem reqEdge_wires (s : PmuVia) (asserted : Bool) :
    (s.reqEdge asserted).lastReq = s.lastReq ∧ (s.reqEdge asserted).acr = s.acr := by
  unfold reqEdge
  split
  · split
    · exact ⟨rfl, rfl⟩
    · exact s.giveByte_wires
  · simp only
    split <;> exact ⟨rfl, rfl⟩

theorem orbWrite_acr (s : PmuVia) (v : U8) : (s.orbWrite v).acr = s.acr := by
  simp only [orbWrite]
  split
  · exact (reqEdge_wires _ _).2
  · rfl

theorem orbWrite_lastReq (s : PmuVia) (v : U8) :
    (s.orbWrite v).lastReq = decide (v &&& 0x10#8 ≠ 0#8) := by
  by_cases h : decide (v &&& 0x10#8 ≠ 0#8) = s.lastReq
  · rw [s.orbWrite_quiet h, h]
  · simp only [orbWrite, if_pos h]
    exact (reqEdge_wires _ _).1

/-- The mode, and then a cycle of REQ. -/
theorem cycle (s : PmuVia) (k : PmuClock) (m : U8) (hs : s.lastReq = true) :
    let s₁ := s.write 0x1600#32 m k
    Asserts s₁ (s₁.orbWrite 0x00#8) ∧ Releases (s₁.orbWrite 0x00#8)
      ((s₁.orbWrite 0x00#8).orbWrite 0x10#8) ∧ s₁.acr = m ∧ (s₁.orbWrite 0x00#8).acr = m := by
  refine ⟨⟨0#32, 0x00#8, k, rfl, rfl, hs, rfl⟩, ?_, rfl, orbWrite_acr _ _⟩
  exact ⟨0#32, 0x10#8, k, rfl, by decide, orbWrite_lastReq _ _, rfl⟩

theorem putByte_sendByte (b : U8) (k : PmuClock) {s : PmuVia} (hs : s.lastReq = true) :
    PutByte b s (s.sendByte b k) := by
  have hsr := Idles.single anything s 0x1400#32 b k (by decide) id
  have hacr := Idles.single anything (s.write 0x1400#32 b k) 0x1600#32 0x1C#8 k (by decide) id
  rcases cycle (s.write 0x1400#32 b k) k 0x1C#8 hs with ⟨hassert, hrel, hm, hm'⟩
  refine ⟨_, _, _, hsr.trans hacr, ?_, rfl, hassert, Relation.ReflTransGen.refl, ?_, hrel⟩
  · rw [ShiftsOut, hm]
    decide
  · rw [ShiftsOut, hm']
    decide

theorem getByte_fetchByte (k : PmuClock) {s : PmuVia} (hs : s.lastReq = true) :
    GetByte (s.fetchByte k).sr s (s.fetchByte k) := by
  have hacr := Idles.single anything s 0x1600#32 0x0C#8 k (by decide) id
  rcases cycle s k 0x0C#8 hs with ⟨hassert, hrel, hm, hm'⟩
  refine ⟨_, _, _, _, hacr, ?_, hassert, Relation.ReflTransGen.refl, ?_, hrel,
    Relation.ReflTransGen.refl, Or.inr ⟨0x1400#32, k, rfl, rfl⟩⟩
  · rw [ShiftsOut, hm]
    decide
  · rw [ShiftsOut, hm']
    decide

theorem sendByte_lastReq (s : PmuVia) (b : U8) (k : PmuClock) :
    (s.sendByte b k).lastReq = true := orbWrite_lastReq _ _

/-- The clock of the two talks below. -/
def still : PmuClock := { now := 0#64, tb := none }

/-- Two conversations: the version is asked for and, if the host does so, read; then the reset is
asked for. -/
def versionThenReset (reads : Bool) : List Conversation :=
  let asked := (powerOn 0#8).sendByte 0xEA#8 still
  let done := if reads then asked.fetchByte still else asked
  let reset := done.sendByte 0xD0#8 still
  [{ cmd := 0xEA#8, data := [], heard := if reads then [0x0C#8] else [], asked, done },
    { cmd := 0xD0#8, data := [], heard := [], asked := reset, done := reset }]

theorem talks_versionThenReset (reads : Bool) :
    Talks (powerOn 0#8) (versionThenReset reads) := by
  refine Talks.cons false ⟨?_, ?_⟩ (Talks.cons false ⟨?_, Gets.nil _⟩ (Talks.nil _))
  · exact Puts.cons (putByte_sendByte 0xEA#8 still rfl) (Puts.nil _)
  · cases reads
    · exact Gets.nil _
    · have hget := getByte_fetchByte still (sendByte_lastReq (powerOn 0#8) 0xEA#8 still)
      have hsr : (fetchByte still (sendByte 0xEA#8 still (powerOn 0#8))).sr = 0x0C#8 := by decide
      rw [hsr] at hget
      exact Gets.cons hget (Gets.nil _)
  · refine Puts.cons (putByte_sendByte 0xD0#8 still ?_) (Puts.nil _)
    cases reads <;> decide

theorem framed_iff_versionThenReset :
    Talks (powerOn 0#8) (versionThenReset true)
      ∧ ((∀ c ∈ versionThenReset true, c.Framed)
        ↔ ∀ c ∈ (versionThenReset true).dropLast, c.heard ≠ []) :=
  ⟨talks_versionThenReset true, framed_iff 0#8 (talks_versionThenReset true)⟩

/-- The version is asked for and never read: the reset is taken as a byte of that command, and
nothing resets. -/
theorem reset_unheard :
    ¬ ∀ (straps : U8) (cs : List Conversation), Talks (powerOn straps) cs →
      ∀ c ∈ cs, c.Framed := by
  intro h
  have hreset := (h 0#8 _ (talks_versionThenReset false) _
    (List.mem_cons_of_mem _ List.mem_cons_self)).reset rfl
  revert hreset
  decide

end PmuVia

end OpenPowerMac
