/-
The packet stream of the Rage 128's command engine: `cceRegWrite`, `cceDrainPending`, `cceParse`,
`r128CceFifoWord`, `r128CceIndirect` and `r128CceRingKick` of `machine/src/r128.cpp`.

What a register write or an operation does to the card and what the card reads of AGP space are
parameters, with the guest's memory part of the card's state. The stream does not look into them:
a handler can only ask for an indirect buffer, which is spliced in at the next packet boundary.
-/
import OpenPowerMac.Word
import OpenPowerMac.Settling

set_option autoImplicit false

namespace OpenPowerMac

open Settling

/-- The card and the memory behind it, as the packet stream uses them. -/
structure CceCard (σ : Type) where
  /-- `R128Cell::peek`. -/
  peek : σ → U32 → U32
  /-- `R128Cell::write` of a native word. -/
  write : σ → U32 → U32 → σ
  /-- `R128Cell::setReg`. -/
  setReg : σ → U32 → U32 → σ
  /-- A Type-3 handler on its operands: what it leaves, and the values it wrote to INDSIZE. -/
  op : σ → U32 → List U32 → σ × List U32
  /-- `cceGartRead`. -/
  gartRead : σ → U32 → Option U32 × σ
  /-- The size of guest RAM, and a snooped store of a little-endian word to it. -/
  ramSize : ℕ
  store : σ → U32 → U32 → σ

/-- The staging FIFO from its head on, with the dispatches that wait for a packet boundary. -/
structure CceStage (σ : Type) where
  cell : σ
  fifo : List U32
  depth : ℕ
  pendingInd : List U32
  cceIndNested : ℕ
  cceIndFetch : ℕ
  cceIndWords : ℕ

namespace CceStage

variable {σ : Type} (C : CceCard σ)

def kIwIndOff : U32 := 0x0738#32
def kIwIndSize : U32 := 0x073C#32

/-- The most dispatches of one guest-visible entry, and the most words of one body. -/
def kDepth : ℕ := 64
def kBodyMax : ℕ := 0x4000

/-! ## Packets -/

/-- `cceRegWrite`. -/
def cceRegWrite (s : CceStage σ) (off native : U32) : CceStage σ :=
  let reg := off &&& 0x3FFC#32
  { s with
    cell := C.write s.cell reg native
    pendingInd := if reg = kIwIndSize then s.pendingInd ++ [native] else s.pendingInd }

/-- The operands of a Type-0 packet, written to one register or to a run of them. -/
def type0 (oneReg : Bool) : U32 → List U32 → CceStage σ → CceStage σ
  | _, [], s => s
  | base, v :: vs, s =>
      type0 oneReg (if oneReg then base else base + 4#32) vs (s.cceRegWrite C base v)

/-- How many words follow a header. -/
def bodyLen (w : U32) : ℕ :=
  if w >>> 30 = 2#32 then 0
  else if w >>> 30 = 1#32 then 2
  else ((w >>> 16) &&& 0x3FFF#32).toNat + 1

/-- A whole packet. -/
def execute (w : U32) (body : List U32) (s : CceStage σ) : CceStage σ :=
  if w >>> 30 = 2#32 then s
  else if w >>> 30 = 0#32 then
    type0 C (decide ((w >>> 15) &&& 1#32 ≠ 0#32)) ((w &&& 0x7FF#32) <<< 2) body s
  else if w >>> 30 = 1#32 then
    (s.cceRegWrite C ((w &&& 0x7FF#32) <<< 2) (body.getD 0 0#32)).cceRegWrite C
      (((w >>> 11) &&& 0x7FF#32) <<< 2) (body.getD 1 0#32)
  else
    let r := C.op s.cell ((w >>> 8) &&& 0xFF#32) body
    { s with cell := r.1, pendingInd := s.pendingInd ++ r.2 }

/-! ## Indirect buffers -/

/-- Words read one after another, up to a miss. -/
def gartWords : List U32 → σ → List U32 × σ
  | [], c => ([], c)
  | agp :: agps, c =>
      let r := C.gartRead c agp
      match r.1 with
      | none => ([], r.2)
      | some w =>
          let rest := gartWords agps r.2
          (w :: rest.1, rest.2)

/-- The places of a body. -/
def bodyPlaces (indOff : U32) (n : ℕ) : List U32 :=
  (List.range n).map fun i => indOff + 4#32 * BitVec.ofNat 32 i

/-- `cceDrainPending` on one dispatch. -/
def dispatch (sizeDwords : U32) (s : CceStage σ) : CceStage σ :=
  if s.depth = 0 then { s with cceIndNested := s.cceIndNested + 1 }
  else
    let n := (sizeDwords &&& 0xFFFF#32).toNat
    if n = 0 ∨ n > kBodyMax then { s with depth := s.depth - 1 }
    else
      let r := gartWords C (bodyPlaces (C.peek s.cell kIwIndOff) n) s.cell
      { s with
        cell := r.2
        fifo := r.1 ++ s.fifo
        depth := s.depth - 1
        cceIndFetch := s.cceIndFetch + 1
        cceIndWords := s.cceIndWords + r.1.length }

/-! ## The loop -/

/-- One turn of the loop: a dispatch that waits, or the packet at the head if it is whole. -/
def turn (s : CceStage σ) : Option (CceStage σ) :=
  match s.pendingInd with
  | size :: rest => some (dispatch C size { s with pendingInd := rest })
  | [] =>
      match s.fifo with
      | [] => none
      | w :: ws =>
          if ws.length < bodyLen w then none
          else some (execute C w (ws.take (bodyLen w)) { s with fifo := ws.drop (bodyLen w) })

/-- A handler on the card alone: what it leaves, and the dispatches it asks for. -/
def Does (f : CceStage σ → CceStage σ) : Prop :=
  ∃ e : σ → σ × List U32, ∀ s, f s = { s with
    cell := (e s.cell).1
    pendingInd := s.pendingInd ++ (e s.cell).2 }

variable {C}

theorem Does.id : Does (fun s : CceStage σ => s) :=
  ⟨fun c => (c, []), fun s => by rw [List.append_nil]⟩

theorem Does.comp {f g : CceStage σ → CceStage σ} (hf : Does f) (hg : Does g) :
    Does fun s => g (f s) := by
  obtain ⟨e, he⟩ := hf
  obtain ⟨d, hd⟩ := hg
  refine ⟨fun c => ((d (e c).1).1, (e c).2 ++ (d (e c).1).2), fun s => ?_⟩
  change g (f s) = _
  rw [hd, he, List.append_assoc]

theorem does_cceRegWrite (off native : U32) :
    Does fun s : CceStage σ => s.cceRegWrite C off native := by
  refine ⟨fun c => (C.write c (off &&& 0x3FFC#32) native,
    if off &&& 0x3FFC#32 = kIwIndSize then [native] else []), fun s => ?_⟩
  change cceRegWrite C s off native = _
  unfold cceRegWrite
  by_cases h : off &&& 0x3FFC#32 = kIwIndSize
  · simp only [h, if_true]
  · simp only [h, if_false, List.append_nil]

theorem does_type0 (oneReg : Bool) (vs : List U32) :
    ∀ base : U32, Does (type0 C oneReg base vs) := by
  induction vs with
  | nil => exact fun _ => Does.id
  | cons v vs ih =>
      intro base
      exact (does_cceRegWrite base v).comp (ih (if oneReg then base else base + 4#32))

theorem does_execute (w : U32) (body : List U32) : Does (execute C w body) := by
  unfold execute
  by_cases h2 : w >>> 30 = 2#32
  · simp only [if_pos h2]
    exact Does.id
  by_cases h0 : w >>> 30 = 0#32
  · simp only [if_neg h2, if_pos h0]
    exact does_type0 _ _ _
  by_cases h1 : w >>> 30 = 1#32
  · simp only [if_neg h2, if_neg h0, if_pos h1]
    exact (does_cceRegWrite _ _).comp (does_cceRegWrite _ _)
  · simp only [if_neg h2, if_neg h0, if_neg h1]
    exact ⟨fun c => C.op c ((w >>> 8) &&& 0xFF#32) body, fun s => rfl⟩

theorem turn_pending {s : CceStage σ} {size : U32} {rest : List U32}
    (h : s.pendingInd = size :: rest) :
    turn C s = some (dispatch C size { s with pendingInd := rest }) := by
  rw [turn, h]

theorem turn_packet {s : CceStage σ} {w : U32} {ws : List U32} (hpending : s.pendingInd = [])
    (hfifo : s.fifo = w :: ws) (hlen : bodyLen w ≤ ws.length) : turn C s
      = some (execute C w (ws.take (bodyLen w)) { s with fifo := ws.drop (bodyLen w) }) := by
  rw [turn, hpending, hfifo]
  exact if_neg (not_lt.mpr hlen)

/-- What a turn can be. -/
theorem turn_cases {s s' : CceStage σ} (h : turn C s = some s') :
    (∃ size rest, s.pendingInd = size :: rest
        ∧ s' = dispatch C size { s with pendingInd := rest })
      ∨ ∃ w ws, s.pendingInd = [] ∧ s.fifo = w :: ws ∧ bodyLen w ≤ ws.length
        ∧ s' = execute C w (ws.take (bodyLen w)) { s with fifo := ws.drop (bodyLen w) } := by
  unfold turn at h
  split at h
  · next size rest hpending => exact .inl ⟨size, rest, hpending, (Option.some.inj h).symm⟩
  · next hpending =>
      split at h
      · exact absurd h nofun
      · next w ws hfifo =>
          split at h
          · exact absurd h nofun
          · next hlen =>
              exact .inr ⟨w, ws, hpending, hfifo, not_lt.mp hlen, (Option.some.inj h).symm⟩

/-- The loop ends at less than a packet. -/
theorem turn_none {s : CceStage σ} : turn C s = none
    ↔ s.pendingInd = [] ∧ ∀ w ws, s.fifo = w :: ws → ws.length < bodyLen w := by
  unfold turn
  split
  · next size rest hpending => simp [hpending]
  · next hpending =>
      split
      · next hfifo => simp [hpending, hfifo]
      · next w ws hfifo =>
          rw [hfifo]
          split
          · next hlen =>
              refine ⟨fun _ => ⟨hpending, ?_⟩, fun _ => rfl⟩
              rintro w' ws' heq
              rw [← (List.cons.inj heq).1, ← (List.cons.inj heq).2]
              exact hlen
          · next hlen => exact ⟨nofun, fun h => absurd (h.2 w ws rfl) hlen⟩

variable (C)

/-- The budget goes down, or the words, or the dispatches that wait. -/
theorem turn_down {s s' : CceStage σ} (h : turn C s = some s') : s'.depth < s.depth
    ∨ s'.depth = s.depth ∧ (s'.fifo.length < s.fifo.length
      ∨ s'.fifo.length = s.fifo.length ∧ s'.pendingInd.length < s.pendingInd.length) := by
  obtain ⟨size, rest, hpending, rfl⟩ | ⟨w, ws, hpending, hfifo, hlen, rfl⟩ := turn_cases h
  · by_cases hdepth : s.depth = 0
    · rw [dispatch, if_pos hdepth, hpending]
      exact .inr ⟨rfl, .inr ⟨rfl, Nat.lt_succ_self _⟩⟩
    · left
      rw [dispatch, if_neg hdepth]
      dsimp only
      split <;> exact Nat.sub_lt (Nat.pos_of_ne_zero hdepth) Nat.one_pos
  · obtain ⟨e, he⟩ := does_execute (C := C) w (ws.take (bodyLen w))
    rw [he, hfifo]
    refine .inr ⟨rfl, .inl ?_⟩
    rw [List.length_drop, List.length_cons]
    omega

/-- `cceParse`. -/
def cceParse (s : CceStage σ) : CceStage σ :=
  match _h : turn C s with
  | none => s
  | some s' => cceParse s'
termination_by (s.depth, s.fifo.length, s.pendingInd.length)
decreasing_by
  have hdown := turn_down C _h
  simp only [Prod.lex_def]
  omega

theorem settles_cceParse (s : CceStage σ) : Settles (turn C) s (cceParse C s) := by
  induction s using cceParse.induct C with
  | case1 s h =>
      rw [cceParse]
      split
      · exact .done h
      · next s' h' => exact absurd (h.symm.trans h') nofun
  | case2 s s' h ih =>
      rw [cceParse]
      split
      · next h' => exact absurd (h.symm.trans h') nofun
      · next s₁ h' =>
          rw [← Option.some.inj (h.symm.trans h')]
          exact .turn h ih

/-! ## Entries of the guest -/

/-- Words behind those that are staged. -/
def push (s : CceStage σ) (ws : List U32) : CceStage σ := { s with fifo := s.fifo ++ ws }

/-- A guest-visible entry that stages words: a fresh budget, and what they complete. -/
def feed (s : CceStage σ) (ws : List U32) : CceStage σ :=
  cceParse C { s.push ws with depth := kDepth }

/-- `cceBswap`. -/
def cceBswap (v : U32) : U32 :=
  (v >>> 24) ||| ((v >>> 8) &&& 0xFF00#32) ||| ((v <<< 8) &&& 0xFF0000#32) ||| (v <<< 24)

/-- `r128CceFifoWord`, for a card with its engine on. -/
def r128CceFifoWord (s : CceStage σ) (raw : U32) (len : ℕ) : CceStage σ :=
  if len = 4 then feed C s [cceBswap raw] else s

/-- `r128CceIndirect`. -/
def r128CceIndirect (s : CceStage σ) (sizeDwords : U32) : CceStage σ :=
  cceParse C { s with depth := kDepth, pendingInd := s.pendingInd ++ [sizeDwords] }

/-- A budget that is larger by `k`. -/
def raise (k : ℕ) (s : CceStage σ) : CceStage σ := { s with depth := s.depth + k }

variable {C}

theorem dispatch_push (size : U32) (s : CceStage σ) (ws : List U32) :
    dispatch C size (s.push ws) = (dispatch C size s).push ws := by
  unfold dispatch push
  by_cases hdepth : s.depth = 0
  · rw [if_pos hdepth, if_pos hdepth]
  · rw [if_neg hdepth, if_neg hdepth]
    dsimp only
    split
    · rfl
    · rw [List.append_assoc]

theorem execute_push (w : U32) (body : List U32) (s : CceStage σ) (ws : List U32) :
    execute C w body (s.push ws) = (execute C w body s).push ws := by
  obtain ⟨e, he⟩ := does_execute (C := C) w body
  rw [he, he]
  rfl

theorem turn_push : Behind (turn C) push := by
  intro s s' ws h
  obtain ⟨size, rest, hpending, rfl⟩ | ⟨w, vs, hpending, hfifo, hlen, rfl⟩ := turn_cases h
  · rw [turn_pending (s := s.push ws) hpending]
    exact congrArg some (dispatch_push size { s with pendingInd := rest } ws)
  · have hstaged : (s.push ws).fifo = w :: (vs ++ ws) := by
      rw [push, hfifo]
      rfl
    have hroom : bodyLen w ≤ (vs ++ ws).length := by
      rw [List.length_append]
      omega
    rw [turn_packet (s := s.push ws) hpending hstaged hroom, List.take_append_of_le_length hlen,
      List.drop_append_of_le_length hlen]
    exact congrArg some (execute_push w _ { s with fifo := vs.drop (bodyLen w) } ws)

theorem dispatch_nested (size : U32) (s : CceStage σ) :
    s.cceIndNested ≤ (dispatch C size s).cceIndNested := by
  unfold dispatch
  split
  · exact Nat.le_succ _
  · dsimp only
    split <;> exact Nat.le_refl _

theorem turn_nested {s s' : CceStage σ} (h : turn C s = some s') :
    s.cceIndNested ≤ s'.cceIndNested := by
  obtain ⟨size, rest, -, rfl⟩ | ⟨w, ws, -, -, -, rfl⟩ := turn_cases h
  · exact dispatch_nested size { s with pendingInd := rest }
  · obtain ⟨e, he⟩ := does_execute (C := C) w (ws.take (bodyLen w))
    rw [he]

theorem dispatch_raise (size : U32) {s : CceStage σ} (hdepth : s.depth ≠ 0) (k : ℕ) :
    dispatch C size (s.raise k) = (dispatch C size s).raise k := by
  have hsub : s.depth + k - 1 = s.depth - 1 + k := by omega
  unfold dispatch raise
  dsimp only
  rw [if_neg (show ¬ s.depth + k = 0 by omega), if_neg hdepth, hsub]
  split <;> rfl

theorem turn_raise {s s' : CceStage σ} (h : turn C s = some s')
    (hkept : s'.cceIndNested = s.cceIndNested) (k : ℕ) :
    turn C (s.raise k) = some (s'.raise k) := by
  obtain ⟨size, rest, hpending, rfl⟩ | ⟨w, ws, hpending, hfifo, hlen, rfl⟩ := turn_cases h
  · rw [turn_pending (s := s.raise k) hpending]
    refine congrArg some ?_
    by_cases hdepth : s.depth = 0
    · rw [dispatch, if_pos hdepth] at hkept
      exact absurd hkept (Nat.succ_ne_self _)
    · exact dispatch_raise size (s := { s with pendingInd := rest }) hdepth k
  · rw [turn_packet (s := s.raise k) hpending hfifo hlen]
    obtain ⟨e, he⟩ := does_execute (C := C) w (ws.take (bodyLen w))
    rw [he, he]
    rfl

theorem settles_nested {s t : CceStage σ} (h : Settles (turn C) s t) :
    s.cceIndNested ≤ t.cceIndNested :=
  h.keeps (P := fun t => s.cceIndNested ≤ t.cceIndNested)
    (fun _ _ hturn hle => hle.trans (turn_nested hturn)) (Nat.le_refl _)

theorem stuck_depth {s : CceStage σ} (h : turn C s = none) (d : ℕ) :
    turn C { s with depth := d } = none := by
  obtain ⟨hpending, hstaged⟩ := turn_none.mp h
  exact turn_none.mpr ⟨hpending, hstaged⟩

/-- A run that drops no dispatch is the same on a larger budget. -/
theorem settles_raise {s t : CceStage σ} (h : Settles (turn C) s t)
    (hkept : t.cceIndNested = s.cceIndNested) (k : ℕ) :
    Settles (turn C) (s.raise k) (t.raise k) := by
  induction h with
  | done h => exact .done (stuck_depth h _)
  | turn h hrest ih =>
      have hfirst := turn_nested h
      have hsecond := settles_nested hrest
      exact .turn (turn_raise h (by omega) k) (ih (by omega))

theorem settles_depth {s t : CceStage σ} (h : Settles (turn C) s t) : t.depth ≤ s.depth := by
  refine h.keeps (P := fun t => t.depth ≤ s.depth) (fun a b hturn hle => ?_) (Nat.le_refl _)
  have hdown := turn_down C hturn
  omega

/-- Words may come with those before them, or in an entry of their own. -/
theorem feed_append {s : CceStage σ} {ws vs : List U32}
    (hkept : (feed C s (ws ++ vs)).cceIndNested = s.cceIndNested) :
    (feed C s ws).cceIndNested = s.cceIndNested
      ∧ ∃ k, feed C (feed C s ws) vs = (feed C s (ws ++ vs)).raise k := by
  have hfirst : Settles (turn C) { s.push ws with depth := kDepth } (feed C s ws) :=
    settles_cceParse C _
  have hall : Settles (turn C) { s.push (ws ++ vs) with depth := kDepth } (feed C s (ws ++ vs)) :=
    settles_cceParse C _
  have hpush : ({ s.push (ws ++ vs) with depth := kDepth } : CceStage σ)
      = ({ s.push ws with depth := kDepth } : CceStage σ).push vs := by
    rw [push, push, push, List.append_assoc]
  rw [hpush] at hall
  have hsecond := hfirst.push turn_push hall
  have hle := settles_nested hfirst
  have hle' := settles_nested hsecond
  have hdepth := settles_depth hfirst
  change _ ≤ (feed C s ws).cceIndNested at hle
  change (feed C s ws).cceIndNested ≤ _ at hle'
  change _ ≤ kDepth at hdepth
  change s.cceIndNested ≤ _ at hle
  change (feed C s ws).cceIndNested ≤ _ at hle'
  have hmid : (feed C s ws).cceIndNested = s.cceIndNested := by omega
  refine ⟨hmid, kDepth - (feed C s ws).depth, ?_⟩
  have hraised := settles_raise hsecond (hkept.trans hmid.symm) (kDepth - (feed C s ws).depth)
  have hfresh : ((feed C s ws).push vs).raise (kDepth - (feed C s ws).depth)
      = { (feed C s ws).push vs with depth := kDepth } := by
    rw [raise]
    exact congrArg (fun d => { (feed C s ws).push vs with depth := d })
      (Nat.add_sub_cancel' hdepth)
  rw [hfresh] at hraised
  exact (settles_cceParse C _).unique hraised

theorem feed_nil {s : CceStage σ} (hstuck : turn C s = none) :
    feed C s [] = { s with depth := kDepth } := by
  have hpush : ({ s.push [] with depth := kDepth } : CceStage σ) = { s with depth := kDepth } := by
    rw [push, List.append_nil]
  have hdone : Settles (turn C) { s with depth := kDepth } { s with depth := kDepth } :=
    .done (stuck_depth hstuck kDepth)
  rw [feed, hpush]
  exact (settles_cceParse C _).unique hdone

theorem foldl_feed (chunks : List (List U32)) : ∀ s : CceStage σ, turn C s = none →
    (feed C s chunks.flatten).cceIndNested = s.cceIndNested →
    ∃ depth, chunks.foldl (feed C) s = { feed C s chunks.flatten with depth := depth } := by
  induction chunks with
  | nil =>
      intro s hstuck _
      refine ⟨s.depth, ?_⟩
      rw [List.flatten_nil, List.foldl_nil, feed_nil hstuck]
  | cons ws chunks ih =>
      intro s _ hkept
      rw [List.flatten_cons] at hkept ⊢
      obtain ⟨hfirst, k, hrest⟩ := feed_append hkept
      have hnested := congrArg CceStage.cceIndNested hrest
      change _ = (feed C s (ws ++ chunks.flatten)).cceIndNested at hnested
      have hstuck : turn C (feed C s ws) = none := (settles_cceParse C _).stuck
      obtain ⟨depth, hfold⟩ := ih (feed C s ws) hstuck (by omega)
      refine ⟨depth, ?_⟩
      rw [List.foldl_cons, hfold, hrest]
      rfl

theorem foldl_r128CceFifoWord (raws : List U32) : ∀ s : CceStage σ,
    raws.foldl (fun t raw => r128CceFifoWord C t raw 4) s
      = (raws.map fun raw => [cceBswap raw]).foldl (feed C) s := by
  induction raws with
  | nil => exact fun _ => rfl
  | cons raw raws ih => exact fun s => ih _

/-- A stream comes to the same one word at a time as in any bursts, as long as the budget of one
entry is enough for all of it: the card, the words that stay staged and the counters are the
same. -/
theorem fifo_delivery (C : CceCard σ) (s : CceStage σ) (hstuck : turn C s = none)
    (raws : List U32) (chunks : List (List U32)) (hsame : chunks.flatten = raws.map cceBswap)
    (hbudget : (feed C s (raws.map cceBswap)).cceIndNested = s.cceIndNested) :
    ∃ depth, raws.foldl (fun t raw => r128CceFifoWord C t raw 4) s
      = { chunks.foldl (feed C) s with depth := depth } := by
  have hwords : (raws.map fun raw => [cceBswap raw]).flatten = raws.map cceBswap := by
    rw [← List.flatMap_def, ← List.map_eq_flatMap]
  obtain ⟨depth, hone⟩ := foldl_feed (C := C) (raws.map fun raw => [cceBswap raw]) s hstuck
    (by rw [hwords]; exact hbudget)
  obtain ⟨depth', hburst⟩ := foldl_feed (C := C) chunks s hstuck (by rw [hsame]; exact hbudget)
  refine ⟨depth, ?_⟩
  rw [foldl_r128CceFifoWord, hone, hburst, hwords, hsame]

/-- A card that records what is written to it. -/
def recorder : CceCard (List (U32 × U32)) where
  peek _ off := if off = 0x0704#32 then 0x20000001#32 else if off = 0x07FC#32 then 0x40000000#32
    else if off = 0x0714#32 then 3#32 else 0#32
  write c off native := (off, native) :: c
  setReg c off native := (off, native) :: c
  op c _ _ := (c, [])
  gartRead c _ := (some 0x80000000#32, c)
  ramSize := 0
  store c _ _ := c

/-- Nothing is staged. -/
def fresh : CceStage (List (U32 × U32)) := ⟨[], [], 0, [], 0, 0, 0⟩

/-- A fence, its header in a burst of its own. -/
theorem fifo_delivery_fence : ∃ depth,
    [0x78050100#32, 0xD7E0C4D9#32, 0x01000000#32].foldl
        (fun t raw => r128CceFifoWord recorder t raw 4) fresh
      = { [[0x00010578#32], [0xD9C4E0D7#32, 1#32]].foldl (feed recorder) fresh with
          depth := depth } := by
  refine fifo_delivery recorder fresh rfl _ _ (by decide) ?_
  obtain ⟨t, hturn, hstuck, hnested⟩ : ∃ t, turn recorder { fresh.push
        ([0x78050100#32, 0xD7E0C4D9#32, 0x01000000#32].map cceBswap) with depth := kDepth } = some t
      ∧ turn recorder t = none ∧ t.cceIndNested = 0 :=
    ⟨_, rfl, rfl, rfl⟩
  have hrun := (settles_cceParse recorder _).unique (.turn hturn (.done hstuck))
  exact (congrArg cceIndNested hrun).trans hnested

/-! ## What an entry may cost -/

theorem length_gartWords (agps : List U32) :
    ∀ c : σ, (gartWords C agps c).1.length ≤ agps.length := by
  induction agps with
  | nil => exact fun _ => Nat.le_refl 0
  | cons agp agps ih =>
      intro c
      rw [gartWords]
      dsimp only
      split
      · exact Nat.zero_le _
      · exact Nat.succ_le_succ (ih _)

theorem bodyLen_le (w : U32) : bodyLen w ≤ kBodyMax := by
  have hcount : ((w >>> 16) &&& 0x3FFF#32).toNat ≤ 0x3FFF := by
    rw [BitVec.toNat_and]
    exact Nat.and_le_right
  unfold bodyLen kBodyMax
  split
  · omega
  · split <;> omega

variable (C)

/-- The body that the next turn fetches. -/
def body (s : CceStage σ) : Option (List U32) :=
  match s.pendingInd with
  | [] => none
  | size :: _ =>
      let n := (size &&& 0xFFFF#32).toNat
      if s.depth = 0 ∨ n = 0 ∨ n > kBodyMax then none
      else some (gartWords C (bodyPlaces (C.peek s.cell kIwIndOff) n) s.cell).1

/-- The bodies that `cceParse` fetches, in the order in which it splices them in. -/
def bodies (s : CceStage σ) : List (List U32) :=
  match _h : turn C s with
  | none => []
  | some s' => (body C s).toList ++ bodies s'
termination_by (s.depth, s.fifo.length, s.pendingInd.length)
decreasing_by
  have hdown := turn_down C _h
  simp only [Prod.lex_def]
  omega

variable {C}

theorem body_le {s : CceStage σ} {ws : List U32} (h : body C s = some ws) :
    ws.length ≤ kBodyMax := by
  unfold body at h
  split at h
  · exact absurd h nofun
  · dsimp only at h
    split at h
    · exact absurd h nofun
    · next size rest hpending hn =>
        rw [← Option.some.inj h]
        refine (length_gartWords _ _).trans ?_
        rw [bodyPlaces, List.length_map, List.length_range]
        omega

/-- What is fetched takes from the budget and is what the card counts. -/
structure Fetched (s s' : CceStage σ) (ws : List (List U32)) : Prop where
  budget : s'.depth + ws.length ≤ s.depth
  fetches : s'.cceIndFetch = s.cceIndFetch + ws.length
  words : s'.cceIndWords = s.cceIndWords + (ws.map List.length).sum

theorem Fetched.trans {s s' s'' : CceStage σ} {ws vs : List (List U32)} (h : Fetched s s' ws)
    (h' : Fetched s' s'' vs) : Fetched s s'' (ws ++ vs) := by
  obtain ⟨hb, hf, hw⟩ := h
  obtain ⟨hb', hf', hw'⟩ := h'
  have hlen : (ws ++ vs).length = ws.length + vs.length := List.length_append
  refine ⟨by omega, by omega, ?_⟩
  rw [hw', hw, List.map_append, List.sum_append, Nat.add_assoc]

/-- A turn counts the body that it fetches. -/
theorem fetched_turn {s s' : CceStage σ} (h : turn C s = some s') :
    Fetched s s' (body C s).toList := by
  obtain ⟨size, rest, hpending, rfl⟩ | ⟨w, ws, hpending, -, -, rfl⟩ := turn_cases h
  · unfold body dispatch
    rw [hpending]
    dsimp only
    by_cases hdepth : s.depth = 0
    · rw [if_pos hdepth, if_pos (.inl hdepth)]
      exact ⟨Nat.le_refl _, rfl, rfl⟩
    by_cases hn : (size &&& 0xFFFF#32).toNat = 0 ∨ (size &&& 0xFFFF#32).toNat > kBodyMax
    · rw [if_neg hdepth, if_pos hn, if_pos (.inr hn)]
      exact ⟨Nat.sub_le _ _, rfl, rfl⟩
    · rw [if_neg hdepth, if_neg hn, if_neg (not_or.mpr ⟨hdepth, hn⟩)]
      exact ⟨Nat.sub_add_cancel (Nat.pos_of_ne_zero hdepth) |>.le, rfl, rfl⟩
  · obtain ⟨e, he⟩ := does_execute (C := C) w (ws.take (bodyLen w))
    rw [he, body, hpending]
    exact ⟨Nat.le_refl _, rfl, rfl⟩

/-- So does the loop. -/
theorem fetched_cceParse (s : CceStage σ) : Fetched s (cceParse C s) (bodies C s) := by
  induction s using cceParse.induct C with
  | case1 s h =>
      rw [cceParse, bodies]
      split
      · exact ⟨Nat.le_refl _, rfl, rfl⟩
      · next s' h' => exact absurd (h.symm.trans h') nofun
  | case2 s s' h ih =>
      rw [cceParse, bodies]
      split
      · next h' => exact absurd (h.symm.trans h') nofun
      · next s₁ h' =>
          rw [← Option.some.inj (h.symm.trans h')]
          exact (fetched_turn h).trans ih

theorem bodies_le (s : CceStage σ) : ∀ b ∈ bodies C s, b.length ≤ kBodyMax := by
  induction s using cceParse.induct C with
  | case1 s h =>
      rw [bodies]
      split
      · exact nofun
      · next s' h' => exact absurd (h.symm.trans h') nofun
  | case2 s s' h ih =>
      rw [bodies]
      split
      · exact nofun
      · next s₁ h' =>
          rw [← Option.some.inj (h.symm.trans h')]
          intro b hb
          rcases List.mem_append.mp hb with hb | hb
          · exact body_le (Option.mem_toList.mp hb)
          · exact ih b hb

/-- What an entry comes to: no dispatch waits, less than a packet is staged, and what was fetched
is at most 64 bodies, each of at most 2^14 words. -/
structure Bounded (C : CceCard σ) (s t : CceStage σ) (bs : List (List U32)) : Prop where
  rest : turn C t = none
  pending : t.pendingInd = []
  staged : ∀ w ws, t.fifo = w :: ws → ws.length < bodyLen w
  short : t.fifo.length ≤ kBodyMax
  count : bs.length ≤ kDepth
  bodies : ∀ b ∈ bs, b.length ≤ kBodyMax
  fetches : t.cceIndFetch = s.cceIndFetch + bs.length
  words : t.cceIndWords = s.cceIndWords + (bs.map List.length).sum

/-- **An entry is bounded**, with any words staged and any dispatches waiting. -/
theorem entry_bounded (C : CceCard σ) (s : CceStage σ) :
    Bounded C s (cceParse C { s with depth := kDepth }) (bodies C { s with depth := kDepth }) := by
  have hrest := (settles_cceParse C { s with depth := kDepth }).stuck
  obtain ⟨hpending, hstaged⟩ := turn_none.mp hrest
  obtain ⟨hbudget, hfetches, hwords⟩ := fetched_cceParse (C := C) { s with depth := kDepth }
  have hcount : (bodies C { s with depth := kDepth }).length ≤ kDepth :=
    (Nat.le_add_left _ _).trans hbudget
  refine ⟨hrest, hpending, hstaged, ?_, hcount, bodies_le _, hfetches, hwords⟩
  cases hfifo : (cceParse C { s with depth := kDepth }).fifo with
  | nil => exact Nat.zero_le _
  | cons w vs => exact (hstaged w vs hfifo).trans_le (bodyLen_le w)

/-! ## The ring -/

/-- The ring is fetched: a bus-mastered mode, the microengine running, a size that can be. -/
def RingArmed (c : σ) : Prop :=
  (C.peek c 0x0704#32 >>> 28 = 2#32 ∨ C.peek c 0x0704#32 >>> 28 = 4#32
      ∨ C.peek c 0x0704#32 >>> 28 = 6#32 ∨ C.peek c 0x0704#32 >>> 28 = 8#32)
    ∧ C.peek c 0x07FC#32 &&& 0x40000000#32 ≠ 0#32
    ∧ C.peek c 0x0704#32 &&& 0x3F#32 ≤ 20#32

instance (c : σ) : Decidable (RingArmed (C := C) c) := inferInstanceAs (Decidable (_ ∧ _))

variable (C)

/-- The words of the ring. -/
def ringSize (c : σ) : U32 := 2#32 <<< (C.peek c 0x0704#32 &&& 0x3F#32)

/-- The place of a word of the ring. -/
def ringPlace (base rptr : U32) : U32 := base + 4#32 * rptr

/-- The loop that fetches the ring from `rptr` to `wptr`, up to `n` words of it. -/
def ringFetch (base sizeDw wptr : U32) : ℕ → U32 → σ → List U32 × U32 × σ
  | 0, rptr, c => ([], rptr, c)
  | n + 1, rptr, c =>
      if rptr = wptr then ([], rptr, c)
      else
        let r := C.gartRead c (ringPlace base rptr)
        match r.1 with
        | none => ([], rptr, r.2)
        | some w =>
            let rest := ringFetch base sizeDw wptr n ((rptr + 1#32) &&& (sizeDw - 1#32)) r.2
            (w :: rest.1, rest.2)

/-- The read pointer, stored where the driver polls it. -/
def writeBack (rptr : U32) (s : CceStage σ) : CceStage σ :=
  let rpa := C.peek s.cell 0x070C#32 &&& ~~~3#32
  if rpa ≠ 0#32 ∧ rpa.toNat + 4 ≤ C.ramSize then { s with cell := C.store s.cell rpa rptr }
  else s

/-- `r128CceRingKick`, for a card with its engine on. -/
def r128CceRingKick (s : CceStage σ) : CceStage σ :=
  if ¬ RingArmed (C := C) s.cell then s
  else
    let sizeDw := ringSize C s.cell
    let rptr := C.peek s.cell 0x0710#32 &&& (sizeDw - 1#32)
    let wptr := C.peek s.cell 0x0714#32 &&& (sizeDw - 1#32)
    if rptr = wptr then s
    else
      let r := ringFetch C (C.peek s.cell 0x0700#32) sizeDw wptr sizeDw.toNat rptr s.cell
      writeBack C r.2.1 (feed C { s with cell := C.setReg r.2.2 0x0710#32 r.2.1 } r.1)

variable {C}

/-- `n` words of a ring from `r` on. -/
def ringSlots (size r n : ℕ) : List U32 :=
  (List.range n).map fun i => BitVec.ofNat 32 ((r + i) % size)

/-- How many words there are from `r` up to `w`. -/
def ringGap (size r w : ℕ) : ℕ := (w + size - r) % size

theorem ringSlots_succ (size r n : ℕ) :
    ringSlots size r (n + 1) = BitVec.ofNat 32 (r % size) :: ringSlots size ((r + 1) % size) n := by
  rw [ringSlots, List.range_succ_eq_map, List.map_cons, List.map_map, Nat.add_zero]
  refine congrArg _ (List.map_congr_left fun i _ => ?_)
  change BitVec.ofNat 32 ((r + (i + 1)) % size) = BitVec.ofNat 32 (((r + 1) % size + i) % size)
  rw [Nat.mod_add_mod, Nat.add_assoc, Nat.add_comm 1 i]

theorem ringGap_self (size r : ℕ) : ringGap size r r = 0 := by
  rw [ringGap, Nat.add_sub_cancel_left, Nat.mod_self]

theorem ringGap_eq {size r w : ℕ} (hr : r < size) (hw : w < size) :
    ringGap size r w = if r ≤ w then w - r else w + size - r := by
  rw [ringGap]
  split
  · rw [show w + size - r = w - r + size by omega, Nat.add_mod_right, Nat.mod_eq_of_lt (by omega)]
  · exact Nat.mod_eq_of_lt (by omega)

/-- A step closes the gap by one. -/
theorem ringGap_step {size r w : ℕ} (hr : r < size) (hw : w < size) (hne : r ≠ w) :
    ringGap size r w = ringGap size ((r + 1) % size) w + 1 := by
  have hpos : 0 < size := by omega
  by_cases hend : r + 1 = size
  · rw [hend, Nat.mod_self, ringGap_eq hr hw, ringGap_eq hpos hw]
    split <;> split <;> omega
  · rw [Nat.mod_eq_of_lt (by omega : r + 1 < size), ringGap_eq hr hw, ringGap_eq (by omega) hw]
    split <;> split <;> omega

/-- The gap crossed, the pointers meet. -/
theorem ringGap_cross {size r w : ℕ} (hr : r < size) (hw : w < size) :
    (r + ringGap size r w) % size = w := by
  rw [ringGap_eq hr hw]
  split
  · rw [show r + (w - r) = w by omega, Nat.mod_eq_of_lt hw]
  · rw [show r + (w + size - r) = w + size by omega, Nat.add_mod_right, Nat.mod_eq_of_lt hw]

section ring

variable {sizeDw : U32} {k : ℕ}

theorem toNat_wrap (hsize : sizeDw.toNat = 2 ^ k) (x : U32) :
    (x &&& (sizeDw - 1#32)).toNat = x.toNat % 2 ^ k := by
  have hpos : 0 < 2 ^ k := Nat.two_pow_pos k
  have hlt := sizeDw.isLt
  have hmask : (sizeDw - 1#32).toNat = 2 ^ k - 1 := by
    rw [BitVec.toNat_sub, hsize, show (1#32).toNat = 1 from rfl]
    omega
  rw [BitVec.toNat_and, hmask, Nat.and_two_pow_sub_one_eq_mod]

theorem ofNat_wrap (hsize : sizeDw.toNat = 2 ^ k) {r : ℕ} (hr : r < 2 ^ k) :
    (BitVec.ofNat 32 r + 1#32) &&& (sizeDw - 1#32) = BitVec.ofNat 32 ((r + 1) % 2 ^ k) := by
  have hlt := sizeDw.isLt
  have hmod := Nat.mod_lt (r + 1) (Nat.two_pow_pos k)
  refine BitVec.eq_of_toNat_eq ?_
  have hone : (1#32).toNat = 1 := rfl
  rw [toNat_wrap hsize, BitVec.toNat_add, hone, BitVec.toNat_ofNat, BitVec.toNat_ofNat,
    Nat.mod_eq_of_lt (by omega : r < 2 ^ 32),
    Nat.mod_eq_of_lt (by omega : (r + 1) % 2 ^ k < 2 ^ 32)]
  rcases Nat.lt_or_ge (r + 1) (2 ^ 32) with h | h
  · rw [Nat.mod_eq_of_lt h]
  · have htop : 2 ^ k = 2 ^ 32 := by omega
    rw [htop, Nat.mod_mod]

/-- What the loop fetches: the words between the pointers, across the end of the ring if need be,
up to a miss. -/
theorem ringFetch_eq (hsize : sizeDw.toNat = 2 ^ k) (base : U32) {w : ℕ} (hw : w < 2 ^ k)
    (n : ℕ) : ∀ (r : ℕ) (c : σ), r < 2 ^ k → ringGap (2 ^ k) r w ≤ n →
      ∃ words c', gartWords C ((ringSlots (2 ^ k) r (ringGap (2 ^ k) r w)).map (ringPlace base)) c
          = (words, c')
        ∧ ringFetch C base sizeDw (BitVec.ofNat 32 w) n (BitVec.ofNat 32 r) c
          = (words, BitVec.ofNat 32 ((r + words.length) % 2 ^ k), c') := by
  have hlt := sizeDw.isLt
  have hmeet : ∀ r < 2 ^ k, (BitVec.ofNat 32 r : U32) = BitVec.ofNat 32 w → r = w := by
    intro r hr heq
    have hnat := congrArg BitVec.toNat heq
    rw [BitVec.toNat_ofNat, BitVec.toNat_ofNat, Nat.mod_eq_of_lt (by omega),
      Nat.mod_eq_of_lt (by omega)] at hnat
    exact hnat
  induction n with
  | zero =>
      intro r c hr hgap
      rw [Nat.le_zero.mp hgap]
      refine ⟨[], c, rfl, ?_⟩
      rw [ringFetch, List.length_nil, Nat.add_zero, Nat.mod_eq_of_lt hr]
  | succ n ih =>
      intro r c hr hgap
      by_cases heq : r = w
      · rw [heq, ringGap_self]
        refine ⟨[], c, rfl, ?_⟩
        rw [ringFetch, if_pos rfl, List.length_nil, Nat.add_zero, Nat.mod_eq_of_lt hw]
      -- the induction is on the bound of the loop, the gap shrinking with every word
      · have hstep := ringGap_step hr hw heq
        have hnext := Nat.mod_lt (r + 1) (Nat.two_pow_pos k)
        rw [hstep, ringSlots_succ, List.map_cons, Nat.mod_eq_of_lt hr, gartWords, ringFetch,
          if_neg fun h => heq (hmeet r hr h)]
        dsimp only
        cases hread : (C.gartRead c (ringPlace base (BitVec.ofNat 32 r))).1 with
        | none =>
            refine ⟨[], _, rfl, ?_⟩
            rw [List.length_nil, Nat.add_zero, Nat.mod_eq_of_lt hr]
        | some word =>
            obtain ⟨words, c', hwords, hfetch⟩ := ih ((r + 1) % 2 ^ k)
              (C.gartRead c (ringPlace base (BitVec.ofNat 32 r))).2 hnext (by omega)
            refine ⟨word :: words, c', ?_, ?_⟩
            · dsimp only
              rw [hwords]
            · dsimp only
              rw [ofNat_wrap hsize hr, hfetch, List.length_cons]
              rw [Nat.mod_add_mod, Nat.add_assoc, Nat.add_comm 1]

end ring

/-- The size of the ring is a power of two of at most 2^21 words. -/
theorem toNat_ringSize {c : σ} (harmed : RingArmed (C := C) c) :
    ∃ k ≤ 21, (ringSize C c).toNat = 2 ^ k := by
  obtain ⟨-, -, hle⟩ := harmed
  have hlog : (C.peek c 0x0704#32 &&& 0x3F#32).toNat ≤ 20 := hle
  refine ⟨(C.peek c 0x0704#32 &&& 0x3F#32).toNat + 1, by omega, ?_⟩
  have hpow : 2 ^ ((C.peek c 0x0704#32 &&& 0x3F#32).toNat + 1) ≤ 2 ^ 21 :=
    Nat.pow_le_pow_right (by decide) (by omega)
  rw [ringSize, BitVec.shiftLeft_eq', BitVec.toNat_shiftLeft, Nat.shiftLeft_eq,
    show (2#32).toNat * 2 ^ (C.peek c 0x0704#32 &&& 0x3F#32).toNat
      = 2 ^ ((C.peek c 0x0704#32 &&& 0x3F#32).toNat + 1) from (Nat.pow_succ').symm,
    Nat.mod_eq_of_lt (by omega)]

/-- What a kick of the ring comes to. -/
structure Kicked (C : CceCard σ) (s : CceStage σ) (size r w : ℕ) (words : List U32) (c' : σ) :
    Prop where
  /-- The words are those between the pointers in the order of the ring, up to a miss. -/
  fetched : gartWords C ((ringSlots size r (ringGap size r w)).map
    (ringPlace (C.peek s.cell 0x0700#32))) s.cell = (words, c')
  /-- They are executed as an entry of their own, behind the pointer moved by their number. -/
  fed : r128CceRingKick C s = writeBack C (BitVec.ofNat 32 ((r + words.length) % size))
    (feed C { s with cell := C.setReg c' 0x0710#32 (BitVec.ofNat 32 ((r + words.length) % size)) }
      words)
  /-- Without a miss the pointers meet. -/
  met : words.length = ringGap size r w → (r + words.length) % size = w

/-- A kick of a ring that is armed and not empty. -/
theorem ringKick (C : CceCard σ) (s : CceStage σ) (harmed : RingArmed (C := C) s.cell)
    (hwork : (C.peek s.cell 0x0710#32).toNat % (ringSize C s.cell).toNat
      ≠ (C.peek s.cell 0x0714#32).toNat % (ringSize C s.cell).toNat) :
    ∃ words c', Kicked C s (ringSize C s.cell).toNat
      ((C.peek s.cell 0x0710#32).toNat % (ringSize C s.cell).toNat)
      ((C.peek s.cell 0x0714#32).toNat % (ringSize C s.cell).toNat) words c' := by
  obtain ⟨k, -, hsize⟩ := toNat_ringSize harmed
  have hpointer : ∀ x : U32, x &&& (ringSize C s.cell - 1#32)
      = BitVec.ofNat 32 (x.toNat % 2 ^ k) := by
    intro x
    rw [← toNat_wrap hsize, BitVec.ofNat_toNat, BitVec.setWidth_eq]
  have hr := Nat.mod_lt (C.peek s.cell 0x0710#32).toNat (Nat.two_pow_pos k)
  have hw := Nat.mod_lt (C.peek s.cell 0x0714#32).toNat (Nat.two_pow_pos k)
  rw [hsize] at hwork ⊢
  have hgap : ringGap (2 ^ k) ((C.peek s.cell 0x0710#32).toNat % 2 ^ k)
      ((C.peek s.cell 0x0714#32).toNat % 2 ^ k) ≤ (ringSize C s.cell).toNat := by
    rw [hsize]
    exact (Nat.mod_lt _ (Nat.two_pow_pos k)).le
  obtain ⟨words, c', hwords, hfetch⟩ := ringFetch_eq hsize (C.peek s.cell 0x0700#32) hw
    (ringSize C s.cell).toNat _ s.cell hr hgap
  have hapart : ¬ C.peek s.cell 0x0710#32 &&& (ringSize C s.cell - 1#32)
      = C.peek s.cell 0x0714#32 &&& (ringSize C s.cell - 1#32) := fun heq =>
    hwork (by rw [← toNat_wrap hsize, ← toNat_wrap hsize, heq])
  refine ⟨words, c', hwords, ?_, fun hall => by rw [hall, ringGap_cross hr hw]⟩
  rw [r128CceRingKick, if_neg (not_not.mpr harmed)]
  dsimp only
  rw [if_neg hapart, hpointer, hpointer, hfetch]

/-- Three words of filler. -/
theorem ringKick_filler : ∃ words c', Kicked recorder fresh 4 0 3 words c' :=
  ringKick recorder fresh (by decide) (by decide)

end CceStage

end OpenPowerMac
