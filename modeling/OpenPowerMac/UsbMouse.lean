/-
The USB mouse over whole runs: what the guest is told of what the user did.

Movement is summed until it is reported and goes out a signed byte at a time. Of the buttons only
the state they are in is kept, beside the state last reported.
-/
import OpenPowerMac.Ohci
import Mathlib.Algebra.BigOperators.Group.List.Basic
import Mathlib.Data.Fin.VecNotation
import Mathlib.Tactic.FinCases
import Mathlib.Tactic.Ring

set_option autoImplicit false

namespace OpenPowerMac

namespace OhciCell

/-! ## One poll -/

/-- A report: the buttons, the two axes and the wheel. -/
abbrev Report := Fin 4 → U8

/-- The mouse of two cells is the same one. -/
structure SameMouse (c c' : OhciCell) : Prop where
  hid : c'.hid = c.hid
  accDx : c'.accDx = c.accDx
  accDy : c'.accDy = c.accDy
  buttons : c'.buttons = c.buttons
  sentButtons : c'.sentButtons = c.sentButtons

theorem SameMouse.rfl {c : OhciCell} : SameMouse c c :=
  ⟨Eq.refl _, Eq.refl _, Eq.refl _, Eq.refl _, Eq.refl _⟩

theorem SameMouse.trans {c c' c'' : OhciCell} (h : SameMouse c c') (h' : SameMouse c' c'') :
    SameMouse c c'' :=
  ⟨h'.hid.trans h.hid, h'.accDx.trans h.accDx, h'.accDy.trans h.accDy,
    h'.buttons.trans h.buttons, h'.sentButtons.trans h.sentButtons⟩

theorem look_same (c : OhciCell) (pa : U32) : SameMouse c (c.look pa) := by
  unfold look
  split <;> exact ⟨rfl, rfl, rfl, rfl, rfl⟩

theorem stLe_same (c : OhciCell) (pa v : U32) : SameMouse c (c.stLe pa v) := by
  unfold stLe
  split <;> exact ⟨rfl, rfl, rfl, rfl, rfl⟩

theorem readDesc_same (c : OhciCell) (pa : U32) : SameMouse c (c.readDesc pa) :=
  ((((show SameMouse c (c.meet pa) from ⟨rfl, rfl, rfl, rfl, rfl⟩).trans (look_same _ _)).trans
    (look_same _ _)).trans (look_same _ _)).trans (look_same _ _)

theorem retire_same (c : OhciCell) (td cc : U32) : SameMouse c (c.retire td cc) :=
  (((look_same c td).trans (stLe_same _ _ _)).trans (stLe_same _ _ _)).trans
    ⟨rfl, rfl, rfl, rfl, rfl⟩

theorem putBytes_same (bs : List U8) :
    ∀ (c : OhciCell) (pa : U32), SameMouse c (c.putBytes pa bs) := by
  induction bs with
  | nil => exact fun c _ => SameMouse.rfl
  | cons b bs ih =>
    intro c pa
    rw [putBytes]
    split
    · have hput : SameMouse c { c.touch pa 1 with ram := Function.update c.ram pa b } :=
        ⟨rfl, rfl, rfl, rfl, rfl⟩
      exact hput.trans (ih _ _)
    · exact SameMouse.rfl

/-- A report of four bytes that is wholly inside RAM is in memory as it was sent. -/
theorem putBytes_report (c : OhciCell) {pa : U32} (rep : Report)
    (hin : pa.toNat + 4 ≤ c.ramSize.toNat) (k : Fin 4) :
    (c.putBytes pa [rep 0, rep 1, rep 2, rep 3]).ram (pa + BitVec.ofNat 32 k) = rep k := by
  have hlt := c.ramSize.isLt
  have h0 : pa < c.ramSize := by rw [BitVec.lt_def]; omega
  have h1 : pa + 1#32 < c.ramSize := by
    rw [BitVec.lt_def, BitVec.toNat_add, BitVec.toNat_ofNat]
    omega
  have h2 : pa + 1#32 + 1#32 < c.ramSize := by
    rw [BitVec.lt_def, BitVec.toNat_add, BitVec.toNat_add, BitVec.toNat_ofNat]; omega
  have h3 : pa + 1#32 + 1#32 + 1#32 < c.ramSize := by
    rw [BitVec.lt_def, BitVec.toNat_add, BitVec.toNat_add, BitVec.toNat_add, BitVec.toNat_ofNat]
    omega
  have hram : (c.putBytes pa [rep 0, rep 1, rep 2, rep 3]).ram
      = Function.update (Function.update (Function.update (Function.update c.ram pa (rep 0))
          (pa + 1#32) (rep 1)) (pa + 1#32 + 1#32) (rep 2)) (pa + 1#32 + 1#32 + 1#32) (rep 3) := by
    simp only [putBytes, touch, h0, h1, h2, h3, if_true]
  rw [hram]
  fin_cases k <;> simp [BitVec.add_assoc]

/-- A descriptor of an interrupt endpoint that asks the mouse for a report: an IN with room for
one, inside RAM. -/
structure Polls (c : OhciCell) (ed0 td : U32) : Prop where
  mouse : c.hid = .mouse
  dir : (c.word td >>> 19) &&& 3#32 = 2#32
  endpoint : (ed0 >>> 7) &&& 0xF#32 ≠ 0#32
  start : c.word (td + 4#32) ≠ 0#32
  room : (c.word (td + 4#32)).toNat + 3 ≤ (c.word (td + 12#32)).toNat
  inside : (c.word (td + 4#32)).toNat + 4 ≤ c.ramSize.toNat

/-- Nothing has moved and no button changed since the last report. -/
def mouseIdle (c : OhciCell) : Prop :=
  c.accDx = 0 ∧ c.accDy = 0 ∧ c.buttons = c.sentButtons

instance (c : OhciCell) : Decidable c.mouseIdle := inferInstanceAs (Decidable (_ ∧ _))

/-- What a poll hands to the guest: the four bytes of its buffer as the transfer leaves them. A
NAK hands over nothing. -/
def reportOf (c : OhciCell) (ed0 td : U32) : Option Report :=
  let cbp := c.word (td + 4#32)
  let be := c.word (td + 12#32)
  let avail := if cbp ≠ 0#32 ∧ be ≥ cbp then be - cbp + 1#32 else 0#32
  ((c.readDesc td).transfer ((c.word td >>> 19) &&& 3#32) ((ed0 >>> 7) &&& 0xF#32) cbp avail).map
    fun p k => p.2.ram (cbp + BitVec.ofNat 32 k)

/-- The mouse after a report. -/
def reported (c : OhciCell) : OhciCell :=
  { c with
    accDx := c.accDx - axisStep c.accDx
    accDy := c.accDy - axisStep c.accDy
    sentButtons := c.buttons }

/-- The report that is due. -/
def dueReport (c : OhciCell) : Report :=
  ![c.buttons, BitVec.ofInt 8 (axisStep c.accDx), BitVec.ofInt 8 (axisStep c.accDy), 0#8]

theorem look_ramSize (c : OhciCell) (pa : U32) : (c.look pa).ramSize = c.ramSize := by
  unfold look
  split <;> rfl

theorem readDesc_ramSize (c : OhciCell) (pa : U32) : (c.readDesc pa).ramSize = c.ramSize := by
  rw [readDesc, look_ramSize, look_ramSize, look_ramSize, look_ramSize]
  rfl

/-- A poll of an idle mouse is a NAK and leaves the mouse alone. -/
theorem poll_idle {c : OhciCell} {ed0 td : U32} (h : c.Polls ed0 td) (hidle : c.mouseIdle) :
    c.reportOf ed0 td = none ∧ SameMouse c (c.doTd ed0 td).2 := by
  have hsame := readDesc_same c td
  have hnak : ∀ cbp avail : U32, (c.readDesc td).transfer ((c.word td >>> 19) &&& 3#32)
      ((ed0 >>> 7) &&& 0xF#32) cbp avail = none := by
    intro cbp avail
    unfold transfer
    rw [h.dir, if_neg (by decide), if_pos rfl, if_neg h.endpoint,
      if_pos (hsame.hid.trans h.mouse)]
    unfold inMouse
    rw [hsame.accDx, hsame.accDy, hsame.buttons, hsame.sentButtons]
    exact if_pos hidle
  refine ⟨?_, ?_⟩
  · unfold reportOf
    dsimp only
    rw [hnak]
    rfl
  · unfold doTd
    dsimp only
    rw [hnak]
    exact hsame

/-- The transfer of a report that is due. -/
theorem transfer_due {c : OhciCell} (epn cbp : U32) {avail : U32} (hmouse : c.hid = .mouse)
    (hidle : ¬ c.mouseIdle) (hepn : epn ≠ 0#32) (havail : 4 ≤ avail.toNat) :
    c.transfer 2#32 epn cbp avail = some (4#32, c.reported.putBytes cbp
      [c.dueReport 0, c.dueReport 1, c.dueReport 2, c.dueReport 3]) := by
  have hmoved : movedOf avail c.hid.reportLen = 4#32 := by
    rw [hmouse]
    exact if_neg (show ¬ avail.toNat < 4 by omega)
  unfold transfer
  rw [if_neg (by decide), if_pos rfl, if_neg hepn, if_pos hmouse]
  rw [inMouse, if_neg (show ¬ (c.accDx = 0 ∧ c.accDy = 0 ∧ c.buttons = c.sentButtons) from hidle)]
  dsimp only
  rw [hmoved]
  rfl

theorem SameMouse.due {c c' : OhciCell} (h : SameMouse c c') : c'.dueReport = c.dueReport := by
  rw [dueReport, dueReport, h.buttons, h.accDx, h.accDy]

theorem SameMouse.idle {c c' : OhciCell} (h : SameMouse c c') : c'.mouseIdle ↔ c.mouseIdle := by
  rw [mouseIdle, mouseIdle, h.buttons, h.accDx, h.accDy, h.sentButtons]

theorem SameMouse.reported {c c' : OhciCell} (h : SameMouse c c') :
    SameMouse c.reported c'.reported where
  hid := h.hid
  accDx := by rw [OhciCell.reported, OhciCell.reported, h.accDx]
  accDy := by rw [OhciCell.reported, OhciCell.reported, h.accDy]
  buttons := h.buttons
  sentButtons := h.buttons

/-- A poll of a mouse that is not hands over the report that is due. -/
theorem poll_due {c : OhciCell} {ed0 td : U32} (h : c.Polls ed0 td) (hidle : ¬ c.mouseIdle) :
    c.reportOf ed0 td = some c.dueReport ∧ SameMouse c.reported (c.doTd ed0 td).2 := by
  have hsame := readDesc_same c td
  have hstart := h.start
  have hroom := h.room
  have hin := h.inside
  obtain ⟨cbp, hcbp⟩ : ∃ cbp, cbp = c.word (td + 4#32) := ⟨_, rfl⟩
  obtain ⟨be, hbe⟩ : ∃ be, be = c.word (td + 12#32) := ⟨_, rfl⟩
  rw [← hcbp] at hstart hroom hin
  rw [← hbe] at hroom
  have havail : 4 ≤ (if cbp ≠ 0#32 ∧ be ≥ cbp then be - cbp + 1#32 else 0#32).toNat := by
    have hle : cbp ≤ be := BitVec.le_def.mpr (by omega)
    have hpos : 0 < cbp.toNat := Nat.pos_of_ne_zero fun h0 => hstart (BitVec.eq_of_toNat_eq h0)
    have hlt := be.isLt
    rw [if_pos ⟨hstart, hle⟩, BitVec.toNat_add, BitVec.toNat_sub_of_le hle]
    change 4 ≤ (be.toNat - cbp.toNat + 1) % 2 ^ 32
    rw [Nat.mod_eq_of_lt (by omega)]
    omega
  have htransfer := transfer_due ((ed0 >>> 7) &&& 0xF#32) cbp
    (hsame.hid.trans h.mouse) (fun hi => hidle (hsame.idle.mp hi)) h.endpoint havail
  have hmem : ∀ k : Fin 4, ((c.readDesc td).reported.putBytes cbp
      [(c.readDesc td).dueReport 0, (c.readDesc td).dueReport 1, (c.readDesc td).dueReport 2,
        (c.readDesc td).dueReport 3]).ram (cbp + BitVec.ofNat 32 k) = (c.readDesc td).dueReport k :=
    putBytes_report _ _ (by
      show cbp.toNat + 4 ≤ (c.readDesc td).ramSize.toNat
      rw [readDesc_ramSize]
      exact hin)
  constructor
  · unfold reportOf
    dsimp only
    rw [h.dir, ← hcbp, ← hbe, htransfer, Option.map_some, ← hsame.due]
    exact congrArg some (funext hmem)
  · unfold doTd
    dsimp only
    rw [h.dir, ← hcbp, ← hbe, htransfer]
    dsimp only
    exact ((hsame.reported.trans (putBytes_same _ _ _)).trans (stLe_same _ _ _)).trans
      (retire_same _ _ _)

/-! ## The run -/

/-- What the user did: a movement, and the buttons that are down. -/
structure Motion where
  dx : ℤ
  dy : ℤ
  buttons : U8

/-- The buttons a motion sets. -/
def Motion.down (m : Motion) : U8 := m.buttons &&& 0x07#8

/-- The cell after a motion. -/
def moved (c : OhciCell) (m : Motion) : OhciCell := c.apply (.moveMouse m.dx m.dy m.buttons)

/-- Runs from a cell: the motions, the reports handed over, and the cell they leave. Between
motions and polls anything may happen that is not the mouse's. A motion is made where `ok` lets
it. -/
inductive Run (ok : OhciCell → Motion → Prop) (c₀ : OhciCell) :
    List Motion → List Report → OhciCell → Prop
  | start : Run ok c₀ [] [] c₀
  | other {M : List Motion} {P : List Report} {c c' : OhciCell} :
      Run ok c₀ M P c → SameMouse c c' → Run ok c₀ M P c'
  | motion {M : List Motion} {P : List Report} {c : OhciCell} (m : Motion) :
      Run ok c₀ M P c → ok c m → Run ok c₀ (M ++ [m]) P (c.moved m)
  | poll {M : List Motion} {P : List Report} {c : OhciCell} {ed0 td : U32} :
      Run ok c₀ M P c → c.Polls ed0 td →
        Run ok c₀ M (P ++ (c.reportOf ed0 td).toList) (c.doTd ed0 td).2

/-- The values of a list that differ from the one before them, the first of them from `b`. -/
def changes (b : U8) : List U8 → List U8
  | [] => []
  | x :: xs => if x = b then changes x xs else x :: changes x xs

/-- The last value of a list, or `b`. -/
def lastOf (b : U8) : List U8 → U8
  | [] => b
  | x :: xs => lastOf x xs

theorem lastOf_concat (x : U8) (l : List U8) : ∀ b : U8, lastOf b (l ++ [x]) = x := by
  induction l with
  | nil => exact fun _ => rfl
  | cons y l ih => exact fun _ => ih y

/-- One value more is one change more, unless it is the last one again. -/
theorem changes_concat (x : U8) (l : List U8) :
    ∀ b : U8, changes b (l ++ [x]) = changes b l ++ if x = lastOf b l then [] else [x] := by
  induction l with
  | nil =>
    intro b
    rw [List.nil_append, changes, changes, changes, List.nil_append, lastOf]
  | cons y l ih =>
    intro b
    rw [List.cons_append, changes, changes, lastOf, ih]
    split_ifs <;> rfl

/-- The button states the user made, and those the guest was told of. -/
def made (M : List Motion) : List U8 := M.map Motion.down
def told (P : List Report) : List U8 := P.map fun r => r 0

/-- The change that is still to be reported. -/
def pendingChange (c : OhciCell) : List U8 := if c.buttons = c.sentButtons then [] else [c.buttons]

/-- Nothing is lost: each axis is conserved, no byte is out of range, the mouse is silent only when
there is nothing to say, and every change of the buttons is reported, in order, but for the one that
waits. -/
structure Lossless (c₀ : OhciCell) (M : List Motion) (P : List Report) (c : OhciCell) : Prop where
  x : (P.map fun r => (r 1).toInt).sum + c.accDx = c₀.accDx + (M.map Motion.dx).sum
  y : (P.map fun r => (r 2).toInt).sum + c.accDy = c₀.accDy + (M.map Motion.dy).sum
  range : ∀ r ∈ P, ∀ k : Fin 4, k = 1 ∨ k = 2 → -127 ≤ (r k).toInt ∧ (r k).toInt ≤ 127
  nak : ∀ ed0 td, c.Polls ed0 td → c.reportOf ed0 td = none → c.mouseIdle
  clicks : (changes c₀.buttons (made M)).Sublist (changes c₀.buttons (told P) ++ c.pendingChange)

/-- A motion changes the buttons only when the last change has been reported. -/
def Settled (c : OhciCell) (m : Motion) : Prop := m.down = c.buttons ∨ c.buttons = c.sentButtons

instance (c : OhciCell) (m : Motion) : Decidable (Settled c m) :=
  inferInstanceAs (Decidable (_ ∨ _))

/-! ## What every run keeps -/

/-- What stands in a run whose motions are `Settled`: the changes told and the one that waits are
the changes made. -/
structure Told (c₀ : OhciCell) (M : List Motion) (P : List Report) (c : OhciCell) : Prop where
  x : (P.map fun r => (r 1).toInt).sum + c.accDx = c₀.accDx + (M.map Motion.dx).sum
  y : (P.map fun r => (r 2).toInt).sum + c.accDy = c₀.accDy + (M.map Motion.dy).sum
  range : ∀ r ∈ P, ∀ k : Fin 4, k = 1 ∨ k = 2 → -127 ≤ (r k).toInt ∧ (r k).toInt ≤ 127
  clicks : changes c₀.buttons (made M) = changes c₀.buttons (told P) ++ c.pendingChange
  lastMade : lastOf c₀.buttons (made M) = c.buttons
  lastTold : lastOf c₀.buttons (told P) = c.sentButtons

variable {c₀ c : OhciCell} {M : List Motion} {P : List Report}

theorem axisStep_range (acc : ℤ) : -127 ≤ axisStep acc ∧ axisStep acc ≤ 127 := by
  unfold axisStep
  split_ifs <;> omega

/-- A step of an axis fits its byte. -/
theorem axisByte_toInt (acc : ℤ) : (BitVec.ofInt 8 (axisStep acc)).toInt = axisStep acc := by
  have h := axisStep_range acc
  rw [BitVec.toInt_ofInt, Int.bmod_def]
  split_ifs <;> omega

theorem axisByte_range (acc : ℤ) : -127 ≤ (BitVec.ofInt 8 (axisStep acc)).toInt
    ∧ (BitVec.ofInt 8 (axisStep acc)).toInt ≤ 127 := by
  rw [axisByte_toInt]
  exact axisStep_range acc

theorem told_start (h : c₀.buttons = c₀.sentButtons) : Told c₀ [] [] c₀ where
  x := by simp
  y := by simp
  range := nofun
  clicks := (if_pos h).symm
  lastMade := rfl
  lastTold := h

theorem Told.congr {c' : OhciCell} (h : Told c₀ M P c) (hsame : SameMouse c c') :
    Told c₀ M P c' where
  x := by rw [hsame.accDx]; exact h.x
  y := by rw [hsame.accDy]; exact h.y
  range := h.range
  clicks := by
    rw [pendingChange, hsame.buttons, hsame.sentButtons]
    exact h.clicks
  lastMade := h.lastMade.trans hsame.buttons.symm
  lastTold := h.lastTold.trans hsame.sentButtons.symm

theorem made_concat (M : List Motion) (m : Motion) : made (M ++ [m]) = made M ++ [m.down] :=
  List.map_append

theorem told_concat (P : List Report) (r : Report) : told (P ++ [r]) = told P ++ [r 0] :=
  List.map_append

/-- The changes made by one motion more. -/
theorem Told.made_changes (h : Told c₀ M P c) (m : Motion) :
    changes c₀.buttons (made (M ++ [m])) = changes c₀.buttons (told P)
      ++ (c.pendingChange ++ if m.down = c.buttons then [] else [m.down]) := by
  rw [made_concat, changes_concat, h.lastMade, h.clicks, List.append_assoc]

theorem told_motion (h : Told c₀ M P c) {m : Motion} (hm : Settled c m) :
    Told c₀ (M ++ [m]) P (c.moved m) where
  x := by
    rw [List.map_append, List.sum_append, ← add_assoc, ← h.x]
    show _ + (c.accDx + m.dx) = _ + [m.dx].sum
    rw [List.sum_singleton, add_assoc]
  y := by
    rw [List.map_append, List.sum_append, ← add_assoc, ← h.y]
    show _ + (c.accDy + m.dy) = _ + [m.dy].sum
    rw [List.sum_singleton, add_assoc]
  range := h.range
  clicks := by
    rw [h.made_changes]
    congr 1
    show _ = if m.down = c.sentButtons then [] else [m.down]
    rcases hm with hsame | hsent
    · rw [if_pos hsame, List.append_nil, hsame]
      rfl
    · rw [pendingChange, if_pos hsent, List.nil_append, hsent]
  lastMade := by
    rw [made_concat, lastOf_concat]
    rfl
  lastTold := h.lastTold

theorem told_report (h : Told c₀ M P c) : Told c₀ M (P ++ [c.dueReport]) c.reported where
  x := by
    rw [← h.x, List.map_append, List.sum_append]
    show _ + [(BitVec.ofInt 8 (axisStep c.accDx)).toInt].sum + (c.accDx - axisStep c.accDx) = _
    rw [List.sum_singleton, axisByte_toInt]
    ring
  y := by
    rw [← h.y, List.map_append, List.sum_append]
    show _ + [(BitVec.ofInt 8 (axisStep c.accDy)).toInt].sum + (c.accDy - axisStep c.accDy) = _
    rw [List.sum_singleton, axisByte_toInt]
    ring
  range := by
    intro r hr k hk
    rcases List.mem_append.mp hr with hr | hr
    · exact h.range r hr k hk
    · obtain rfl := List.mem_singleton.mp hr
      rcases hk with rfl | rfl
      · exact axisByte_range c.accDx
      · exact axisByte_range c.accDy
  clicks := by
    -- the change that waited is told
    have hwaits : changes c₀.buttons (told P) ++ c.pendingChange
        = changes c₀.buttons (told (P ++ [c.dueReport])) := by
      rw [told_concat, changes_concat, h.lastTold]
      rfl
    rw [h.clicks, hwaits]
    exact (List.append_nil _).symm.trans (congrArg _ (if_pos rfl).symm)
  lastMade := h.lastMade
  lastTold := by
    rw [told_concat, lastOf_concat]
    rfl

theorem told_poll (h : Told c₀ M P c) {ed0 td : U32} (hpoll : c.Polls ed0 td) :
    Told c₀ M (P ++ (c.reportOf ed0 td).toList) (c.doTd ed0 td).2 := by
  by_cases hidle : c.mouseIdle
  · obtain ⟨hnak, hsame⟩ := poll_idle hpoll hidle
    rw [hnak]
    simpa using h.congr hsame
  · obtain ⟨hrep, hsame⟩ := poll_due hpoll hidle
    rw [hrep]
    exact (told_report h).congr hsame

theorem told_of_run (hstart : c₀.buttons = c₀.sentButtons) (h : Run Settled c₀ M P c) :
    Told c₀ M P c := by
  induction h with
  | start => exact told_start hstart
  | other _ hsame ih => exact ih.congr hsame
  | motion m _ hm ih => exact told_motion ih hm
  | poll _ hpoll ih => exact told_poll ih hpoll

theorem Told.lossless (h : Told c₀ M P c) : Lossless c₀ M P c where
  x := h.x
  y := h.y
  range := h.range
  nak ed0 td hpoll hnak := by
    by_contra hidle
    rw [(poll_due hpoll hidle).1] at hnak
    cases hnak
  clicks := h.clicks ▸ List.Sublist.refl _

/-- A change made while another waits takes its place. -/
theorem Told.settled_of_lossless (h : Told c₀ M P c) {m : Motion}
    (hl : Lossless c₀ (M ++ [m]) P (c.moved m)) : Settled c m := by
  by_contra hm
  obtain ⟨hchange, hwaits⟩ := not_or.mp hm
  have hlen := hl.clicks.length_le
  have hone : (c.moved m).pendingChange.length ≤ 1 := by
    rw [pendingChange]
    split <;> simp
  rw [h.made_changes, if_neg hchange, pendingChange, if_neg hwaits] at hlen
  simp only [List.length_append, List.length_singleton] at hlen
  omega

/-- **The mouse loses nothing** while the buttons change only after the last change has been
reported; the first motion that changes them sooner loses a click. -/
theorem mouse_lossless (c₀ c : OhciCell) (M : List Motion) (P : List Report)
    (hstart : c₀.buttons = c₀.sentButtons) (h : Run Settled c₀ M P c) :
    Lossless c₀ M P c ∧ ∀ m, Lossless c₀ (M ++ [m]) P (c.moved m) ↔ Settled c m :=
  have htold := told_of_run hstart h
  ⟨htold.lossless, fun _ => ⟨htold.settled_of_lossless, fun hm => (told_motion htold hm).lossless⟩⟩

/-- A mouse that has just been plugged in. Between 0x40 and 0x80 the guest has descriptors that ask
for a report at 0x80. -/
def freshMouse : OhciCell :=
  powerOn true (fun a => if a < 0x40#32 ∨ 0x80#32 ≤ a then 0#8 else
    match (a &&& 0xF#32).toNat with
    | 2 => 0x10#8
    | 4 => 0x80#8
    | 12 => 0x83#8
    | _ => 0#8) 0x100#32 .mouse

/-- A movement with a button pressed, three polls, the release with a movement back, a poll. -/
theorem mouse_lossless_click : ∃ c P, Lossless freshMouse [⟨300, -2, 1#8⟩, ⟨-7, 0, 0#8⟩] P c
    ∧ P.map List.ofFn = [[1#8, 127#8, 254#8, 0#8], [1#8, 127#8, 0#8, 0#8], [1#8, 46#8, 0#8, 0#8],
      [0#8, 249#8, 0#8, 0#8]] := by
  have hpress : Run Settled freshMouse [⟨300, -2, 1#8⟩] [] (freshMouse.moved ⟨300, -2, 1#8⟩) :=
    .motion ⟨300, -2, 1#8⟩ .start (.inr rfl)
  have h40 := hpress.poll (show Polls _ 0x80#32 0x40#32 from
    ⟨by decide, by decide, by decide, by decide, by decide, by decide⟩)
  have h50 := h40.poll (show Polls _ 0x80#32 0x50#32 from
    ⟨by decide, by decide, by decide, by decide, by decide, by decide⟩)
  have h60 := h50.poll (show Polls _ 0x80#32 0x60#32 from
    ⟨by decide, by decide, by decide, by decide, by decide, by decide⟩)
  have hrelease := Run.motion ⟨-7, 0, 0#8⟩ h60 (.inr (by decide))
  have h70 := hrelease.poll (show Polls _ 0x80#32 0x70#32 from
    ⟨by decide, by decide, by decide, by decide, by decide, by decide⟩)
  exact ⟨_, _, (mouse_lossless freshMouse _ _ _ rfl h70).1, by decide⟩

/-- A click between two polls is never told: the mouse is idle when it is over. -/
theorem click_lost :
    ¬ ∀ (c₀ c : OhciCell) (M : List Motion) (P : List Report), c₀.buttons = c₀.sentButtons →
      Run (fun _ _ => True) c₀ M P c → Lossless c₀ M P c := by
  intro h
  have hrun : Run (fun _ _ => True) freshMouse [⟨0, 0, 1#8⟩, ⟨0, 0, 0#8⟩] []
      ((freshMouse.moved ⟨0, 0, 1#8⟩).moved ⟨0, 0, 0#8⟩) :=
    .motion ⟨0, 0, 0#8⟩ (.motion ⟨0, 0, 1#8⟩ .start trivial) trivial
  have hclicks := (h _ _ _ _ rfl hrun).clicks
  exact absurd hclicks (by decide)

end OhciCell

end OpenPowerMac
