/-
An L2 that nothing looks at.

Clearing L2CR[L2E] leaves the lines of the L2 where they are. They are not
looked up from then on and none is added, so an operation does to the rest of
the processor what it would do with any other array in their place (`LineBlind`).
What is true of a processor whose idle L2 is empty is then true whatever lines
were left in it.
-/
import OpenPowerMac.Frame

set_option autoImplicit false

namespace OpenPowerMac

namespace Cpu

variable {β : Type}

/-- The L2 is switched off, or modelled as inert. -/
def L2Idle (c : Cpu β) : Prop := c.l2On = false ∨ c.l2Inert = true

/-- `c` with other lines in its L2. -/
def withL2 (c : Cpu β) (x : Array L2Line) : Cpu β := { c with l2 := x }

theorem SameCore.l2Idle {c c' : Cpu β} (h : SameCore c c') (hidle : c.L2Idle) : c'.L2Idle := by
  rw [L2Idle, h.l2On, h.l2Inert]
  exact hidle

/-- With the L2 idle, its lines do not matter to the operation. -/
structure LineBlind (f : Cpu β → Cpu β) : Prop where
  core : ∀ c, SameCore c (f c)
  blind : ∀ c x, c.L2Idle → ∃ y, f (c.withL2 x) = (f c).withL2 y

/-- The same of an operation with a result. -/
structure LineBlindV {α : Type} (p : Cpu β → α × Cpu β) : Prop where
  core : ∀ c, SameCore c (p c).2
  blind : ∀ c x, c.L2Idle → ∃ y, p (c.withL2 x) = ((p c).1, (p c).2.withL2 y)

section Rules

variable {α γ : Type} {f g : Cpu β → Cpu β} {p : Cpu β → α × Cpu β}

theorem LineBlind.id : LineBlind (β := β) fun c => c := ⟨SameCore.refl, fun _ x _ => ⟨x, rfl⟩⟩

theorem LineBlind.comp (hg : LineBlind g) (hf : LineBlind f) : LineBlind fun c => g (f c) := by
  refine ⟨fun c => (hf.core c).trans (hg.core _), fun c x hidle => ?_⟩
  obtain ⟨y, hy⟩ := hf.blind c x hidle
  obtain ⟨z, hz⟩ := hg.blind (f c) y ((hf.core c).l2Idle hidle)
  exact ⟨z, by rw [hy, hz]⟩

/-- A step that is made or not, by what the operation sees. -/
theorem LineBlind.ite (b : Cpu β → Bool) (hb : ∀ c x, b (c.withL2 x) = b c) (hf : LineBlind f)
    (hg : LineBlind g) : LineBlind fun c => if b c then f c else g c := by
  refine ⟨fun c => ?_, fun c x hidle => ?_⟩
  · cases hc : b c
    · exact hg.core c
    · exact hf.core c
  · rw [hb]
    cases hc : b c
    · exact hg.blind c x hidle
    · exact hf.blind c x hidle

theorem lineBlind_foldl {δ : Type} {step : Cpu β → δ → Cpu β}
    (h : ∀ a, LineBlind fun c => step c a) (l : List δ) : LineBlind fun c => l.foldl step c := by
  induction l with
  | nil => exact LineBlind.id
  | cons a l ih => exact ih.comp (h a)

/-- A result, and what is done with it. -/
theorem LineBlindV.bind {k : α → Cpu β → Cpu β} (hp : LineBlindV p)
    (hk : ∀ a, LineBlind (k a)) : LineBlind fun c => k (p c).1 (p c).2 := by
  refine ⟨fun c => (hp.core c).trans ((hk _).core _), fun c x hidle => ?_⟩
  obtain ⟨y, hy⟩ := hp.blind c x hidle
  obtain ⟨z, hz⟩ := (hk (p c).1).blind (p c).2 y ((hp.core c).l2Idle hidle)
  exact ⟨z, by rw [hy, hz]⟩

theorem LineBlindV.bindV {q : α → Cpu β → γ × Cpu β} (hp : LineBlindV p)
    (hq : ∀ a, LineBlindV (q a)) : LineBlindV fun c => q (p c).1 (p c).2 := by
  refine ⟨fun c => (hp.core c).trans ((hq _).core _), fun c x hidle => ?_⟩
  obtain ⟨y, hy⟩ := hp.blind c x hidle
  obtain ⟨z, hz⟩ := (hq (p c).1).blind (p c).2 y ((hp.core c).l2Idle hidle)
  exact ⟨z, by rw [hy, hz]⟩

/-- An operation, and a value read off the state it leaves. -/
theorem LineBlind.value (hf : LineBlind f) (v : Cpu β → α) (hv : ∀ c x, v (c.withL2 x) = v c) :
    LineBlindV fun c => (v (f c), f c) := by
  refine ⟨hf.core, fun c x hidle => ?_⟩
  obtain ⟨y, hy⟩ := hf.blind c x hidle
  exact ⟨y, by rw [hy, hv]⟩

/-- A step that depends on what the operation sees of the rest. -/
theorem lineBlind_of {v : Cpu β → α} {k : α → Cpu β → Cpu β} (hv : ∀ c x, v (c.withL2 x) = v c)
    (hk : ∀ a, LineBlind (k a)) : LineBlind fun c => k (v c) c :=
  (LineBlind.id.value v hv).bind hk

end Rules

/-! ## The operations -/

section Operations

theorem lineBlind_fetchDropAt (pa : U32) : LineBlind (β := β) fun c => c.fetchDropAt pa := by
  refine ⟨(fetchDropAt_memOnly pa).core, fun c x _ => ⟨x, ?_⟩⟩
  unfold fetchDropAt
  simp only [apply_ite fun c : Cpu β => c.withL2 x]
  rfl

theorem lineBlind_fetchDropRange (pa : U32) (len : ℕ) :
    LineBlind (β := β) fun c => c.fetchDropRange pa len := by
  unfold fetchDropRange
  by_cases h : (pa ^^^ (pa + BitVec.ofNat 32 len - 1#32)) &&& ~~~31#32 ≠ 0#32
  · simp only [if_pos h]
    exact (lineBlind_fetchDropAt _).comp (lineBlind_fetchDropAt pa)
  · simp only [if_neg h]
    exact lineBlind_fetchDropAt pa

theorem lineBlind_setDLine (s : BitVec 7) (w : Fin 8) (e : DLine) :
    LineBlind (β := β) fun c => c.setDLine s w e := ⟨fun _ => rfl, fun _ x _ => ⟨x, rfl⟩⟩

theorem lineBlind_setTv (s : BitVec 7) (w : Fin 8) (tv : U32) :
    LineBlind (β := β) fun c => c.setTv s w tv := ⟨fun _ => rfl, fun _ x _ => ⟨x, rfl⟩⟩

theorem lineBlind_touchWay (s : BitVec 7) (w : Fin 8) :
    LineBlind (β := β) fun c => c.touchWay s w := ⟨fun _ => rfl, fun _ x _ => ⟨x, rfl⟩⟩

theorem lineBlind_setBus (f : β → β) : LineBlind fun c => c.setBus (f c.bus) :=
  ⟨fun _ => rfl, fun _ x _ => ⟨x, rfl⟩⟩

theorem lineBlindV_lineWay (pa : U32) : LineBlindV (β := β) fun c => c.lineWay pa := by
  refine ⟨(lineWay_memOnly pa).core, fun c x _ => ⟨x, ?_⟩⟩
  unfold lineWay
  rw [show (c.withL2 x).lineWayQuiet pa = c.lineWayQuiet pa from rfl]
  cases c.lineWayQuiet pa <;> rfl

/-- Nothing is found. -/
theorem l2ReadLine_idle {c : Cpu β} (hidle : c.L2Idle) (pa : U32) :
    c.l2ReadLine pa = (none, c) := by
  have hfind : c.l2Find pa = (none, c) := by
    unfold l2Find
    apply if_pos
    rcases hidle with h | h <;> simp [h]
  unfold l2ReadLine
  rw [hfind]
  rfl

theorem lineBlindV_l2ReadLine (pa : U32) : LineBlindV (β := β) fun c => c.l2ReadLine pa := by
  refine ⟨(l2ReadLine_memOnly pa).core, fun c x hidle => ⟨x, ?_⟩⟩
  show (c.withL2 x).l2ReadLine pa = ((c.l2ReadLine pa).1, (c.l2ReadLine pa).2.withL2 x)
  have hidle' : (c.withL2 x).L2Idle := hidle
  rw [l2ReadLine_idle hidle, l2ReadLine_idle hidle']

theorem l2Unset_withL2 (c : Cpu β) (tag : U32) (i : ℕ) : ∃ y, c.l2Unset tag i = c.withL2 y := by
  unfold l2Unset
  dsimp only
  split
  · exact ⟨_, rfl⟩
  · exact ⟨c.l2, rfl⟩

/-- An invalidation only empties lines. -/
theorem lineBlind_l2Invalidate (pa : U32) : LineBlind (β := β) fun c => c.l2Invalidate pa := by
  refine ⟨(l2Invalidate_memOnly pa).core, fun c x hidle => ?_⟩
  obtain ⟨x', hx'⟩ := (lineBlind_fetchDropAt pa).blind c x hidle
  have hlines : ∀ d : Cpu β, ∃ y, (if d.l2Sets = 0#32 then d
      else (d.l2Unset (pa >>> 5) (d.l2SetOf pa * 2)).l2Unset (pa >>> 5) (d.l2SetOf pa * 2 + 1))
        = d.withL2 y := by
    intro d
    split
    · exact ⟨d.l2, rfl⟩
    · obtain ⟨y, hy⟩ := l2Unset_withL2 d (pa >>> 5) (d.l2SetOf pa * 2)
      obtain ⟨z, hz⟩ := l2Unset_withL2 (d.withL2 y) (pa >>> 5) (d.l2SetOf pa * 2 + 1)
      exact ⟨z, by rw [hy, hz]; rfl⟩
  obtain ⟨y, hy⟩ := hlines (c.fetchDropAt pa)
  obtain ⟨z, hz⟩ := hlines ((c.fetchDropAt pa).withL2 x')
  refine ⟨z, ?_⟩
  unfold l2Invalidate
  dsimp only at hx' hy hz ⊢
  rw [hx', hz, hy]
  rfl

variable [Bus β]

theorem lineBlind_busWriteLine (base : U32) (l : Line) :
    LineBlind (β := β) fun c => c.busWriteLine base l :=
  (lineBlind_setBus fun b => Bus.writeLine32 b base l).comp (lineBlind_fetchDropAt base)

/-- Nothing is allocated: at most a modified block goes straight to memory. -/
theorem lineBlind_l2Install (pa : U32) (bytes : Line) (dirty : Bool) :
    LineBlind (β := β) fun c => c.l2Install pa bytes dirty := by
  refine ⟨(l2Install_memOnly pa bytes dirty).core, fun c x hidle => ?_⟩
  unfold l2Install
  cases hon : c.l2On with
  | false => exact ⟨x, by rw [show (c.withL2 x).l2On = false from hon]; rfl⟩
  | true =>
      have hinert : c.l2Inert = true := hidle.resolve_left (by rw [hon]; simp)
      rw [show (c.withL2 x).l2On = true from hon]
      cases dirty with
      | false =>
          refine ⟨x, ?_⟩
          simp only [Bool.not_true, Bool.false_eq_true, if_false, hinert, if_true]
          rw [show (c.withL2 x).l2Inert = true from hinert, if_pos rfl]
      | true =>
          obtain ⟨y, hy⟩ := ((lineBlind_busWriteLine pa bytes).comp
            (lineBlind_fetchDropAt pa)).blind c x hidle
          have hin : ∀ d : Cpu β, d.l2Inert = true → (d.fetchDropAt pa).l2Inert = true := by
            intro d hd
            rw [((lineBlind_fetchDropAt pa).core d).l2Inert, hd]
          refine ⟨y, ?_⟩
          simp only [Bool.not_true, Bool.false_eq_true, if_false, if_true, hin c hinert,
            hin (c.withL2 x) hinert]
          exact hy

theorem lineBlind_lineCastout (s : BitVec 7) (w : Fin 8) (tag : U32) :
    LineBlind (β := β) fun c => c.lineCastout s w tag := by
  refine lineBlind_of (v := fun c => c.l1d s w)
    (k := fun e c => (if c.l2On then c.l2Install ((tag <<< 12) ||| (s.setWidth 32 <<< 5)) e.b true
      else c.busWriteLine ((tag <<< 12) ||| (s.setWidth 32 <<< 5)) e.b).setDLine s w
        { b := e.b, d := false }) (fun _ _ => rfl) fun e => ?_
  exact (lineBlind_setDLine s w _).comp
    (LineBlind.ite l2On (fun _ _ => rfl) (lineBlind_l2Install _ _ true)
      (lineBlind_busWriteLine _ _))

theorem lineBlind_linePush (s : BitVec 7) (w : Fin 8) (tag : U32) :
    LineBlind (β := β) fun c => c.linePush s w tag := by
  refine lineBlind_of (v := fun c => c.l1d s w)
    (k := fun e c => (if c.l2On && c.st.l2cr &&& 0x00040000#32 != 0#32
      then c.l2Install ((tag <<< 12) ||| (s.setWidth 32 <<< 5)) e.b true
      else (c.busWriteLine ((tag <<< 12) ||| (s.setWidth 32 <<< 5)) e.b).l2Invalidate
        ((tag <<< 12) ||| (s.setWidth 32 <<< 5))).setDLine s w { b := e.b, d := false })
    (fun _ _ => rfl) fun e => ?_
  exact (lineBlind_setDLine s w _).comp
    (LineBlind.ite (fun c => c.l2On && c.st.l2cr &&& 0x00040000#32 != 0#32) (fun _ _ => rfl)
      (lineBlind_l2Install _ _ true)
      ((lineBlind_l2Invalidate _).comp (lineBlind_busWriteLine _ _)))

/-- The rest of a fill, once the L2 has been asked. -/
def fillWith (s : BitVec 7) (w : Fin 8) (pa : U32) (hit : Option Line) (c : Cpu β) : Cpu β :=
  let (b, c) : Line × Cpu β :=
    match hit with
    | some b => (b, c)
    | none =>
        let (b, bus) := Bus.readLine32 c.bus (blockBase pa)
        let c := c.setBus bus
        (b, if c.l2On then c.l2Install (blockBase pa) b false else c)
  (c.setTv s w (tvOf pa)).setDLine s w { b := b, d := false }

theorem lineBlind_lineFill (s : BitVec 7) (w : Fin 8) (pa : U32) :
    LineBlind (β := β) fun c => c.lineFill s w pa := by
  have hput : ∀ b, LineBlind (β := β) fun c =>
      (c.setTv s w (tvOf pa)).setDLine s w { b := b, d := false } :=
    fun b => (lineBlind_setDLine s w _).comp (lineBlind_setTv s w _)
  refine (lineBlindV_l2ReadLine (β := β) (blockBase pa)).bind (k := fillWith s w pa) fun hit => ?_
  cases hit with
  | some b => exact hput b
  | none =>
      refine lineBlind_of (v := fun c => (Bus.readLine32 c.bus (blockBase pa)).1)
        (k := fun b c =>
          let c := c.setBus (Bus.readLine32 c.bus (blockBase pa)).2
          let c := if c.l2On then c.l2Install (blockBase pa) b false else c
          (c.setTv s w (tvOf pa)).setDLine s w { b := b, d := false })
        (fun _ _ => rfl) fun b => ?_
      exact (hput b).comp ((LineBlind.ite l2On (fun _ _ => rfl) (lineBlind_l2Install _ b false)
        LineBlind.id).comp (lineBlind_setBus fun bus => (Bus.readLine32 bus (blockBase pa)).2))

/-- The choice of a way, from the set as it was found. -/
def victimFrom (pa : U32) (x : DIdx × (Fin 8 → DLine)) (c : Cpu β) : Fin 8 × Cpu β :=
  match invalidWay x.1 with
  | some w => (w, c)
  | none =>
      let best := oldestWay x.1
      let c := if (x.2 best).d then c.lineCastout (setOf pa) best (x.1.tv best >>> 1) else c
      (best, c.setTv (setOf pa) best 0#32)

theorem lineBlindV_lineVictim (pa : U32) : LineBlindV (β := β) fun c => c.lineVictim pa := by
  refine (LineBlind.id.value (fun c : Cpu β => (c.l1x (setOf pa), c.l1d (setOf pa)))
    fun _ _ => rfl).bindV (q := victimFrom pa) fun x => ?_
  unfold victimFrom
  cases invalidWay x.1 with
  | some w => exact LineBlind.id.value (fun _ => w) fun _ _ => rfl
  | none =>
      exact ((lineBlind_setTv _ _ _).comp (LineBlind.ite (fun _ => (x.2 (oldestWay x.1)).d)
        (fun _ _ => rfl) (lineBlind_lineCastout _ _ _) LineBlind.id)).value
          (fun _ => oldestWay x.1) fun _ _ => rfl

theorem lineBlindV_lineAlloc (pa : U32) (way : Option (Fin 8)) :
    LineBlindV (β := β) fun c => c.lineAlloc pa way := by
  cases way with
  | some w => exact LineBlind.id.value (fun _ => w) fun _ _ => rfl
  | none =>
      exact (lineBlindV_lineVictim pa).bindV
        (q := fun w (c : Cpu β) => (w, (c.lineFill (setOf pa) w pa).touchWay (setOf pa) w))
        fun w => ((lineBlind_touchWay _ w).comp (lineBlind_lineFill _ w pa)).value (fun _ => w)
          fun _ _ => rfl

theorem lineBlindV_busRead (pa : U32) (len : ℕ) :
    LineBlindV (β := β) fun c => c.busRead pa len := by
  refine ⟨(busRead_memOnly pa len).core, fun c x _ => ⟨x, ?_⟩⟩
  unfold busRead
  split <;> rfl

theorem lineBlind_busWrite (pa : U32) (len : ℕ) (v : U64) :
    LineBlind (β := β) fun c => c.busWrite pa len v := by
  refine ⟨(busWrite_memOnly pa len v).core, fun c x _ => ⟨x, ?_⟩⟩
  unfold busWrite
  split <;> rfl

theorem lineBlindV_memReadBlock (pa : U32) (len : ℕ) :
    LineBlindV (β := β) fun c => c.memReadBlock pa len :=
  (lineBlindV_lineWay pa).bindV (q := fun way (c : Cpu β) =>
    (lineLoadBE ((c.lineAlloc pa way).2.l1d (setOf pa) (c.lineAlloc pa way).1).b (blockOff pa) len,
      (c.lineAlloc pa way).2)) fun way =>
      (lineBlindV_lineAlloc pa way).bindV
        (q := fun w (c : Cpu β) => (lineLoadBE (c.l1d (setOf pa) w).b (blockOff pa) len, c))
        fun w => LineBlind.id.value (fun c => lineLoadBE (c.l1d (setOf pa) w).b (blockOff pa) len)
            fun _ _ => rfl

/-- **A read** answers the same, whatever lines were left. -/
theorem lineBlindV_memRead (pa : U32) (len : ℕ) (wimg : U32) :
    LineBlindV (β := β) fun c => c.memRead pa len wimg := by
  have hbytes : ∀ (l : List ℕ) (v : U64),
      LineBlindV (β := β) fun c => l.foldl (memReadByte pa) (v, c) := by
    intro l
    induction l with
    | nil => exact fun v => LineBlind.id.value (fun _ => v) fun _ _ => rfl
    | cons i l ih =>
        intro v
        exact (lineBlindV_memReadBlock (pa + BitVec.ofNat 32 i) 1).bindV
          (q := fun r (c : Cpu β) => l.foldl (memReadByte pa) ((v <<< 8) ||| r, c))
          fun r => ih ((v <<< 8) ||| r)
  refine (LineBlind.id.value (fun c : Cpu β => c.bypasses wimg) fun _ _ => rfl).bindV
    (q := fun b (c : Cpu β) => if b then c.busRead pa len
      else if crosses pa len then (List.range len).foldl (memReadByte pa) (0#64, c)
      else c.memReadBlock pa len) fun b => ?_
  cases b with
  | true => exact lineBlindV_busRead pa len
  | false =>
      simp only [Bool.false_eq_true, if_false]
      split
      · exact hbytes _ _
      · exact lineBlindV_memReadBlock pa len

theorem lineBlind_memWriteBlock (pa : U32) (len : ℕ) (v : U64) (wimg : U32) :
    LineBlind (β := β) fun c => c.memWriteBlock pa len v wimg := by
  -- a line of the L1 merged with the bytes
  have hmerge : ∀ (w : Fin 8) (d : Bool → Bool), LineBlind (β := β) fun c =>
      c.setDLine (setOf pa) w
        { b := lineStoreBE (c.l1d (setOf pa) w).b (blockOff pa) len v,
          d := d (c.l1d (setOf pa) w).d } :=
    fun w d => ⟨fun _ => rfl, fun _ x _ => ⟨x, rfl⟩⟩
  unfold memWriteBlock
  by_cases hw : wimg &&& kWimgW ≠ 0#32
  · simp only [if_pos hw]
    refine (lineBlindV_lineWay pa).bind
      (k := fun way (c : Cpu β) => (c.mergeWay pa len v way).busWrite pa len v) fun way => ?_
    cases way with
    | some w => exact (lineBlind_busWrite pa len v).comp (hmerge w fun d => d)
    | none => exact lineBlind_busWrite pa len v
  · simp only [if_neg hw]
    exact (lineBlindV_lineWay pa).bind fun way =>
      (lineBlindV_lineAlloc pa way).bind fun w => hmerge w fun _ => true

/-- **A write** does the same to the rest. -/
theorem lineBlind_memWrite (pa : U32) (len : ℕ) (v : U64) (wimg : U32) :
    LineBlind (β := β) fun c => c.memWrite pa len v wimg := by
  refine LineBlind.comp (g := fun c : Cpu β => if c.bypasses wimg then c.busWrite pa len v
      else if crosses pa len then (List.range len).foldl (memWriteByte pa len v wimg) c
      else c.memWriteBlock pa len v wimg) ?_ (lineBlind_fetchDropRange pa len)
  refine LineBlind.ite (fun c => c.bypasses wimg) (fun _ _ => rfl) (lineBlind_busWrite pa len v) ?_
  split
  · exact lineBlind_foldl (fun i => (lineBlind_memWriteBlock _ 1 _ wimg).comp
      (lineBlind_fetchDropRange _ 1)) _
  · exact lineBlind_memWriteBlock pa len v wimg

/-- A line of zeros, in its way or in a victim's. -/
def zeroWay (pa : U32) (way : Option (Fin 8)) (c : Cpu β) : Cpu β :=
  let (w, c) := match way with
    | some w => (w, c)
    | none =>
        let (w, c) := c.lineVictim pa
        (w, (c.setTv (setOf pa) w (tvOf pa)).touchWay (setOf pa) w)
  c.setDLine (setOf pa) w { b := fun _ => 0#8, d := true }

theorem lineBlind_dcbzLine (pa : U32) : LineBlind (β := β) fun c => c.dcbzLine pa := by
  have hzero : ∀ w, LineBlind (β := β) fun c =>
      c.setDLine (setOf pa) w { b := fun _ => 0#8, d := true } :=
    fun w => lineBlind_setDLine _ w _
  refine ((lineBlindV_lineWay pa).bind (k := zeroWay pa) fun way => ?_).comp
    (lineBlind_fetchDropAt pa)
  cases way with
  | some w => exact hzero w
  | none =>
      exact (lineBlindV_lineVictim pa).bind (k := fun w (c : Cpu β) =>
        ((c.setTv (setOf pa) w (tvOf pa)).touchWay (setOf pa) w).setDLine (setOf pa) w
          { b := fun _ => 0#8, d := true }) fun w =>
        (hzero w).comp ((lineBlind_touchWay _ w).comp (lineBlind_setTv _ w _))

/-- A dirty line pushed, and its way given up if it is to go. -/
def cleanWay (pa : U32) (invalidate : Bool) (way : Option (Fin 8)) (c : Cpu β) : Cpu β :=
  match way with
  | none => c
  | some w =>
      let c := if (c.l1d (setOf pa) w).d
        then c.linePush (setOf pa) w ((c.l1x (setOf pa)).tv w >>> 1) else c
      if invalidate then c.setTv (setOf pa) w 0#32 else c

theorem lineBlind_dcbClean (pa : U32) (invalidate : Bool) :
    LineBlind (β := β) fun c => c.dcbClean pa invalidate := by
  have hway : ∀ w, LineBlind (β := β) fun c =>
      let c := if (c.l1d (setOf pa) w).d
        then c.linePush (setOf pa) w ((c.l1x (setOf pa)).tv w >>> 1) else c
      if invalidate then c.setTv (setOf pa) w 0#32 else c := by
    intro w
    refine LineBlind.comp
      (g := fun c : Cpu β => if invalidate then c.setTv (setOf pa) w 0#32 else c)
      (LineBlind.ite (fun _ => invalidate) (fun _ _ => rfl) (lineBlind_setTv _ w _) LineBlind.id) ?_
    exact LineBlind.ite (fun c => (c.l1d (setOf pa) w).d) (fun _ _ => rfl)
      (lineBlind_of (v := fun c => (c.l1x (setOf pa)).tv w >>> 1)
        (k := fun tag c => c.linePush (setOf pa) w tag) (fun _ _ => rfl)
        fun tag => lineBlind_linePush _ w tag) LineBlind.id
  refine ((lineBlindV_lineWay pa).bind (k := cleanWay pa invalidate) fun way => ?_).comp
    (lineBlind_fetchDropAt pa)
  cases way with
  | some w => exact hway w
  | none => exact LineBlind.id

omit [Bus β] in
/-- The way given up, if there is one. -/
def killWay (pa : U32) (way : Option (Fin 8)) (c : Cpu β) : Cpu β :=
  match way with
  | some w => c.setTv (setOf pa) w 0#32
  | none => c

omit [Bus β] in
theorem lineBlind_dcbKill (pa : U32) : LineBlind (β := β) fun c => c.dcbKill pa := by
  refine ((lineBlindV_lineWay pa).bind
    (k := fun way (c : Cpu β) => (killWay pa way c).l2Invalidate (blockBase pa)) fun way => ?_).comp
      (lineBlind_fetchDropAt pa)
  cases way with
  | some w => exact (lineBlind_l2Invalidate _).comp (lineBlind_setTv _ w _)
  | none => exact lineBlind_l2Invalidate _

end Operations

end Cpu

end OpenPowerMac
