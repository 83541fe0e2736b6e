/-
What the memory system leaves alone, and what it looks at.

An operation of the caches or of the bus is given the whole processor and could
read or write any of it. It reads the memory system itself and three settings,
HID0, L2CR and the L2's inert switch, and it writes the memory system only. Both
are said at once by running it on another processor's registers: put the memory
system of `c` under the registers of `d`, where the two have the same settings,
and the operation does to it what it does on `c` (`MemOnly`).

At `d = c` this is the frame property. At a `d` that differs in what the operation
must not see it is independence of that.
-/
import OpenPowerMac.CacheLevels

set_option autoImplicit false

namespace OpenPowerMac

namespace Cpu

variable {β : Type}

/-- The settings outside the memory system that its operations look at. -/
structure SameSettings (c d : Cpu β) : Prop where
  hid0 : d.st.hid0 = c.st.hid0
  l2cr : d.st.l2cr = c.st.l2cr
  l2Inert : d.l2Inert = c.l2Inert

theorem SameSettings.refl (c : Cpu β) : SameSettings c c := ⟨rfl, rfl, rfl⟩

/-- The data cache is on for both, or off. -/
theorem SameSettings.dceOn {c d : Cpu β} (h : SameSettings c d) : d.dceOn = c.dceOn := by
  rw [Cpu.dceOn, h.hid0, Cpu.dceOn]

/-- So is the L2. -/
theorem SameSettings.l2On {c d : Cpu β} (h : SameSettings c d) : d.l2On = c.l2On := by
  rw [Cpu.l2On, h.l2cr, Cpu.l2On]

/-- The operation lives in the memory system. -/
def MemOnly (f : Cpu β → Cpu β) : Prop :=
  ∀ c d, SameSettings c d → f (d.withMem c) = d.withMem (f c)

/-- The same of an operation with a result. -/
def MemOnlyV {α : Type} (f : Cpu β → α × Cpu β) : Prop :=
  ∀ c d, SameSettings c d → f (d.withMem c) = ((f c).1, d.withMem (f c).2)

section Rules

variable {α : Type} {f g : Cpu β → Cpu β} {p : Cpu β → α × Cpu β} {c d : Cpu β}

/-- The frame property: what is outside the memory system is as it was. -/
theorem MemOnly.core (h : MemOnly f) (c : Cpu β) : SameCore c (f c) := h c c (SameSettings.refl c)

theorem MemOnlyV.core (h : MemOnlyV p) (c : Cpu β) : SameCore c (p c).2 :=
  congrArg Prod.snd (h c c (SameSettings.refl c))

/-- The settings stand through a step that keeps to the memory system. -/
theorem SameCore.settings {c' : Cpu β} (h : SameCore c c') (hs : SameSettings c d) :
    SameSettings c' d :=
  ⟨by rw [hs.hid0, h.st], by rw [hs.l2cr, h.st], by rw [hs.l2Inert, h.l2Inert]⟩

theorem MemOnly.next (h : MemOnly f) (hs : SameSettings c d) : SameSettings (f c) d :=
  (h.core c).settings hs

theorem MemOnlyV.next (h : MemOnlyV p) (hs : SameSettings c d) : SameSettings (p c).2 d :=
  (h.core c).settings hs

/-- One after the other. -/
theorem MemOnly.comp (hg : MemOnly g) (hf : MemOnly f) : MemOnly fun c => g (f c) := by
  intro c d hs
  show g (f (d.withMem c)) = d.withMem (g (f c))
  rw [hf c d hs, hg (f c) d (hf.next hs)]

theorem MemOnly.id : MemOnly (β := β) fun c => c := fun _ _ _ => rfl

/-- A step that is made or not. -/
theorem MemOnly.when (hf : MemOnly f) (b : Bool) : MemOnly fun c => if b then f c else c := by
  cases b
  · exact MemOnly.id
  · exact hf

/-- A loop of such steps. -/
theorem memOnly_foldl {δ : Type} {step : Cpu β → δ → Cpu β} (h : ∀ x, MemOnly fun c => step c x)
    (l : List δ) : MemOnly fun c => l.foldl step c := by
  induction l with
  | nil => exact MemOnly.id
  | cons x l ih => exact ih.comp (h x)

end Rules

/-! ## The operations -/

section Operations

variable {c d : Cpu β}

theorem fetchDropAt_memOnly (pa : U32) : MemOnly (β := β) fun c => c.fetchDropAt pa := by
  intro c d _
  show (d.withMem c).fetchDropAt pa = d.withMem (c.fetchDropAt pa)
  unfold fetchDropAt
  simp only [apply_ite d.withMem]
  rfl

/-- One block is dropped or two, by the addresses alone. -/
theorem fetchDropRange_memOnly (pa : U32) (len : ℕ) :
    MemOnly (β := β) fun c => c.fetchDropRange pa len := by
  unfold fetchDropRange
  by_cases h : (pa ^^^ (pa + BitVec.ofNat 32 len - 1#32)) &&& ~~~31#32 ≠ 0#32
  · simp only [if_pos h]
    exact (fetchDropAt_memOnly _).comp (fetchDropAt_memOnly pa)
  · simp only [if_neg h]
    exact fetchDropAt_memOnly pa

/-- The lookup in the L1, which remembers the way it found. -/
theorem lineWay_memOnly (pa : U32) : MemOnlyV (β := β) fun c => c.lineWay pa := by
  intro c d _
  have hquiet : (d.withMem c).lineWayQuiet pa = c.lineWayQuiet pa := rfl
  show (d.withMem c).lineWay pa = ((c.lineWay pa).1, d.withMem (c.lineWay pa).2)
  unfold lineWay
  rw [hquiet]
  cases c.lineWayQuiet pa <;> rfl

/-- The lookup in the L2, where the two settings of the L2 are read. -/
theorem l2Find_memOnly (pa : U32) : MemOnlyV (β := β) fun c => c.l2Find pa := by
  intro c d hs
  have hon : (d.withMem c).l2On = c.l2On := hs.l2On
  have hinert : (d.withMem c).l2Inert = c.l2Inert := hs.l2Inert
  have hsets : (d.withMem c).l2Sets = c.l2Sets := rfl
  have hway : (d.withMem c).l2Way pa = c.l2Way pa := rfl
  show (d.withMem c).l2Find pa = ((c.l2Find pa).1, d.withMem (c.l2Find pa).2)
  unfold l2Find
  rw [hon, hinert, hsets, hway]
  split
  · rfl
  · cases c.l2Way pa <;> rfl

theorem l2ReadLine_memOnly (pa : U32) : MemOnlyV (β := β) fun c => c.l2ReadLine pa := by
  intro c d hs
  have hfind : (d.withMem c).l2Find pa = ((c.l2Find pa).1, d.withMem (c.l2Find pa).2) :=
    l2Find_memOnly pa c d hs
  show (d.withMem c).l2ReadLine pa = ((c.l2ReadLine pa).1, d.withMem (c.l2ReadLine pa).2)
  unfold l2ReadLine
  rw [hfind]
  rfl

/-- A way that is dropped if it holds the block. -/
theorem l2Unset_memOnly (tag : U32) (i : ℕ) : MemOnly (β := β) fun c => c.l2Unset tag i := by
  intro c d _
  show (d.withMem c).l2Unset tag i = d.withMem (c.l2Unset tag i)
  unfold l2Unset
  simp only [apply_ite d.withMem]
  rfl

/-- Both ways of a set are looked at. -/
theorem l2Invalidate_memOnly (pa : U32) : MemOnly (β := β) fun c => c.l2Invalidate pa := by
  have hunset : ∀ i, MemOnly (β := β) fun c => c.l2Unset (pa >>> 5) i := l2Unset_memOnly _
  intro c d hs
  have hdrop : (d.withMem c).fetchDropAt pa = d.withMem (c.fetchDropAt pa) :=
    fetchDropAt_memOnly pa c d hs
  have hs₁ : SameSettings (c.fetchDropAt pa) d := (fetchDropAt_memOnly pa).next hs
  show (d.withMem c).l2Invalidate pa = d.withMem (c.l2Invalidate pa)
  unfold l2Invalidate
  rw [hdrop]
  obtain ⟨c₁, hc₁⟩ : ∃ c₁, c.fetchDropAt pa = c₁ := ⟨_, rfl⟩
  rw [hc₁] at hs₁ ⊢
  have hsets : (d.withMem c₁).l2Sets = c₁.l2Sets := rfl
  have hset : (d.withMem c₁).l2SetOf pa = c₁.l2SetOf pa := rfl
  simp only [hsets, hset]
  by_cases h0 : c₁.l2Sets = 0#32
  · rw [if_pos h0, if_pos h0]
  · rw [if_neg h0, if_neg h0]
    exact ((hunset _).comp (hunset _)) c₁ d hs₁

section Buses

variable [Bus β]

/-- The bus is part of the memory system. -/
theorem busWriteLine_memOnly (base : U32) (b : Line) :
    MemOnly (β := β) fun c => c.busWriteLine base b := by
  have hput : MemOnly (β := β) fun c => c.setBus (Bus.writeLine32 c.bus base b) := fun _ _ _ => rfl
  exact hput.comp (fetchDropAt_memOnly base)

theorem l2FlushEntry_memOnly (writeback : Bool) (i : ℕ) :
    MemOnly (β := β) fun c => l2FlushEntry writeback c i := by
  intro c d hs
  have hput : ∀ e, MemOnly (β := β) fun c => c.l2Put i e := fun _ _ _ _ => rfl
  exact (hput _).comp ((busWriteLine_memOnly ((c.l2At i).tag <<< 5) (c.l2At i).b).when
    ((c.l2At i).v && (c.l2At i).d && writeback)) c d hs

theorem l2FlushAll_memOnly (writeback : Bool) :
    MemOnly (β := β) fun c => c.l2FlushAll writeback := by
  intro c d hs
  have hdrop : MemOnly (β := β) fetchDrop := fun _ _ _ => rfl
  exact (memOnly_foldl (l2FlushEntry_memOnly writeback) (List.range c.l2.size)).comp hdrop c d hs

/-- The resize reads L2CR, and flushes what it drops. -/
theorem l2Resize_memOnly : MemOnly (β := β) l2Resize := by
  intro c d hs
  have hcr : (d.withMem c).st.l2cr = c.st.l2cr := hs.l2cr
  have hsets : (d.withMem c).l2Sets = c.l2Sets := rfl
  have hflush : (d.withMem c).l2FlushAll true = d.withMem (c.l2FlushAll true) :=
    l2FlushAll_memOnly true c d hs
  unfold l2Resize
  simp only [hcr, hsets, hflush]
  split <;> rfl

/-- The allocation of `l2Install`. -/
theorem l2Alloc_memOnly (pa : U32) (bytes : Line) (dirty : Bool) : MemOnly (β := β) fun c =>
    let hit := c.l2Way pa
    let i := hit.getD (c.l2Victim pa)
    let old := c.l2At i
    let c := if hit.isNone && old.v && old.d then c.busWriteLine (old.tag <<< 5) old.b else c
    c.l2Tick.l2Put i
      { v := true, d := dirty || (hit.isSome && old.d), tag := pa >>> 5,
        age := c.l2Clock + 1#32, b := bytes } := by
  intro c d hs
  have hput : ∀ i (e : U32 → L2Line), MemOnly (β := β) fun c => c.l2Tick.l2Put i (e c.l2Clock) :=
    fun _ _ _ _ _ => rfl
  exact (hput ((c.l2Way pa).getD (c.l2Victim pa)) fun age =>
    { v := true, d := dirty || ((c.l2Way pa).isSome && (c.l2At ((c.l2Way pa).getD (c.l2Victim pa))).d),
      tag := pa >>> 5, age := age + 1#32, b := bytes }).comp
    ((busWriteLine_memOnly ((c.l2At ((c.l2Way pa).getD (c.l2Victim pa))).tag <<< 5)
      (c.l2At ((c.l2Way pa).getD (c.l2Victim pa))).b).when _) c d hs

/-- The four cases of an L2 install: off, inert, without sets yet, and the allocation. -/
theorem l2Install_memOnly (pa : U32) (bytes : Line) (dirty : Bool) :
    MemOnly (β := β) fun c => c.l2Install pa bytes dirty := by
  intro c d hs
  have hon : (d.withMem c).l2On = c.l2On := hs.l2On
  have hdrop := (fetchDropAt_memOnly (β := β) pa).when dirty
  have hs₁ := hdrop.next hs
  have hdrop' : (if dirty then (d.withMem c).fetchDropAt pa else d.withMem c)
      = d.withMem (if dirty then c.fetchDropAt pa else c) := hdrop c d hs
  show (d.withMem c).l2Install pa bytes dirty = d.withMem (c.l2Install pa bytes dirty)
  unfold l2Install
  rw [hon, hdrop']
  obtain ⟨c₁, hc₁⟩ : ∃ c₁, (if dirty then c.fetchDropAt pa else c) = c₁ := ⟨_, rfl⟩
  simp only [hc₁] at hs₁ ⊢
  have hinert : (d.withMem c₁).l2Inert = c₁.l2Inert := hs₁.l2Inert
  have hresize : (if c₁.l2Sets = 0#32 then (d.withMem c₁).l2Resize else d.withMem c₁)
      = d.withMem (if c₁.l2Sets = 0#32 then c₁.l2Resize else c₁) := by
    by_cases h0 : c₁.l2Sets = 0#32
    · rw [if_pos h0, if_pos h0]
      exact l2Resize_memOnly c₁ d hs₁
    · rw [if_neg h0, if_neg h0]
  have hs₂ : SameSettings (if c₁.l2Sets = 0#32 then c₁.l2Resize else c₁) d := by
    by_cases h0 : c₁.l2Sets = 0#32
    · rw [if_pos h0]
      exact l2Resize_memOnly.next hs₁
    · rw [if_neg h0]
      exact hs₁
  rw [hinert]
  by_cases hoff : (!c.l2On) = true
  · rw [if_pos hoff, if_pos hoff]
  · rw [if_neg hoff, if_neg hoff]
    by_cases hin : c₁.l2Inert = true
    · rw [if_pos hin, if_pos hin]
      exact (busWriteLine_memOnly pa bytes).when dirty c₁ d hs₁
    · rw [if_neg hin, if_neg hin]
      show _ = d.withMem _
      rw [show (d.withMem c₁).l2Sets = c₁.l2Sets from rfl, hresize]
      exact l2Alloc_memOnly pa bytes dirty _ d hs₂

/-- A castout goes to the L2 if it is on, and else to the bus. -/
theorem lineCastout_memOnly (s : BitVec 7) (w : Fin 8) (tag : U32) :
    MemOnly (β := β) fun c => c.lineCastout s w tag := by
  intro c d hs
  have hput : ∀ e, MemOnly (β := β) fun c => c.setDLine s w e := fun _ _ _ _ => rfl
  have hon : (d.withMem c).l2On = c.l2On := hs.l2On
  show (d.withMem c).lineCastout s w tag = d.withMem (c.lineCastout s w tag)
  unfold lineCastout
  rw [hon]
  cases c.l2On
  · exact ((hput _).comp (busWriteLine_memOnly _ _)) c d hs
  · exact ((hput _).comp (l2Install_memOnly _ _ true)) c d hs

/-- A fill takes the line from the L2, or from the bus, and then by way of the L2. -/
theorem lineFill_memOnly (s : BitVec 7) (w : Fin 8) (pa : U32) :
    MemOnly (β := β) fun c => c.lineFill s w pa := by
  intro c d hs
  have hput : ∀ b, MemOnly (β := β) fun c => (c.setTv s w (tvOf pa)).setDLine s w { b := b, d := false } :=
    fun _ _ _ _ => rfl
  have hread : (d.withMem c).l2ReadLine (blockBase pa)
      = ((c.l2ReadLine (blockBase pa)).1, d.withMem (c.l2ReadLine (blockBase pa)).2) :=
    l2ReadLine_memOnly (blockBase pa) c d hs
  have hs₁ := (l2ReadLine_memOnly (blockBase pa)).next hs
  show (d.withMem c).lineFill s w pa = d.withMem (c.lineFill s w pa)
  unfold lineFill
  simp only
  rw [hread]
  obtain ⟨r, hr⟩ : ∃ r, c.l2ReadLine (blockBase pa) = r := ⟨_, rfl⟩
  obtain ⟨hit, c₁⟩ := r
  rw [hr] at hs₁ ⊢
  cases hit with
  | some b => rfl
  | none =>
      have hon : ((d.withMem c₁).setBus (Bus.readLine32 c₁.bus (blockBase pa)).2).l2On
          = (c₁.setBus (Bus.readLine32 c₁.bus (blockBase pa)).2).l2On := hs₁.l2On
      have hbus : MemOnly (β := β) fun c => c.setBus (Bus.readLine32 c.bus (blockBase pa)).2 :=
        fun _ _ _ => rfl
      simp only
      rw [show (d.withMem c₁).bus = c₁.bus from rfl, hon]
      exact ((hput (Bus.readLine32 c₁.bus (blockBase pa)).1).comp
        (((l2Install_memOnly (blockBase pa) (Bus.readLine32 c₁.bus (blockBase pa)).1 false).when
          (c₁.setBus (Bus.readLine32 c₁.bus (blockBase pa)).2).l2On).comp hbus)) c₁ d hs₁

theorem lineVictim_memOnly (pa : U32) : MemOnlyV (β := β) fun c => c.lineVictim pa := by
  intro c d hs
  show (d.withMem c).lineVictim pa = ((c.lineVictim pa).1, d.withMem (c.lineVictim pa).2)
  unfold lineVictim
  simp only
  rw [show (d.withMem c).l1x = c.l1x from rfl, show (d.withMem c).l1d = c.l1d from rfl]
  cases invalidWay (c.l1x (setOf pa)) with
  | some w => rfl
  | none =>
      have hcast := (lineCastout_memOnly (β := β) (setOf pa) (oldestWay (c.l1x (setOf pa)))
        ((c.l1x (setOf pa)).tv (oldestWay (c.l1x (setOf pa))) >>> 1)).when
          (c.l1d (setOf pa) (oldestWay (c.l1x (setOf pa)))).d
      have hset : ∀ w, MemOnly (β := β) fun c => c.setTv (setOf pa) w 0#32 := fun _ _ _ _ => rfl
      exact congrArg (Prod.mk _) (((hset _).comp hcast) c d hs)

theorem busRead_memOnly (pa : U32) (len : ℕ) : MemOnlyV (β := β) fun c => c.busRead pa len := by
  intro c d _
  show (d.withMem c).busRead pa len = ((c.busRead pa len).1, d.withMem (c.busRead pa len).2)
  unfold busRead
  split <;> rfl

theorem busWrite_memOnly (pa : U32) (len : ℕ) (v : U64) :
    MemOnly (β := β) fun c => c.busWrite pa len v := by
  intro c d _
  show (d.withMem c).busWrite pa len v = d.withMem (c.busWrite pa len v)
  unfold busWrite
  split <;> rfl

/-- The way that was found, or the victim filled. -/
theorem lineAlloc_memOnly (pa : U32) (way : Option (Fin 8)) :
    MemOnlyV (β := β) fun c => c.lineAlloc pa way := by
  intro c d hs
  cases way with
  | some w => rfl
  | none =>
      have hvictim : (d.withMem c).lineVictim pa
          = ((c.lineVictim pa).1, d.withMem (c.lineVictim pa).2) := lineVictim_memOnly pa c d hs
      have htouch : ∀ w, MemOnly (β := β) fun c => c.touchWay (setOf pa) w := fun _ _ _ _ => rfl
      show (d.withMem c).lineAlloc pa none = _
      unfold lineAlloc
      rw [hvictim]
      exact congrArg (Prod.mk _) (((htouch _).comp (lineFill_memOnly (setOf pa) _ pa)) _ d
        ((lineVictim_memOnly pa).next hs))

/-- The way an access works on. -/
theorem lineWayAlloc_memOnly (pa : U32) :
    MemOnlyV (β := β) fun c => (c.lineWay pa).2.lineAlloc pa (c.lineWay pa).1 := by
  intro c d hs
  have hway : (d.withMem c).lineWay pa = ((c.lineWay pa).1, d.withMem (c.lineWay pa).2) :=
    lineWay_memOnly pa c d hs
  show (d.withMem c).lineWay pa |>.2.lineAlloc pa ((d.withMem c).lineWay pa).1 = _
  rw [hway]
  exact lineAlloc_memOnly pa _ _ d ((lineWay_memOnly pa).next hs)

theorem memReadBlock_memOnly (pa : U32) (len : ℕ) :
    MemOnlyV (β := β) fun c => c.memReadBlock pa len := by
  intro c d hs
  have halloc : ((d.withMem c).lineWay pa).2.lineAlloc pa ((d.withMem c).lineWay pa).1
      = (((c.lineWay pa).2.lineAlloc pa (c.lineWay pa).1).1,
        d.withMem ((c.lineWay pa).2.lineAlloc pa (c.lineWay pa).1).2) := lineWayAlloc_memOnly pa c d hs
  show (d.withMem c).memReadBlock pa len
    = ((c.memReadBlock pa len).1, d.withMem (c.memReadBlock pa len).2)
  unfold memReadBlock
  simp only
  rw [halloc]
  rfl

/-- **A read of memory.** -/
theorem memRead_memOnly (pa : U32) (len : ℕ) (wimg : U32) :
    MemOnlyV (β := β) fun c => c.memRead pa len wimg := by
  have hsplit : ∀ (l : List ℕ) (v : U64),
      MemOnlyV (β := β) fun c => l.foldl (memReadByte pa) (v, c) := by
    intro l
    induction l with
    | nil => exact fun _ _ _ _ => rfl
    | cons i l ih =>
        intro v c d hs
        have hbyte : (d.withMem c).memReadBlock (pa + BitVec.ofNat 32 i) 1
            = ((c.memReadBlock (pa + BitVec.ofNat 32 i) 1).1,
              d.withMem (c.memReadBlock (pa + BitVec.ofNat 32 i) 1).2) :=
          memReadBlock_memOnly _ 1 c d hs
        show List.foldl (memReadByte pa) (memReadByte pa (v, d.withMem c) i) l = _
        unfold memReadByte
        simp only
        rw [hbyte]
        exact ih _ _ d ((memReadBlock_memOnly _ 1).next hs)
  intro c d hs
  have hbypass : (d.withMem c).bypasses wimg = c.bypasses wimg := by
    unfold bypasses
    rw [show (d.withMem c).dceOn = c.dceOn from hs.dceOn]
  show (d.withMem c).memRead pa len wimg
    = ((c.memRead pa len wimg).1, d.withMem (c.memRead pa len wimg).2)
  unfold memRead
  rw [hbypass]
  split
  · exact busRead_memOnly pa len c d hs
  · split
    · exact hsplit _ _ c d hs
    · exact memReadBlock_memOnly pa len c d hs

/-- The bytes merged into a way's line, if there is one. -/
def mergeWay (c : Cpu β) (pa : U32) (len : ℕ) (v : U64) (way : Option (Fin 8)) : Cpu β :=
  match way with
  | some w => c.setDLine (setOf pa) w
      { b := lineStoreBE (c.l1d (setOf pa) w).b (blockOff pa) len v, d := (c.l1d (setOf pa) w).d }
  | none => c

theorem memWriteBlock_memOnly (pa : U32) (len : ℕ) (v : U64) (wimg : U32) :
    MemOnly (β := β) fun c => c.memWriteBlock pa len v wimg := by
  intro c d hs
  have hway : (d.withMem c).lineWay pa = ((c.lineWay pa).1, d.withMem (c.lineWay pa).2) :=
    lineWay_memOnly pa c d hs
  have hs₁ := (lineWay_memOnly pa).next hs
  show (d.withMem c).memWriteBlock pa len v wimg = d.withMem (c.memWriteBlock pa len v wimg)
  unfold memWriteBlock
  simp only
  rw [hway]
  obtain ⟨r, hr⟩ : ∃ r, c.lineWay pa = r := ⟨_, rfl⟩
  obtain ⟨way, c₁⟩ := r
  rw [hr] at hs₁ ⊢
  simp only at hs₁ ⊢
  by_cases hw : wimg &&& kWimgW ≠ 0#32
  · rw [if_pos hw, if_pos hw]
    have hmerge : ∀ way : Option (Fin 8), MemOnly (β := β) fun c => c.mergeWay pa len v way := by
      intro way c d _
      cases way <;> rfl
    exact ((busWrite_memOnly pa len v).comp (hmerge way)) c₁ d hs₁
  · rw [if_neg hw, if_neg hw]
    have halloc : (d.withMem c₁).lineAlloc pa way
        = ((c₁.lineAlloc pa way).1, d.withMem (c₁.lineAlloc pa way).2) :=
      lineAlloc_memOnly pa way c₁ d hs₁
    rw [halloc]
    rfl

/-- **A write of memory.** -/
theorem memWrite_memOnly (pa : U32) (len : ℕ) (v : U64) (wimg : U32) :
    MemOnly (β := β) fun c => c.memWrite pa len v wimg := by
  have hbyte : ∀ i, MemOnly (β := β) fun c => memWriteByte pa len v wimg c i := fun i =>
    (memWriteBlock_memOnly _ 1 _ wimg).comp (fetchDropRange_memOnly _ 1)
  intro c d hs
  have hdrop : (d.withMem c).fetchDropRange pa len = d.withMem (c.fetchDropRange pa len) :=
    fetchDropRange_memOnly pa len c d hs
  have hs₁ := (fetchDropRange_memOnly pa len).next hs
  show (d.withMem c).memWrite pa len v wimg = d.withMem (c.memWrite pa len v wimg)
  unfold memWrite
  rw [hdrop]
  obtain ⟨c₁, hc₁⟩ : ∃ c₁, c.fetchDropRange pa len = c₁ := ⟨_, rfl⟩
  simp only [hc₁] at hs₁ ⊢
  have hbypass : (d.withMem c₁).bypasses wimg = c₁.bypasses wimg := by
    unfold bypasses
    rw [show (d.withMem c₁).dceOn = c₁.dceOn from hs₁.dceOn]
  rw [hbypass]
  split
  · exact busWrite_memOnly pa len v c₁ d hs₁
  · split
    · exact memOnly_foldl hbyte (List.range len) c₁ d hs₁
    · exact memWriteBlock_memOnly pa len v wimg c₁ d hs₁

end Buses

end Operations

end Cpu

end OpenPowerMac
