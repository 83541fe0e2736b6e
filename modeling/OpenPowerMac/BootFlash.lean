/-
The boot flash over whole runs: what its command protocol changes of the image, and what reads
return (the flash arms of `SawtoothBus::read` and `SawtoothBus::write`, and the wider accesses
`read64` and `write64`).

A run is the list of the writes the flash has been sent, the last one first. From it alone come
the mode, the block an erase is for, and what each write may do.
-/
import OpenPowerMac.LowBits
import OpenPowerMac.SawtoothMemory

set_option autoImplicit false

namespace OpenPowerMac

namespace SawtoothBus

/-! ## The image -/

/-- The bus, with what its arrays hold. -/
structure FlashBus where
  b : SawtoothBus
  m : Backing

/-- A program cycle: the bytes that exist, each ANDed with the written one. -/
def programRom (b : SawtoothBus) (off v : U32) (len : ℕ) (rom : ℕ → U8) : ℕ → U8 :=
  ((List.range len).takeWhile fun k => (off + BitVec.ofNat 32 k).toNat < b.romSize).foldl
    (fun rom k =>
      let i := (off + BitVec.ofNat 32 k).toNat
      Function.update rom i (rom i &&& (v >>> (8 * (len - 1 - k))).setWidth 8))
    rom

/-- An erase: the bytes of the block that exist, filled. -/
def eraseRom (b : SawtoothBus) (rom : ℕ → U8) : ℕ → U8 :=
  let base := b.flashErase &&& ~~~0x1FFF#32
  ((List.range 0x2000).takeWhile fun k => (base + BitVec.ofNat 32 k).toNat < b.romSize).foldl
    (fun rom k => Function.update rom (base + BitVec.ofNat 32 k).toNat 0xFF#8)
    rom

/-- What a flash write does to the image. -/
def flashImage (b : SawtoothBus) (off v : U32) (len : ℕ) (rom : ℕ → U8) : ℕ → U8 :=
  if b.flashMode = .kFlashProgram then b.programRom off v len rom
  else if v.setWidth 8 = 0xD0#8 ∧ b.flashMode = .kFlashEraseSetup then b.eraseRom rom
  else rom

/-- `put`: the bytes of `v` from an index on, the most significant first. -/
def put (m : Backing) (r : Region) (i : ℕ) (v : U32) (len : ℕ) : Backing :=
  (List.range len).foldl
    (fun m k => Function.update m r
      (Function.update (m r) (i + k) ((v >>> (8 * (len - 1 - k))).setWidth 8)))
    m

/-- The status the flash answers with: ready, and no error. -/
def flashStatus (len : ℕ) : U32 :=
  (List.range (min len 4)).foldl (fun st _ => (st <<< 8) ||| 0x80#32) 0#32

namespace FlashBus

/-- The image of the boot flash. -/
def rom (s : FlashBus) : ℕ → U8 := s.m .rom

/-- `SawtoothBus::write`, with the arrays. -/
def write (s : FlashBus) (pa v : U32) (len : ℕ) : FlashBus :=
  match s.b.writePlace pa len with
  | .store w i => { s with m := put s.m w.region i v len }
  | .flash off =>
      { b := s.b.flashWrite off v
        m := Function.update s.m .rom (s.b.flashImage off v len s.rom) }
  | _ => { s with b := s.b.write pa v len }

/-- `write64`: two words, one after the other. -/
def write64 (s : FlashBus) (pa : U32) (v : U64) : FlashBus :=
  (s.write pa ((v >>> 32).setWidth 32) 4).write (pa + 4#32) (v.setWidth 32) 4

/-- `SawtoothBus::read`; `other` stands for the devices. -/
def read (s : FlashBus) (other : Place → U32) (pa : U32) (len : ℕ) : U32 :=
  (s.b.read s.m (fun p => match p with
    | .flash _ => flashStatus len
    | p => other p) pa len).1

/-- `read64`. -/
def read64 (s : FlashBus) (other : Place → U32) (pa : U32) : U64 :=
  ((s.read other pa 4).setWidth 64 <<< 32) ||| (s.read other (pa + 4#32) 4).setWidth 64

end FlashBus

/-! ## Prefixes -/

/-- Where a test that fails once fails from there on, what comes before the failure is what
passes. -/
theorem takeWhile_eq_filter {α : Type} {p : α → Bool} {l : List α}
    (hmono : l.Pairwise fun x y => p y = true → p x = true) : l.takeWhile p = l.filter p := by
  induction l with
  | nil => rfl
  | cons a l ih =>
    have hm := List.pairwise_cons.mp hmono
    by_cases ha : p a = true
    · rw [List.takeWhile_cons_of_pos ha, List.filter_cons_of_pos ha, ih hm.2]
    · have hnone : l.filter p = [] :=
        List.filter_eq_nil_iff.mpr fun b hb hpb => ha (hm.1 b hb hpb)
      rw [List.takeWhile_cons_of_neg ha, List.filter_cons_of_neg ha, hnone]

section image

variable {b : SawtoothBus} {off v : U32} {len : ℕ} {rom : ℕ → U8}

/-- The indices that exist, of `n` from `off` on. -/
theorem existing_eq (n : ℕ) (hoff : off.toNat + n ≤ 2 ^ 32) :
    ((List.range n).takeWhile fun k => decide ((off + BitVec.ofNat 32 k).toNat < b.romSize))
      = (List.range n).filter fun k => decide (off.toNat + k < b.romSize) := by
  have hcongr : ∀ k ∈ List.range n, (off + BitVec.ofNat 32 k).toNat = off.toNat + k :=
    fun k hk => add_toNat (by have := List.mem_range.mp hk; omega)
  rw [takeWhile_eq_filter]
  · refine List.filter_congr fun k hk => ?_
    rw [hcongr k hk]
  · refine List.pairwise_lt_range.imp_of_mem fun {j k} hj hk hlt hpk => ?_
    rw [decide_eq_true_iff, hcongr _ hk] at hpk
    rw [decide_eq_true_iff, hcongr _ hj]
    omega

/-- The byte of a written value that goes `k` places from its first. -/
def byteOf (v : U32) (len k : ℕ) : U8 := (v >>> (8 * (len - 1 - k))).setWidth 8

/-- A program cycle inside the image: its own bytes ANDed, and no others. -/
theorem programRom_at (hin : off.toNat + len ≤ b.romSize) (hoff : off.toNat + len ≤ 2 ^ 32)
    (i : ℕ) :
    b.programRom off v len rom i
      = if off.toNat ≤ i ∧ i < off.toNat + len then rom i &&& byteOf v len (i - off.toNat)
        else rom i := by
  have hall : (List.range len).filter (fun k => decide (off.toNat + k < b.romSize))
      = List.range len := by
    refine List.filter_eq_self.mpr fun k hk => ?_
    have := List.mem_range.mp hk
    exact decide_eq_true (by omega)
  unfold programRom
  rw [existing_eq len hoff, hall]
  -- the bytes one after the other, the first `n` of them done
  have hrun : ∀ n ≤ len, ((List.range n).foldl (fun rom k =>
      Function.update rom (off + BitVec.ofNat 32 k).toNat
        (rom (off + BitVec.ofNat 32 k).toNat &&& (v >>> (8 * (len - 1 - k))).setWidth 8)) rom) i
      = if off.toNat ≤ i ∧ i < off.toNat + n then rom i &&& byteOf v len (i - off.toNat)
        else rom i := by
    intro n
    induction n with
    | zero =>
      intro _
      rw [if_neg (by omega)]
      rfl
    | succ n ih =>
      intro hn
      have hidx : (off + BitVec.ofNat 32 n).toNat = off.toNat + n := add_toNat (by omega)
      rw [List.range_succ, List.foldl_append, List.foldl_cons, List.foldl_nil,
        Function.update_apply, hidx]
      by_cases hi : i = off.toNat + n
      · subst hi
        rw [if_pos rfl, ih (by omega), if_neg (by omega), if_pos (by omega),
          Nat.add_sub_cancel_left]
        rfl
      · rw [if_neg hi, ih (by omega)]
        split_ifs <;> first | rfl | omega
  exact hrun len le_rfl

/-- A list of places filled with one byte. -/
theorem foldl_fill (x : U8) (f : ℕ → ℕ) (l : List ℕ) :
    ∀ (rom : ℕ → U8) (i : ℕ),
      (l.foldl (fun rom k => Function.update rom (f k) x) rom) i
        = if ∃ k ∈ l, f k = i then x else rom i := by
  induction l with
  | nil => intro rom i; simp
  | cons a l ih =>
    intro rom i
    rw [List.foldl_cons, ih]
    by_cases hl : ∃ k ∈ l, f k = i
    · obtain ⟨k, hk, hki⟩ := hl
      rw [if_pos ⟨k, hk, hki⟩, if_pos ⟨k, List.mem_cons_of_mem _ hk, hki⟩]
    · rw [if_neg hl, Function.update_apply]
      by_cases ha : f a = i
      · rw [if_pos ha.symm, if_pos ⟨a, List.mem_cons_self, ha⟩]
      · rw [if_neg (fun h => ha h.symm), if_neg]
        rintro ⟨k, hk, hki⟩
        rcases List.mem_cons.mp hk with rfl | hk
        · exact ha hki
        · exact hl ⟨k, hk, hki⟩

/-- The block of an offset. -/
def InBlock (off : U32) (i : ℕ) : Prop := i / 0x2000 = off.toNat / 0x2000

instance (off : U32) (i : ℕ) : Decidable (InBlock off i) := inferInstanceAs (Decidable (_ = _))

theorem block_base (off : U32) :
    (off &&& ~~~0x1FFF#32).toNat = off.toNat / 0x2000 * 0x2000 := toNat_and_not_low off 13

/-- An erase: the block of the setup command, as far as there is image, and nothing else. -/
theorem eraseRom_at (i : ℕ) :
    b.eraseRom rom i = if InBlock b.flashErase i ∧ i < b.romSize then 0xFF#8 else rom i := by
  have hbase := block_base b.flashErase
  have hlt := b.flashErase.isLt
  unfold eraseRom
  generalize b.flashErase &&& ~~~0x1FFF#32 = base at hbase ⊢
  rw [existing_eq 0x2000 (by omega), foldl_fill]
  refine if_congr ?_ rfl rfl
  simp only [List.mem_filter, List.mem_range, decide_eq_true_eq, InBlock]
  constructor
  · rintro ⟨k, ⟨hk, hsz⟩, hki⟩
    rw [add_toNat (by omega)] at hki
    omega
  · rintro ⟨hblock, hi⟩
    refine ⟨i - base.toNat, ⟨by omega, by omega⟩, ?_⟩
    rw [add_toNat (by omega)]
    omega

end image

/-! ## The history -/

/-- A write the flash has been sent. -/
structure FlashWrite where
  off : U32
  v : U32
  len : ℕ

/-- The command a write carries, in its low byte. -/
def FlashWrite.cmd (w : FlashWrite) : U8 := w.v.setWidth 8

/-- The last write is a program command, and what comes next is its data. -/
def awaitsData : List FlashWrite → Bool
  | [] => false
  | w :: h => !awaitsData h && decide (w.cmd = 0x40#8 ∨ w.cmd = 0x10#8)

/-- The address of the erase setup, where that is the last write. -/
def eraseSetup : List FlashWrite → Option U32
  | [] => none
  | w :: h => if awaitsData h = false ∧ w.cmd = 0x20#8 then some w.off else none

/-- The last write that was no program data. -/
def lastCommand : List FlashWrite → Option U8
  | [] => none
  | w :: h => if awaitsData h then lastCommand h else some w.cmd

/-- The flash is to be read as an array. -/
def ReadsArray (h : List FlashWrite) : Prop :=
  lastCommand h = none ∨ lastCommand h = some 0xFF#8 ∨ lastCommand h = some 0x50#8

instance (h : List FlashWrite) : Decidable (ReadsArray h) :=
  inferInstanceAs (Decidable (_ ∨ _ ∨ _))

/-- The mode is what the history makes of it. -/
structure Tracks (h : List FlashWrite) (b : SawtoothBus) : Prop where
  program : b.flashMode = .kFlashProgram ↔ awaitsData h = true
  erase : ∀ o, (b.flashMode = .kFlashEraseSetup ∧ b.flashErase = o) ↔ eraseSetup h = some o
  array : b.flashMode = .kFlashArray ↔ ReadsArray h

theorem tracks_start {b : SawtoothBus} (h : b.flashMode = .kFlashArray) : Tracks [] b where
  program := by rw [h]; exact ⟨nofun, nofun⟩
  erase o := by rw [h]; exact ⟨nofun, nofun⟩
  array := ⟨fun _ => .inl rfl, fun _ => h⟩

/-- A write is data, or one of the commands. -/
theorem tracks_write {h : List FlashWrite} {b : SawtoothBus} (ht : Tracks h b) (w : FlashWrite) :
    Tracks (w :: h) (b.flashWrite w.off w.v) := by
  unfold flashWrite
  by_cases hdata : awaitsData h = true
  · have hmode := ht.program.mpr hdata
    have hnot : ¬ ReadsArray h := fun hr => by rw [ht.array.mpr hr] at hmode; cases hmode
    rw [if_pos hmode]
    refine ⟨⟨nofun, fun h => ?_⟩, fun o => ⟨fun h => absurd h.1 nofun, fun h => ?_⟩,
      ⟨nofun, fun h => ?_⟩⟩
    · rw [awaitsData, hdata] at h
      cases h
    · rw [eraseSetup, if_neg fun h' => by rw [hdata] at h'; cases h'.1] at h
      cases h
    · rw [ReadsArray, lastCommand, if_pos hdata] at h
      exact absurd h hnot
  · have hmode : b.flashMode ≠ .kFlashProgram := fun h => hdata (ht.program.mp h)
    have hcommand : awaitsData h = false := Bool.eq_false_iff.mpr hdata
    have hlast : ReadsArray (w :: h) ↔ w.cmd = 0xFF#8 ∨ w.cmd = 0x50#8 := by
      rw [ReadsArray, lastCommand, if_neg hdata]
      simp
    have hawaits : awaitsData (w :: h) = true ↔ w.cmd = 0x40#8 ∨ w.cmd = 0x10#8 := by
      rw [awaitsData, hcommand, Bool.not_false, Bool.true_and, decide_eq_true_iff]
    have hsetup : ∀ o, eraseSetup (w :: h) = some o ↔ w.cmd = 0x20#8 ∧ w.off = o := by
      intro o
      rw [eraseSetup, hcommand]
      by_cases h20 : w.cmd = 0x20#8
      · rw [if_pos ⟨rfl, h20⟩, Option.some_inj]
        exact ⟨fun h => ⟨h20, h⟩, fun h => h.2⟩
      · rw [if_neg fun h => h20 h.2]
        exact ⟨nofun, fun h => absurd h.1 h20⟩
    rw [if_neg hmode]
    change Tracks (w :: h) (if w.cmd = 0xFF#8 ∨ w.cmd = 0x50#8 then _
      else if w.cmd = 0x20#8 then _ else if w.cmd = 0x40#8 ∨ w.cmd = 0x10#8 then _ else _)
    refine ⟨Iff.trans ?_ hawaits.symm, fun o => Iff.trans ?_ (hsetup o).symm,
      Iff.trans ?_ hlast.symm⟩
    · generalize w.cmd = cmd
      split_ifs <;> grind
    · generalize w.cmd = cmd
      split_ifs <;> grind
    · generalize w.cmd = cmd
      split_ifs <;> grind

/-! ## What a write may do -/

/-- What is asked of a write: bits are set in the block of the erase setup before it and cleared
in the bytes of the data a program command waits for, and nothing else changes. -/
structure Obeys (size : ℕ) (h : List FlashWrite) (w : FlashWrite) (R R' : ℕ → U8) : Prop where
  sets : ∀ i k, (R i).getLsbD k = false → (R' i).getLsbD k = true →
    ∃ o, eraseSetup h = some o ∧ w.cmd = 0xD0#8 ∧ InBlock o i
  erased : ∀ o, eraseSetup h = some o → w.cmd = 0xD0#8 →
    ∀ i, InBlock o i → i < size → R' i = 0xFF#8
  clears : ∀ i k, (R i).getLsbD k = true → (R' i).getLsbD k = false →
    awaitsData h = true ∧ w.off.toNat ≤ i ∧ i < w.off.toNat + w.len
  programmed : awaitsData h = true → ∀ i, w.off.toNat ≤ i → i < w.off.toNat + w.len →
    R' i = R i &&& byteOf w.v w.len (i - w.off.toNat)
  others : awaitsData h = false → ¬ (w.cmd = 0xD0#8 ∧ ∃ o, eraseSetup h = some o) → R' = R

theorem flash_obeys {h : List FlashWrite} {b : SawtoothBus} {rom : ℕ → U8} (ht : Tracks h b)
    (w : FlashWrite) (hoff : w.off.toNat + w.len ≤ 2 ^ 32)
    (hin : w.off.toNat + w.len ≤ b.romSize) :
    Obeys b.romSize h w rom (b.flashImage w.off w.v w.len rom) := by
  by_cases hdata : awaitsData h = true
  · -- program data
    have hmode := ht.program.mpr hdata
    have hnone : ∀ o, eraseSetup h ≠ some o := fun o ho => by
      have he := ((ht.erase o).mpr ho).1
      rw [hmode] at he
      cases he
    have himage : ∀ i, b.flashImage w.off w.v w.len rom i
        = if w.off.toNat ≤ i ∧ i < w.off.toNat + w.len
          then rom i &&& byteOf w.v w.len (i - w.off.toNat) else rom i := by
      intro i
      rw [flashImage, if_pos hmode]
      exact programRom_at hin hoff i
    refine ⟨fun i k h₀ h₁ => ?_, fun o ho => absurd ho (hnone o), fun i k h₀ h₁ => ?_,
      fun _ i hlo hhi => ?_, fun hfalse => absurd hdata (Bool.eq_false_iff.mp hfalse)⟩
    · rw [himage] at h₁
      split at h₁
      · rw [BitVec.getLsbD_and, h₀] at h₁
        cases h₁
      · rw [h₀] at h₁
        cases h₁
    · rw [himage] at h₁
      split at h₁
      case isTrue hi => exact ⟨hdata, hi⟩
      case isFalse =>
        rw [h₀] at h₁
        cases h₁
    · rw [himage, if_pos ⟨hlo, hhi⟩]
  · have hmode : b.flashMode ≠ .kFlashProgram := fun h => hdata (ht.program.mp h)
    have hcommand : awaitsData h = false := Bool.eq_false_iff.mpr hdata
    by_cases herase : w.cmd = 0xD0#8 ∧ b.flashMode = .kFlashEraseSetup
    · -- an erase that was set up
      have ho := (ht.erase b.flashErase).mp ⟨herase.2, rfl⟩
      have himage : ∀ i, b.flashImage w.off w.v w.len rom i
          = if InBlock b.flashErase i ∧ i < b.romSize then 0xFF#8 else rom i := by
        intro i
        rw [flashImage, if_neg hmode]
        exact (congrFun (if_pos herase) i).trans (eraseRom_at i)
      refine ⟨fun i k h₀ h₁ => ⟨_, ho, herase.1, ?_⟩, fun o ho' _ i hi hlt => ?_,
        fun i k h₀ h₁ => ?_, fun h => absurd h hdata,
        fun _ hnot => absurd ⟨herase.1, _, ho⟩ hnot⟩
      · rw [himage] at h₁
        split at h₁
        case isTrue hi => exact hi.1
        case isFalse =>
          rw [h₀] at h₁
          cases h₁
      · obtain rfl := Option.some.inj (ho.symm.trans ho')
        rw [himage, if_pos ⟨hi, hlt⟩]
      · have hk : k < 8 := BitVec.lt_of_getLsbD h₀
        rw [himage] at h₁
        split at h₁
        · rw [show (0xFF#8 : U8) = BitVec.allOnes 8 from rfl, BitVec.getLsbD_allOnes] at h₁
          simp [hk] at h₁
        · rw [h₀] at h₁
          cases h₁
    · -- any other command
      have hsame : b.flashImage w.off w.v w.len rom = rom := by
        rw [flashImage, if_neg hmode]
        exact if_neg herase
      have hnot : ¬ (w.cmd = 0xD0#8 ∧ ∃ o, eraseSetup h = some o) := by
        rintro ⟨hcmd, o, ho⟩
        exact herase ⟨hcmd, ((ht.erase o).mpr ho).1⟩
      rw [hsame]
      refine ⟨fun i k h₀ h₁ => ?_, fun o ho hcmd => absurd ⟨hcmd, o, ho⟩ hnot,
        fun i k h₀ h₁ => ?_, fun h => absurd h hdata, fun _ _ => rfl⟩
      · rw [h₀] at h₁
        cases h₁
      · rw [h₀] at h₁
        cases h₁

/-! ## The window -/

/-- An access to the boot flash's window. -/
structure InFlash (b : SawtoothBus) (pa : U32) (len : ℕ) : Prop where
  base : kRomBase ≤ pa
  fits : (pa - kRomBase).toNat + len ≤ b.romSize
  ends : pa.toNat + len ≤ 2 ^ 32

/-- The access ends below the top of the address space. -/
def Below (pa : U32) (len : ℕ) : Prop := pa.toNat + len < 2 ^ 32

instance (pa : U32) (len : ℕ) : Decidable (Below pa len) := inferInstanceAs (Decidable (_ < _))

section window

variable {b : SawtoothBus} {pa : U32} {len : ℕ}

theorem rom_sub {c : U32} (h : kRomBase ≤ pa) (hc : c ≤ kRomBase) :
    (pa - c).toNat = pa.toNat - c.toNat :=
  BitVec.toNat_sub_of_le (BitVec.le_trans hc h)

theorem InFlash.offset_lt (h : b.InFlash pa len) : (pa - kRomBase).toNat < 2 ^ 20 := by
  have hlt := pa.isLt
  have hsub : (pa - kRomBase).toNat = pa.toNat - 0xFFF00000 := rom_sub h.base (by decide)
  omega

theorem InFlash.inRom (h : b.InFlash pa len) (hlen : len ≤ 4) : b.inRom pa len = true := by
  have hfits := h.fits
  have hlt := h.offset_lt
  simp only [SawtoothBus.inRom, Bool.and_eq_true, decide_eq_true_eq]
  refine ⟨h.base, ?_⟩
  rw [BitVec.toNat_add, BitVec.toNat_ofNat]
  omega

/-- The two words of eight bytes in the window. -/
theorem InFlash.halves (h : b.InFlash pa 8) : b.InFlash pa 4
    ∧ b.InFlash (pa + 4#32) 4 ∧ (pa + 4#32 - kRomBase).toNat = (pa - kRomBase).toNat + 4 := by
  have hfits := h.fits
  have hends := h.ends
  have hbase : 0xFFF00000 ≤ pa.toNat := h.base
  have hsub : (pa - kRomBase).toNat = pa.toNat - 0xFFF00000 := rom_sub h.base (by decide)
  have hsum : (pa + 4#32).toNat = pa.toNat + 4 := add_toNat (k := 4) (by omega)
  have hbase' : kRomBase ≤ pa + 4#32 := by
    rw [BitVec.le_def, hsum]
    exact hbase.trans (Nat.le_add_right _ 4)
  have hoff : (pa + 4#32 - kRomBase).toNat = (pa - kRomBase).toNat + 4 := by
    rw [BitVec.toNat_sub_of_le hbase', hsum, hsub]
    exact Nat.sub_add_comm hbase
  exact ⟨⟨h.base, by omega, by omega⟩, ⟨hbase', by omega, by omega⟩, hoff⟩

/-- What stands before the ROM on both sides lets the access by. -/
theorem place_window (hfree : ¬ b.Covered pa) (hbase : kRomBase ≤ pa) (len : ℕ)
    (otherwise : Place) :
    b.place (b.memoryPlace pa len otherwise) pa len = otherwise
      ∧ b.readBeyond pa len = b.memoryPlace pa len (if b.inRom pa len then
          if b.flashMode ≠ .kFlashArray then .flash (pa - kRomBase)
          else .store .rom (pa - kRomBase).toNat
        else bridgePlace pa len .unmapped) := by
  have hfast := not_ramFast (b := b) hbase
  simp only [Covered, hfast, true_and, not_or, ne_eq, Decidable.not_not] at hfree
  rcases hfree with ⟨hmacio, hohci, hatiRom, hio, hreg, hfb, hsz, hram⟩
  have hram' : ¬ b.inRam pa len = true := fun h => hram (inRam_one h)
  constructor
  · simp only [place, hfast, hmacio, hohci, memoryPlace]
    rw [if_neg Bool.false_ne_true, if_neg hio, if_neg hreg, if_neg hfb, if_neg hsz, if_neg hram']
  · rw [readBeyond, if_neg hatiRom]

theorem readPlace_window (hfree : ¬ b.Covered pa) (h : b.InFlash pa len) (hlen : len ≤ 4) :
    b.readPlace pa len
      = if b.flashMode ≠ .kFlashArray then .flash (pa - kRomBase)
        else .store .rom (pa - kRomBase).toNat := by
  rw [readPlace, (place_window hfree h.base len .unmapped).2,
    (place_window hfree h.base len _).1, if_pos (h.inRom hlen)]

/-- The bridge's windows are below the flash's. -/
theorem bridgePlace_window (h : kRomBase ≤ pa) (hbelow : Below pa len) (otherwise : Place) :
    bridgePlace pa len otherwise = otherwise := by
  have hpa : 0xFFF00000 ≤ pa.toNat := h
  have hend : (pa + BitVec.ofNat 32 len).toNat = pa.toNat + len := add_toNat hbelow
  have hi2c : inI2c pa len = false := by
    rw [inI2c, Bool.and_eq_false_iff]
    right
    rw [decide_eq_false_iff_not, BitVec.le_def, hend]
    change ¬ pa.toNat + len ≤ 0xF8001100
    omega
  have hunin : inUniN pa len = false := by
    rw [inUniN, Bool.and_eq_false_iff]
    right
    rw [decide_eq_false_iff_not, BitVec.le_def, hend]
    have hsmall : (kUniNBase + BitVec.ofNat 32 kUniNSize).toNat < 0xFFF00000 := by decide
    omega
  have htop : pa >>> 24 = 0xFF#32 := by
    apply BitVec.eq_of_toNat_eq
    have hlt := pa.isLt
    rw [BitVec.toNat_ushiftRight, Nat.shiftRight_eq_div_pow]
    change _ = 255
    omega
  have hcfg : cfgBus pa = none := by
    rw [cfgBus, htop]
    exact ite_self _
  rw [bridgePlace, hi2c, hunin, hcfg]
  rfl

theorem writePlace_window (hfree : ¬ b.Covered pa) (h : b.InFlash pa len) (hlen : len ≤ 4)
    (hbelow : Below pa len) : b.writePlace pa len = .flash (pa - kRomBase) := by
  rw [writePlace, writeBeyond, (place_window hfree h.base len _).1, bridgePlace_window h.base hbelow,
    if_pos (h.inRom hlen)]

theorem covered_flashWrite (off v a : U32) : (b.flashWrite off v).Covered a ↔ b.Covered a := by
  unfold flashWrite
  dsimp only
  split_ifs <;> exact Iff.rfl

theorem romSize_flashWrite (off v : U32) : (b.flashWrite off v).romSize = b.romSize := by
  unfold flashWrite
  dsimp only
  split_ifs <;> rfl

end window

/-! ## Runs -/

namespace FlashBus

/-- Runs of writes to the window, of any width, that `ok` lets be. The writes are collected, the
last first. -/
inductive Run (ok : U32 → ℕ → Prop) (s₀ : FlashBus) : List FlashWrite → FlashBus → Prop
  | start : Run ok s₀ [] s₀
  | write {h : List FlashWrite} {s : FlashBus} (pa v : U32) (w : Width) :
      Run ok s₀ h s → s.b.InFlash pa w.bytes → ok pa w.bytes →
        Run ok s₀ (⟨pa - kRomBase, v, w.bytes⟩ :: h) (s.write pa v w.bytes)

/-- What is asked of the flash after a run: the next write obeys the protocol, a store of eight
bytes as two writes, and reads return the image or the status. -/
structure Protocol (ok : U32 → ℕ → Prop) (h : List FlashWrite) (s : FlashBus) : Prop where
  write : ∀ (pa v : U32) (w : Width), s.b.InFlash pa w.bytes → ok pa w.bytes →
    Obeys s.b.romSize h ⟨pa - kRomBase, v, w.bytes⟩ s.rom (s.write pa v w.bytes).rom
  write64 : ∀ (pa : U32) (v : U64), s.b.InFlash pa 8 → ok pa 4 → ok (pa + 4#32) 4 →
    Obeys s.b.romSize h ⟨pa - kRomBase, (v >>> 32).setWidth 32, 4⟩ s.rom
        (s.write pa ((v >>> 32).setWidth 32) 4).rom
      ∧ Obeys s.b.romSize (⟨pa - kRomBase, (v >>> 32).setWidth 32, 4⟩ :: h)
        ⟨pa + 4#32 - kRomBase, v.setWidth 32, 4⟩ (s.write pa ((v >>> 32).setWidth 32) 4).rom
        (s.write64 pa v).rom
  array : ReadsArray h → ∀ other pa, (∀ w : Width, s.b.InFlash pa w.bytes →
      s.read other pa w.bytes = get s.m .rom (pa - kRomBase).toNat w.bytes)
    ∧ (s.b.InFlash pa 8 → s.read64 other pa
      = ((get s.m .rom (pa - kRomBase).toNat 4).setWidth 64 <<< 32)
        ||| (get s.m .rom ((pa - kRomBase).toNat + 4) 4).setWidth 64)
  status : ¬ ReadsArray h → ∀ other pa, (∀ w : Width, s.b.InFlash pa w.bytes →
      s.read other pa w.bytes = flashStatus w.bytes)
    ∧ (s.b.InFlash pa 8 → s.read64 other pa = 0x8080808080808080#64)

/-- What stands after every step. -/
structure Sound (h : List FlashWrite) (s : FlashBus) : Prop where
  tracks : Tracks h s.b
  free : ∀ a, kRomBase ≤ a → ¬ s.b.Covered a

variable {h : List FlashWrite} {s : FlashBus} {pa v : U32} {len : ℕ}

theorem write_window (hs : Sound h s) (hin : s.b.InFlash pa len) (hlen : len ≤ 4)
    (hbelow : Below pa len) :
    s.write pa v len = { b := s.b.flashWrite (pa - kRomBase) v
                         m := Function.update s.m .rom
                           (s.b.flashImage (pa - kRomBase) v len s.rom) } := by
  rw [write, writePlace_window (hs.free pa hin.base) hin hlen hbelow]

theorem Sound.write (hs : Sound h s) (v : U32) (hin : s.b.InFlash pa len) (hlen : len ≤ 4)
    (hbelow : Below pa len) : Sound (⟨pa - kRomBase, v, len⟩ :: h) (s.write pa v len) := by
  rw [write_window hs hin hlen hbelow]
  refine ⟨tracks_write hs.tracks ⟨pa - kRomBase, v, len⟩, fun a ha hcov => ?_⟩
  exact hs.free a ha ((covered_flashWrite _ _ _).mp hcov)

theorem Sound.obeys (hs : Sound h s) (v : U32) (hin : s.b.InFlash pa len) (hlen : len ≤ 4)
    (hbelow : Below pa len) :
    Obeys s.b.romSize h ⟨pa - kRomBase, v, len⟩ s.rom (s.write pa v len).rom := by
  have hoff := hin.offset_lt
  have himage : (s.write pa v len).rom = s.b.flashImage (pa - kRomBase) v len s.rom := by
    rw [write_window hs hin hlen hbelow]
    exact Function.update_self Region.rom _ s.m
  rw [himage]
  exact flash_obeys hs.tracks ⟨pa - kRomBase, v, len⟩ (by dsimp only; omega) hin.fits

theorem Sound.read (hs : Sound h s) (other : Place → U32) (hin : s.b.InFlash pa len)
    (hlen : len ≤ 4) : (ReadsArray h →
        s.read other pa len = get s.m .rom (pa - kRomBase).toNat len)
      ∧ (¬ ReadsArray h → s.read other pa len = flashStatus len) := by
  have hplace := readPlace_window (hs.free pa hin.base) hin hlen
  constructor
  · intro hr
    rw [FlashBus.read, SawtoothBus.read, hplace, if_neg (not_not.mpr (hs.tracks.array.mpr hr))]
    rfl
  · intro hr
    rw [FlashBus.read, SawtoothBus.read, hplace, if_pos fun hm => hr (hs.tracks.array.mp hm)]

theorem Sound.protocol (hs : Sound h s) : Protocol Below h s where
  write pa v w hin hbelow := hs.obeys v hin (bytes_le w) hbelow
  write64 pa v hin hlo hhi := by
    obtain ⟨hlow, hhigh, -⟩ := hin.halves
    have hfirst := hs.write ((v >>> 32).setWidth 32) hlow le_rfl hlo
    have hrom : (s.write pa ((v >>> 32).setWidth 32) 4).b.romSize = s.b.romSize := by
      rw [write_window hs hlow le_rfl hlo, romSize_flashWrite]
    have hhigh' : (s.write pa ((v >>> 32).setWidth 32) 4).b.InFlash (pa + 4#32) 4 :=
      ⟨hhigh.base, hrom ▸ hhigh.fits, hhigh.ends⟩
    exact ⟨hs.obeys _ hlow le_rfl hlo,
      hrom ▸ hfirst.obeys (v.setWidth 32) hhigh' le_rfl hhi⟩
  array hr other pa := by
    refine ⟨fun w hin => (hs.read other hin (bytes_le w)).1 hr, fun hin => ?_⟩
    obtain ⟨hlow, hhigh, hoff⟩ := hin.halves
    rw [read64, (hs.read other hlow le_rfl).1 hr, (hs.read other hhigh le_rfl).1 hr, hoff]
  status hr other pa := by
    refine ⟨fun w hin => (hs.read other hin (bytes_le w)).2 hr, fun hin => ?_⟩
    obtain ⟨hlow, hhigh, -⟩ := hin.halves
    rw [read64, (hs.read other hlow le_rfl).2 hr, (hs.read other hhigh le_rfl).2 hr]
    decide

theorem sound_of_run {s₀ : FlashBus} (hmode : s₀.b.flashMode = .kFlashArray)
    (hfree : ∀ a, kRomBase ≤ a → ¬ s₀.b.Covered a) (hrun : Run Below s₀ h s) : Sound h s := by
  induction hrun with
  | start => exact ⟨tracks_start hmode, hfree⟩
  | write pa v w _ hin hbelow ih => exact ih.write v hin (bytes_le w) hbelow

/-- **The boot flash changes by its protocol alone** in every run whose writes end below the top
of the address space. -/
theorem flash_protocol (s₀ s : FlashBus) (h : List FlashWrite)
    (hmode : s₀.b.flashMode = .kFlashArray) (hfree : ∀ a, kRomBase ≤ a → ¬ s₀.b.Covered a)
    (hrun : Run Below s₀ h s) : Protocol Below h s :=
  (sound_of_run hmode hfree hrun).protocol

/-! ## The machine after power-on -/

/-- A machine with an erased flash of 1 MB. -/
def powerOn : FlashBus := ⟨{ ramSize := 0x1000, romSize := 0x100000 }, fun _ _ => 0xFF#8⟩

theorem powerOn_free (a : U32) (ha : kRomBase ≤ a) : ¬ powerOn.b.Covered a := by
  have hbase : 0xFFF00000 ≤ a.toNat := ha
  have hlt := a.isLt
  rintro ⟨-, hcov⟩
  have hmacio : powerOn.b.macioOff a = none := by
    have hfixed : (a - kMacIoBase).toNat = a.toNat - 0xF3000000 := rom_sub ha (by decide)
    have hbar : (a - kMacIoBar).toNat = a.toNat - 0x80000000 := rom_sub ha (by decide)
    rw [macioOff, hfixed, hbar, kMacIoSize, if_neg (by omega), if_neg (by omega)]
    exact if_neg fun h => h.1 rfl
  have hohci : powerOn.b.ohciAt a = none := rfl
  have hsize : inSizeWin a = false := by
    have hwin : (a - kSizeWin).toNat = a.toNat - 0x78000000 := rom_sub ha (by decide)
    rw [inSizeWin, decide_eq_false_iff_not, BitVec.lt_def, hwin]
    change ¬ _ < 0x20000000
    omega
  have hram : powerOn.b.inRam a 1 = false := by
    have hsmall : ¬ a.toNat < powerOn.b.ramSize := by
      change ¬ _ < 0x1000
      omega
    rw [inRam, decide_eq_false hsmall, Bool.false_and]
  rw [hmacio, hohci, hsize, hram] at hcov
  simp [powerOn, inAtiIo, inAtiReg, inAtiFb] at hcov

theorem powerOn_erase_setup : Protocol Below [⟨0x6000#32, 0x20#32, 1⟩]
    (powerOn.write 0xFFF06000#32 0x20#32 1) :=
  flash_protocol powerOn _ _ rfl powerOn_free
    (.write 0xFFF06000#32 0x20#32 .byte .start ⟨by decide, by decide, by decide⟩ (by decide))

/-- The last byte of the flash: its address and one more is zero, and the bridge's I2C takes it. -/
theorem flash_protocol_not : ¬ ∀ (s₀ s : FlashBus) (h : List FlashWrite),
    s₀.b.flashMode = .kFlashArray → (∀ a, kRomBase ≤ a → ¬ s₀.b.Covered a) →
      Run (fun _ _ => True) s₀ h s → Protocol (fun _ _ => True) h s := by
  intro hall
  have hrun : Run (fun _ _ => True) powerOn [⟨0xFFFFF#32, 0x70#32, 1⟩]
      (powerOn.write 0xFFFFFFFF#32 0x70#32 1) :=
    .write 0xFFFFFFFF#32 0x70#32 .byte .start ⟨by decide, by decide, by decide⟩ trivial
  have hstatus := (hall powerOn _ _ rfl powerOn_free hrun).status (by decide) (fun _ => 0#32)
    0xFFF00000#32
  have hread := hstatus.1 .byte ⟨by decide, by decide, by decide⟩
  revert hread
  decide

end FlashBus

end SawtoothBus

end OpenPowerMac
