/-
The base registers of the PCI functions over whole runs: what they hold, what they read as, and the
windows the bus decodes for them (`cfgAccess`, `swapLanes`, `cfgSeed` and the seeds that the
constructor of `SawtoothBus` plants).

A base register is a mask with its type bits, a test of what it takes for an address, and the
window it moves. What it holds after a run is a function of the writes that hit it, and of no
others.
-/
import OpenPowerMac.Sawtooth
import Mathlib.Tactic.FinCases

set_option autoImplicit false

namespace OpenPowerMac

namespace SawtoothBus

/-! ## Reads -/

/-- `swapLanes`. -/
def swapLanes (word pa : U32) (len : ℕ) : U32 :=
  (List.range len).foldl
    (fun r k => (r <<< 8)
      ||| ((word >>> (8 * ((pa + BitVec.ofNat 32 k) &&& 3#32).toNat)) &&& 0xFF#32))
    0#32

/-- The register a data access names. -/
def cfgReg (latch pa : U32) : U32 := (latch &&& 0xFC#32) ||| (pa &&& 7#32)

/-- Where its word is kept. -/
def cfgKey (f : Fin 3) (latch pa : U32) : U32 :=
  ((BitVec.ofNat 32 f.val <<< 28) ||| (latch &&& 0x00FFFF00#32) ||| (latch &&& 0xFC#32)
    ||| (pa &&& 7#32)) &&& ~~~3#32

/-- The card is selected and answers no configuration cycles. -/
def CardHides (b : SawtoothBus) (f : Fin 3) : Prop :=
  f = 0 ∧ b.cfgAddr 0 &&& 0x0FFFFF00#32 = 0x00010000#32 ∧ b.atiHidden = true

instance (b : SawtoothBus) (f : Fin 3) : Decidable (b.CardHides f) :=
  inferInstanceAs (Decidable (_ ∧ _))

/-- The address is in the data window and not the latch. -/
def IsData (pa : U32) : Prop := ¬ pa &&& 0x00FFFFFF#32 < 0xC00000#32

instance (pa : U32) : Decidable (IsData pa) := inferInstanceAs (Decidable (¬ _))

/-- `cfgAccess` with `wr` clear. -/
def cfgRead (b : SawtoothBus) (f : Fin 3) (pa : U32) (len : ℕ) : U32 :=
  if ¬ IsData pa then swapLanes (b.cfgAddr f) pa len
  else if b.CardHides f then
    if len = 1 then 0xFF#32 else if len = 2 then 0xFFFF#32 else 0xFFFFFFFF#32
  else swapLanes ((b.cfgSpace (cfgKey f (b.cfgAddr f) pa)).getD 0xFFFFFFFF#32) pa len

/-! ## The seeds -/

/-- `cfgSeed`. -/
def cfgSeed (b : Fin 3) (latch nativeLeWord : U32) : U32 × U32 :=
  ((BitVec.ofNat 32 b.val <<< 28) ||| (latch &&& 0x00FFFF00#32)
    ||| ((latch &&& 0xFF#32) &&& 0xFC#32), nativeLeWord)

/-- Zeros from register 4 to `last`, but for those that were given a value. -/
def zeroSeeds (b : Fin 3) (sel : U32) (last : ℕ) (but : List ℕ) : List (U32 × U32) :=
  (((List.range (last / 4)).map fun i => 4 * (i + 1)).filter fun r => r ∉ but).map
    fun r => cfgSeed b (sel ||| BitVec.ofNat 32 r) 0#32

def kAtiSel : U32 := 0x00010000#32

/-- What the constructor plants, in its order. -/
def cfgSeeds (gSkipAgpCaps : Bool) : List (U32 × U32) :=
  [cfgSeed 1 kMacIoSel 0x0022106B#32, cfgSeed 1 (kMacIoSel ||| 0x08#32) 0xFF000003#32]
    ++ zeroSeeds 1 kMacIoSel 0x3C [8]
    ++ ([0, 1] : List (Fin 2)).flatMap (fun f =>
      [cfgSeed 1 (kOhciSel f) 0x0019106B#32, cfgSeed 1 (kOhciSel f ||| 0x08#32) 0x0C031001#32,
        cfgSeed 1 (kOhciSel f ||| 0x3C#32) 0x00000100#32]
      ++ zeroSeeds 1 (kOhciSel f) 0x38 [8])
    ++ [cfgSeed 1 0x2000#32 0x00261011#32, cfgSeed 1 0x2008#32 0x06040002#32,
      cfgSeed 1 0x200C#32 0x00010000#32]
    ++ zeroSeeds 1 0x2000#32 0x3C [8, 0xC]
    ++ ([(0, 0x0020106B#32), (1, 0x001E106B#32), (2, 0x001F106B#32)] : List (Fin 3 × U32)).flatMap
      (fun d => [cfgSeed d.1 0x800#32 d.2, cfgSeed d.1 0x808#32 0x06000000#32]
        ++ zeroSeeds d.1 0x800#32 0x3C [8])
    ++ (if gSkipAgpCaps then [] else
      [cfgSeed 0 0x804#32 0x00100000#32, cfgSeed 0 0x834#32 0x80#32,
        cfgSeed 0 0x880#32 0x00200002#32, cfgSeed 0 0x884#32 0x1F000207#32, cfgSeed 0 0x888#32 0#32,
        cfgSeed 0 0x88C#32 0#32, cfgSeed 0 0x890#32 0#32, cfgSeed 0 0x894#32 0#32,
        cfgSeed 0 0x898#32 0#32])
    ++ [cfgSeed 0 kAtiSel 0x50461002#32, cfgSeed 0 (kAtiSel ||| 0x08#32) 0x03000000#32,
      cfgSeed 0 (kAtiSel ||| 0x3C#32) 0x00000100#32]
    ++ zeroSeeds 0 kAtiSel 0x38 [8]
    ++ (if gSkipAgpCaps then [] else
      [cfgSeed 0 0x10004#32 0x00100000#32, cfgSeed 0 0x10034#32 0x50#32,
        cfgSeed 0 0x10050#32 0x00205C02#32, cfgSeed 0 0x10054#32 0x1F000207#32,
        cfgSeed 0 0x10058#32 0#32, cfgSeed 0 0x1005C#32 0x00010001#32, cfgSeed 0 0x10060#32 0#32])

/-- The store the seeds leave, a later seed over an earlier. -/
def planted (seeds : List (U32 × U32)) : U32 → Option U32 :=
  seeds.foldl (fun m s => Function.update m s.1 (some s.2)) fun _ => none

/-- The bus after its constructor, with the card's ROM image attached. -/
def poweredOn (ramSize romSize atiRomSize : ℕ) (gSkipAgpCaps : Bool) : SawtoothBus where
  ramSize := ramSize
  romSize := romSize
  atiRomSize := atiRomSize
  cfgSpace := planted (cfgSeeds gSkipAgpCaps)

/-! ## Base registers -/

/-- A base register: where it is, the bits that can be written and those that read as one, what it
takes for an address, and the window. -/
structure BaseReg where
  f : Fin 3
  sel : U32
  reg : U32
  keep : U32
  ones : U32
  takes : U32 → Bool
  base : U32 → U32
  window : SawtoothBus → U32

/-- A data write, as the register sees it. -/
structure CfgWrite where
  pa : U32
  v : U32
  len : ℕ

namespace BaseReg

variable (R : BaseReg)

def key : U32 := (BitVec.ofNat 32 R.f.val <<< 28) ||| R.sel ||| R.reg

/-- A word with the bits below the size cleared and the type bits fixed. -/
def typed (w : U32) : U32 := (w &&& R.keep) ||| R.ones

/-- The bytes written so far. -/
def raw : List CfgWrite → U32
  | [] => 0#32
  | w :: h => laneMerge (raw h) w.pa w.v w.len

/-- What the register holds. -/
def held : List CfgWrite → U32
  | [] => 0#32
  | w :: h => R.typed (raw (w :: h))

/-- The last base the register took. -/
def based : List CfgWrite → U32
  | [] => 0#32
  | w :: h => if R.takes (R.typed (raw (w :: h))) then R.base (R.typed (raw (w :: h))) else based h

/-- A data access of function `f` that reaches the register. -/
structure Hits (b : SawtoothBus) (f : Fin 3) (pa : U32) : Prop where
  data : IsData pa
  bus : f = R.f
  sel : b.cfgAddr f &&& 0x0FFFFF00#32 = R.sel
  reg : cfgReg (b.cfgAddr f) pa &&& ~~~3#32 = R.reg
  seen : ¬ b.CardHides f

end BaseReg

def macioReg : BaseReg where
  f := 1
  sel := kMacIoSel
  reg := 0x10#32
  keep := 0xFFF80000#32
  ones := 0#32
  takes w := decide (w ≠ 0xFFF80000#32 ∧ w ≠ 0#32)
  base := id
  window b := b.macioBar

def ohciReg (i : Fin 2) : BaseReg where
  f := 1
  sel := kOhciSel i
  reg := 0x10#32
  keep := 0xFFFFF000#32
  ones := 0#32
  takes w := decide (w ≠ 0xFFFFF000#32)
  base := id
  window b := b.ohciBar i

def atiFbReg : BaseReg where
  f := 0
  sel := kAtiSel
  reg := 0x10#32
  keep := 0xFC000000#32
  ones := 0#32
  takes w := decide (w ≠ 0xFC000000#32)
  base := id
  window b := b.atiFbBar

def atiIoReg : BaseReg where
  f := 0
  sel := kAtiSel
  reg := 0x14#32
  keep := 0xFFFFFF00#32
  ones := 1#32
  takes w := decide (w &&& 0xFFFFFF00#32 ≠ 0xFFFFFF00#32 ∧ w &&& 0xFFFFFF00#32 < 0x00100000#32)
  base w := w &&& 0xFFFFFF00#32
  window b := b.atiIoBar

def atiRegReg : BaseReg where
  f := 0
  sel := kAtiSel
  reg := 0x18#32
  keep := 0xFFFFC000#32
  ones := 0#32
  takes w := decide (w ≠ 0xFFFFC000#32)
  base := id
  window b := b.atiRegBar

/-- The expansion ROM, with its enable bit. -/
def atiRomReg : BaseReg where
  f := 0
  sel := kAtiSel
  reg := 0x30#32
  keep := 0xFFFE0001#32
  ones := 0#32
  takes w := decide (w &&& 0xFFFE0000#32 ≠ 0xFFFE0000#32)
  base := id
  window b := b.atiRomBar

/-- A register that is hardwired to zero. -/
def wiredReg (f : Fin 3) (sel reg : U32) : BaseReg where
  f := f
  sel := sel
  reg := reg
  keep := 0#32
  ones := 0#32
  takes _ := false
  base := id
  window _ := 0#32

/-- The base registers that are more than a store, with an image of `n` bytes in the card's ROM. -/
inductive IsBaseReg (n : ℕ) : BaseReg → Prop
  | macio : IsBaseReg n macioReg
  | ohci (i : Fin 2) : IsBaseReg n (ohciReg i)
  | fb : IsBaseReg n atiFbReg
  | io : IsBaseReg n atiIoReg
  | reg : IsBaseReg n atiRegReg
  | rom : n ≠ 0 → IsBaseReg n atiRomReg
  | noRom : n = 0 → IsBaseReg n (wiredReg 0 kAtiSel 0x30#32)
  | ohciWired (i : Fin 2) (r : U32) :
      r ∈ [0x14#32, 0x18#32, 0x1C#32, 0x20#32, 0x24#32, 0x28#32, 0x2C#32, 0x30#32] →
        IsBaseReg n (wiredReg 1 (kOhciSel i) r)
  | atiWired (r : U32) : r ∈ [0x1C#32, 0x20#32, 0x24#32, 0x28#32, 0x2C#32] →
      IsBaseReg n (wiredReg 0 kAtiSel r)

/-! ## Runs -/

/-- Configuration writes of any width, while the card hides and shows itself. The writes that hit
`R` are collected, the last first. -/
inductive BarRun (ok : SawtoothBus → Fin 3 → U32 → Prop) (R : BaseReg) (b₀ : SawtoothBus) :
    List CfgWrite → SawtoothBus → Prop
  | start : BarRun ok R b₀ [] b₀
  | hide {h : List CfgWrite} {b : SawtoothBus} (x : Bool) : BarRun ok R b₀ h b →
      BarRun ok R b₀ h { b with atiHidden := x }
  | hit {h : List CfgWrite} {b : SawtoothBus} (f : Fin 3) (pa v : U32) (w : Width) :
      BarRun ok R b₀ h b → ok b f pa → R.Hits b f pa →
        BarRun ok R b₀ (⟨pa, v, w.bytes⟩ :: h) (b.cfgWrite f pa v w.bytes)
  | other {h : List CfgWrite} {b : SawtoothBus} (f : Fin 3) (pa v : U32) (w : Width) :
      BarRun ok R b₀ h b → ok b f pa → ¬ R.Hits b f pa →
        BarRun ok R b₀ h (b.cfgWrite f pa v w.bytes)

/-- An access to the word of `R` begins with its first byte, while the latch's reserved bits are
clear. -/
def Whole (R : BaseReg) (b : SawtoothBus) (f : Fin 3) (pa : U32) : Prop :=
  IsData pa → cfgKey f (b.cfgAddr f) pa = R.key →
    pa &&& 3#32 = 0#32 ∧ b.cfgAddr f &&& 0x0F000000#32 = 0#32

/-- The register reads as what it holds, at every width and in every lane, and its window is at the
last base it took. -/
structure Stands (R : BaseReg) (h : List CfgWrite) (b : SawtoothBus) : Prop where
  reads : ∀ (pa : U32) (w : Width), R.Hits b R.f pa →
    b.cfgRead R.f pa w.bytes = swapLanes (R.held h) pa w.bytes
  window : R.window b = R.based h

/-! ## Lanes -/

/-- Of the bits under a mask, what is merged depends on those bits alone. -/
theorem laneMerge_and {w w' m : U32} (h : w &&& m = w' &&& m) (pa v : U32) (len : ℕ) :
    laneMerge w pa v len &&& m = laneMerge w' pa v len &&& m := by
  unfold laneMerge
  induction List.range len generalizing w w' with
  | nil => exact h
  | cons k ks ih =>
      rw [List.foldl_cons, List.foldl_cons]
      refine ih ?_
      dsimp only
      generalize ~~~(0xFF#32 <<< (8 * ((pa + BitVec.ofNat 32 k) &&& 3#32).toNat)) = x
      generalize ((v >>> (8 * (len - 1 - k))) &&& 0xFF#32)
        <<< (8 * ((pa + BitVec.ofNat 32 k) &&& 3#32).toNat) = y
      rw [BitVec.and_or_distrib_right, BitVec.and_or_distrib_right, BitVec.and_assoc,
        BitVec.and_comm x m, ← BitVec.and_assoc, h, BitVec.and_assoc, BitVec.and_comm m x,
        ← BitVec.and_assoc]

/-! ## Where the words are kept -/

theorem and_disjoint {x m m' : U32} (hx : x &&& m = x) (hm : m &&& m' = 0#32) :
    x &&& m' = 0#32 := by
  rw [← hx, BitVec.and_assoc, hm, BitVec.and_zero]

theorem bus_bits (f : Fin 3) :
    (BitVec.ofNat 32 f.val <<< 28 : U32) &&& 0xF0000000#32 = BitVec.ofNat 32 f.val <<< 28 := by
  revert f
  decide

theorem bus_inj {f g : Fin 3}
    (h : (BitVec.ofNat 32 f.val <<< 28 : U32) = BitVec.ofNat 32 g.val <<< 28) : f = g := by
  revert f g
  decide

/-- The function, the device and the register of a key. -/
theorem key_parts {f g : Fin 3} {s t r q : U32} (hs : s &&& 0x00FFFF00#32 = s)
    (ht : t &&& 0x00FFFF00#32 = t) (hr : r &&& 0xFC#32 = r) (hq : q &&& 0xFC#32 = q)
    (h : (BitVec.ofNat 32 f.val <<< 28) ||| s ||| r = (BitVec.ofNat 32 g.val <<< 28) ||| t ||| q) :
    f = g ∧ s = t ∧ r = q := by
  have part : ∀ m : U32, ((BitVec.ofNat 32 f.val <<< 28) &&& m) ||| (s &&& m) ||| (r &&& m)
      = ((BitVec.ofNat 32 g.val <<< 28) &&& m) ||| (t &&& m) ||| (q &&& m) := by
    intro m
    rw [← BitVec.and_or_distrib_right, ← BitVec.and_or_distrib_right, h,
      BitVec.and_or_distrib_right, BitVec.and_or_distrib_right]
  have hf := part 0xF0000000#32
  have hsel := part 0x00FFFF00#32
  have hreg := part 0xFC#32
  rw [bus_bits, bus_bits, and_disjoint hs (by decide), and_disjoint ht (by decide),
    and_disjoint hr (by decide), and_disjoint hq (by decide)] at hf
  rw [and_disjoint (bus_bits f) (by decide), and_disjoint (bus_bits g) (by decide), hs, ht,
    and_disjoint hr (by decide), and_disjoint hq (by decide)] at hsel
  rw [and_disjoint (bus_bits f) (by decide), and_disjoint (bus_bits g) (by decide),
    and_disjoint hs (by decide), and_disjoint ht (by decide), hr, hq] at hreg
  simp only [BitVec.or_zero, BitVec.zero_or] at hf hsel hreg
  exact ⟨bus_inj hf, hsel, hreg⟩

/-- The register of an access, rounded down. -/
theorem cfgReg_low (latch pa : U32) :
    (cfgReg latch pa &&& ~~~3#32) &&& 0xFC#32 = cfgReg latch pa &&& ~~~3#32 := by
  rw [cfgReg, BitVec.and_assoc, BitVec.and_or_distrib_right, BitVec.and_or_distrib_right,
    BitVec.and_assoc, BitVec.and_assoc, BitVec.and_assoc, BitVec.and_assoc]
  rfl

theorem cfgKey_eq (f : Fin 3) (latch pa : U32) : cfgKey f latch pa
    = (BitVec.ofNat 32 f.val <<< 28) ||| (latch &&& 0x00FFFF00#32)
      ||| (cfgReg latch pa &&& ~~~3#32) := by
  have hbus : (BitVec.ofNat 32 f.val <<< 28 : U32) &&& ~~~3#32 = BitVec.ofNat 32 f.val <<< 28 := by
    revert f
    decide
  rw [cfgKey, cfgReg, BitVec.or_assoc _ (latch &&& 0xFC#32), BitVec.and_or_distrib_right,
    BitVec.and_or_distrib_right, hbus, BitVec.and_assoc latch 0x00FFFF00#32]
  rfl

/-- The reserved bits clear, the device selected is the one the key names. -/
theorem sel_eq {latch : U32} (h : latch &&& 0x0F000000#32 = 0#32) :
    latch &&& 0x0FFFFF00#32 = latch &&& 0x00FFFF00#32 := by
  rw [show (0x0FFFFF00#32 : U32) = 0x0F000000#32 ||| 0x00FFFF00#32 from rfl,
    BitVec.and_or_distrib_left, h, BitVec.zero_or]

theorem sel_bits (latch : U32) :
    (latch &&& 0x00FFFF00#32) &&& 0x00FFFF00#32 = latch &&& 0x00FFFF00#32 := by
  rw [BitVec.and_assoc, BitVec.and_self]

/-! ## What a configuration write does -/

/-- What a write to a configuration register leaves of the bus: it moves no window, or the one its
register is for. -/
inductive Latched (b : SawtoothBus) (f : Fin 3) (sel reg : U32) : SawtoothBus → Prop
  | still : Latched b f sel reg b
  | macio (w : U32) : f = 1 ∧ sel = kMacIoSel ∧ reg = 0x10#32 →
      Latched b f sel reg { b with macioBar := w }
  | ohci (i : Fin 2) (w : U32) : f = 1 ∧ sel = kOhciSel i ∧ reg = 0x10#32 →
      Latched b f sel reg { b with ohciBar := Function.update b.ohciBar i w }
  | fb (w : U32) : f = 0 ∧ sel = kAtiSel ∧ reg = 0x10#32 →
      Latched b f sel reg { b with atiFbBar := w }
  | io (w : U32) : f = 0 ∧ sel = kAtiSel ∧ reg = 0x14#32 →
      Latched b f sel reg { b with atiIoBar := w }
  | reg (w : U32) : f = 0 ∧ sel = kAtiSel ∧ reg = 0x18#32 →
      Latched b f sel reg { b with atiRegBar := w }
  | rom (w : U32) : f = 0 ∧ sel = kAtiSel ∧ reg = 0x30#32 →
      Latched b f sel reg { b with atiRomBar := w }

theorem Latched.ite {b b' : SawtoothBus} {f : Fin 3} {sel reg : U32} {p : Prop} [Decidable p]
    (h : Latched b f sel reg b') : Latched b f sel reg (if p then b' else b) := by
  split
  · exact h
  · exact .still

theorem latched (b : SawtoothBus) (f : Fin 3) (sel reg word : U32) :
    Latched b f sel reg (b.latchBars f sel reg word).1 := by
  unfold latchBars
  by_cases hmac : f = 1 ∧ sel = kMacIoSel ∧ reg = 0x10#32
  · rw [if_pos hmac]
    exact (Latched.macio _ hmac).ite
  rw [if_neg hmac]
  by_cases husb : f = 1 ∧ (sel = kOhciSel 0 ∨ sel = kOhciSel 1)
  · rw [if_pos husb]
    by_cases hbase : reg = 0x10#32
    · rw [if_pos hbase]
      refine (Latched.ohci _ _ ⟨husb.1, ?_, hbase⟩).ite
      split
      · assumption
      · exact husb.2.resolve_left ‹_›
    · rw [if_neg hbase]
      split <;> exact .still
  rw [if_neg husb]
  by_cases hcard : f = 0 ∧ sel = 0x00010000#32
  · rw [if_pos hcard]
    by_cases hfb : reg = 0x10#32
    · rw [if_pos hfb]
      exact (Latched.fb _ ⟨hcard.1, hcard.2, hfb⟩).ite
    rw [if_neg hfb]
    by_cases hio : reg = 0x14#32
    · rw [if_pos hio]
      exact (Latched.io _ ⟨hcard.1, hcard.2, hio⟩).ite
    rw [if_neg hio]
    by_cases hreg : reg = 0x18#32
    · rw [if_pos hreg]
      exact (Latched.reg _ ⟨hcard.1, hcard.2, hreg⟩).ite
    rw [if_neg hreg]
    by_cases hrom : reg = 0x30#32
    · rw [if_pos hrom]
      split
      · exact .still
      · exact (Latched.rom _ ⟨hcard.1, hcard.2, hrom⟩).ite
    · rw [if_neg hrom]
      split <;> exact .still
  · rw [if_neg hcard]
    exact .still

theorem Latched.frame {b b' : SawtoothBus} {f : Fin 3} {sel reg : U32}
    (h : Latched b f sel reg b') : b'.atiRomSize = b.atiRomSize ∧ b'.cfgAddr = b.cfgAddr
      ∧ b'.cfgSpace = b.cfgSpace := by
  cases h <;> exact ⟨rfl, rfl, rfl⟩

/-- What `latchBars` makes of a register's word, and that it leaves the window alone elsewhere. -/
structure Sized (R : BaseReg) (n : ℕ) : Prop where
  sel : R.sel &&& 0x00FFFF00#32 = R.sel
  reg : R.reg &&& 0xFC#32 = R.reg
  apart : R.ones &&& R.keep = 0#32
  stored : ∀ (b : SawtoothBus) (word : U32), b.atiRomSize = n →
    (b.latchBars R.f R.sel R.reg word).2 = R.typed word
  moved : ∀ (b : SawtoothBus) (word : U32), b.atiRomSize = n →
    R.window (b.latchBars R.f R.sel R.reg word).1
      = if R.takes (R.typed word) then R.base (R.typed word) else R.window b
  elsewhere : ∀ (b b' : SawtoothBus) (f : Fin 3) (sel reg : U32), Latched b f sel reg b' →
    ¬ (f = R.f ∧ sel = R.sel ∧ reg = R.reg) → R.window b' = R.window b
  frame : ∀ (b : SawtoothBus) (addr : Fin 3 → U32) (space : U32 → Option U32) (x : Bool),
    R.window { b with cfgAddr := addr, cfgSpace := space, atiHidden := x } = R.window b

/-! ## The registers -/

theorem moved_ite (window : SawtoothBus → U32) (p : Prop) [Decidable p] (b' b : SawtoothBus) :
    window (if p then b' else b) = if decide p then window b' else window b := by
  split_ifs with hp hq hq
  · rfl
  · exact absurd (decide_eq_true hp) hq
  · exact absurd (of_decide_eq_true hq) hp
  · rfl

theorem latchBars_macio (b : SawtoothBus) (word : U32) :
    b.latchBars 1 kMacIoSel 0x10#32 word
      = (if word &&& 0xFFF80000#32 ≠ 0xFFF80000#32 ∧ word &&& 0xFFF80000#32 ≠ 0#32 then
          { b with macioBar := word &&& 0xFFF80000#32 }
        else b, word &&& 0xFFF80000#32) :=
  rfl

theorem sized_macio (n : ℕ) : Sized macioReg n where
  sel := by decide
  reg := by decide
  apart := by decide
  stored b word _ := by
    rw [macioReg, latchBars_macio]
    exact (BitVec.or_zero).symm
  moved b word _ := by
    rw [macioReg, latchBars_macio]
    rw [BaseReg.typed, BitVec.or_zero]
    exact moved_ite _ _ _ _
  elsewhere b b' f sel reg hl hmiss := by
    cases hl with
    | macio w hat => exact absurd hat hmiss
    | _ => rfl
  frame _ _ _ _ := rfl

/-- The two functions are told apart by their selector. -/
theorem latchBars_ohci (b : SawtoothBus) (i : Fin 2) (word : U32) :
    b.latchBars 1 (kOhciSel i) 0x10#32 word
      = (if word &&& 0xFFFFF000#32 ≠ 0xFFFFF000#32 then
          { b with ohciBar := Function.update b.ohciBar i (word &&& 0xFFFFF000#32) }
        else b, word &&& 0xFFFFF000#32) := by
  obtain rfl | rfl : i = 0 ∨ i = 1 := by
    revert i
    decide
  · rfl
  · rfl

theorem sized_ohci (n : ℕ) (i : Fin 2) : Sized (ohciReg i) n where
  sel := by
    revert i
    decide
  reg := by
    change (0x10#32 &&& 0xFC#32 : U32) = 0x10#32
    decide
  apart := BitVec.zero_and
  stored b word _ := by
    rw [ohciReg, latchBars_ohci]
    exact (BitVec.or_zero).symm
  moved b word _ := by
    rw [ohciReg, latchBars_ohci]
    rw [BaseReg.typed, BitVec.or_zero]
    have hite := moved_ite (fun c => c.ohciBar i) (word &&& 0xFFFFF000#32 ≠ 0xFFFFF000#32)
    refine (hite _ _).trans ?_
    exact congrArg (fun x => if decide (word &&& 0xFFFFF000#32 ≠ 0xFFFFF000#32) then x
      else b.ohciBar i) (Function.update_self i _ b.ohciBar)
  elsewhere b b' f sel reg hl hmiss := by
    cases hl with
    | ohci j w hat =>
        refine Function.update_of_ne ?_ _ _
        rintro rfl
        exact hmiss hat
    | _ => rfl
  frame _ _ _ _ := rfl

theorem latchBars_fb (b : SawtoothBus) (word : U32) :
    b.latchBars 0 kAtiSel 0x10#32 word
      = (if word &&& 0xFC000000#32 ≠ 0xFC000000#32 then
          { b with atiFbBar := word &&& 0xFC000000#32 }
        else b, word &&& 0xFC000000#32) :=
  rfl

theorem sized_fb (n : ℕ) : Sized atiFbReg n where
  sel := by decide
  reg := by decide
  apart := by decide
  stored b word _ := by
    rw [atiFbReg, latchBars_fb]
    exact (BitVec.or_zero).symm
  moved b word _ := by
    rw [atiFbReg, latchBars_fb]
    rw [BaseReg.typed, BitVec.or_zero]
    exact moved_ite _ _ _ _
  elsewhere b b' f sel reg hl hmiss := by
    cases hl with
    | fb w hat => exact absurd hat hmiss
    | _ => rfl
  frame _ _ _ _ := rfl

theorem latchBars_io (b : SawtoothBus) (word : U32) :
    b.latchBars 0 kAtiSel 0x14#32 word
      = (if ((word &&& 0xFFFFFF00#32) ||| 1#32) &&& 0xFFFFFF00#32 ≠ 0xFFFFFF00#32
            ∧ ((word &&& 0xFFFFFF00#32) ||| 1#32) &&& 0xFFFFFF00#32 < 0x00100000#32 then
          { b with atiIoBar := ((word &&& 0xFFFFFF00#32) ||| 1#32) &&& 0xFFFFFF00#32 }
        else b, (word &&& 0xFFFFFF00#32) ||| 1#32) :=
  rfl

theorem sized_io (n : ℕ) : Sized atiIoReg n where
  sel := by decide
  reg := by decide
  apart := by decide
  stored b word _ := by
    rw [atiIoReg, latchBars_io]
    rfl
  moved b word _ := by
    rw [atiIoReg, latchBars_io]
    exact moved_ite _ _ _ _
  elsewhere b b' f sel reg hl hmiss := by
    cases hl with
    | io w hat => exact absurd hat hmiss
    | _ => rfl
  frame _ _ _ _ := rfl

theorem latchBars_reg (b : SawtoothBus) (word : U32) :
    b.latchBars 0 kAtiSel 0x18#32 word
      = (if word &&& 0xFFFFC000#32 ≠ 0xFFFFC000#32 then
          { b with atiRegBar := word &&& 0xFFFFC000#32 }
        else b, word &&& 0xFFFFC000#32) :=
  rfl

theorem sized_reg (n : ℕ) : Sized atiRegReg n where
  sel := by decide
  reg := by decide
  apart := by decide
  stored b word _ := by
    rw [atiRegReg, latchBars_reg]
    exact (BitVec.or_zero).symm
  moved b word _ := by
    rw [atiRegReg, latchBars_reg]
    rw [BaseReg.typed, BitVec.or_zero]
    exact moved_ite _ _ _ _
  elsewhere b b' f sel reg hl hmiss := by
    cases hl with
    | reg w hat => exact absurd hat hmiss
    | _ => rfl
  frame _ _ _ _ := rfl

/-- The image's base and the enable bit. -/
theorem rom_word (w : U32) :
    (w &&& 0xFFFE0000#32) ||| (w &&& 1#32) = (w &&& 0xFFFE0001#32) ||| 0#32 := by
  rw [← BitVec.and_or_distrib_left, BitVec.or_zero]
  rfl

theorem latchBars_rom (b : SawtoothBus) (word : U32) (hrom : b.atiRomSize ≠ 0) :
    b.latchBars 0 kAtiSel 0x30#32 word
      = (if (word &&& 0xFFFE0001#32) &&& 0xFFFE0000#32 ≠ 0xFFFE0000#32 then
          { b with atiRomBar := word &&& 0xFFFE0001#32 }
        else b, word &&& 0xFFFE0001#32) := by
  rw [← BitVec.or_zero (x := word &&& 0xFFFE0001#32), ← rom_word]
  exact if_neg hrom

theorem sized_rom {n : ℕ} (hn : n ≠ 0) : Sized atiRomReg n where
  sel := by decide
  reg := by decide
  apart := by decide
  stored b word hb := by
    rw [atiRomReg, latchBars_rom b word (hb.trans_ne hn)]
    exact (BitVec.or_zero).symm
  moved b word hb := by
    rw [atiRomReg, latchBars_rom b word (hb.trans_ne hn)]
    rw [BaseReg.typed, BitVec.or_zero]
    exact moved_ite _ _ _ _
  elsewhere b b' f sel reg hl hmiss := by
    cases hl with
    | rom w hat => exact absurd hat hmiss
    | _ => rfl
  frame _ _ _ _ := rfl

/-- A register is hardwired to zero where `latchBars` clears every word for it. -/
theorem sized_wired {n : ℕ} {f : Fin 3} {sel reg : U32} (hsel : sel &&& 0x00FFFF00#32 = sel)
    (hreg : reg &&& 0xFC#32 = reg)
    (hzero : ∀ (b : SawtoothBus) (word : U32), b.atiRomSize = n →
      (b.latchBars f sel reg word).2 = 0#32) : Sized (wiredReg f sel reg) n where
  sel := hsel
  reg := hreg
  apart := BitVec.zero_and
  stored b word hb := by
    rw [BaseReg.typed]
    change _ = (word &&& 0#32) ||| 0#32
    rw [BitVec.or_zero, BitVec.and_zero]
    exact hzero b word hb
  moved _ _ _ := rfl
  elsewhere _ _ _ _ _ _ _ := rfl
  frame _ _ _ _ := rfl

theorem IsBaseReg.sized {n : ℕ} {R : BaseReg} (hR : IsBaseReg n R) : Sized R n := by
  cases hR with
  | macio => exact sized_macio n
  | ohci i => exact sized_ohci n i
  | fb => exact sized_fb n
  | io => exact sized_io n
  | reg => exact sized_reg n
  | rom hn => exact sized_rom hn
  | noRom hn =>
      refine sized_wired (by decide) (by decide) fun b word hb => ?_
      have hrom : b.atiRomSize = 0 := hb.trans hn
      simp [latchBars, kAtiSel, hrom]
  | ohciWired i r hr =>
      fin_cases hr <;> refine sized_wired (by revert i; decide) (by decide) fun b word _ => ?_ <;>
        fin_cases i <;> rfl
  | atiWired r hr =>
      fin_cases hr <;> exact sized_wired (by decide) (by decide) fun b word _ => rfl

/-! ## Single writes -/

/-- Every base register is seeded with zero. -/
theorem IsBaseReg.seeded {R : BaseReg} {n : ℕ} (hR : IsBaseReg n R) (skip : Bool) :
    planted (cfgSeeds skip) R.key = some 0#32 := by
  cases hR with
  | macio => cases skip <;> decide +kernel
  | ohci i => revert i; cases skip <;> decide +kernel
  | fb => cases skip <;> decide +kernel
  | io => cases skip <;> decide +kernel
  | reg => cases skip <;> decide +kernel
  | rom _ => cases skip <;> decide +kernel
  | noRom _ => cases skip <;> decide +kernel
  | ohciWired i r hr => fin_cases hr <;> revert i <;> cases skip <;> decide +kernel
  | atiWired r hr => fin_cases hr <;> cases skip <;> decide +kernel

theorem poweredOn_cfgSpace (ramSize romSize n : ℕ) (skip : Bool) :
    (poweredOn ramSize romSize n skip).cfgSpace = planted (cfgSeeds skip) := by
  rw [poweredOn]

theorem poweredOn_cfgAddr (ramSize romSize n : ℕ) (skip : Bool) :
    (poweredOn ramSize romSize n skip).cfgAddr = fun _ => 0#32 := by
  rw [poweredOn]

theorem poweredOn_atiRomSize (ramSize romSize n : ℕ) (skip : Bool) :
    (poweredOn ramSize romSize n skip).atiRomSize = n := by
  rw [poweredOn]

/-- The windows are closed. -/
theorem IsBaseReg.dark {R : BaseReg} {n : ℕ} (hR : IsBaseReg n R) (ramSize romSize : ℕ)
    (skip : Bool) : R.window (poweredOn ramSize romSize n skip) = 0#32 := by
  cases hR <;> rfl

section writes

variable {b : SawtoothBus} {f : Fin 3} {pa v : U32} {len : ℕ} {R : BaseReg} {n : ℕ}
  {h : List CfgWrite}

theorem cfgWrite_latch (hlatch : ¬ IsData pa) : b.cfgWrite f pa v len
    = { b with cfgAddr := Function.update b.cfgAddr f (laneMerge (b.cfgAddr f) pa v len) } :=
  if_pos (not_not.mp hlatch)

theorem cfgWrite_hidden (hdata : IsData pa) (hides : b.CardHides f) :
    b.cfgWrite f pa v len = b := by
  rw [cfgWrite, if_neg hdata]
  exact if_pos hides

/-- The word a data write is merged into, and what `latchBars` makes of the two. -/
def composed (b : SawtoothBus) (f : Fin 3) (pa v : U32) (len : ℕ) : SawtoothBus × U32 :=
  b.latchBars f (b.cfgAddr f &&& 0x0FFFFF00#32) (cfgReg (b.cfgAddr f) pa)
    (laneMerge ((b.cfgSpace (cfgKey f (b.cfgAddr f) pa)).getD 0#32) pa v len)

theorem cfgWrite_data (hdata : IsData pa) (hseen : ¬ b.CardHides f) : b.cfgWrite f pa v len
    = { (b.composed f pa v len).1 with
        cfgSpace := Function.update (b.composed f pa v len).1.cfgSpace
          (cfgKey f (b.cfgAddr f) pa) (some (b.composed f pa v len).2) } := by
  rw [cfgWrite, if_neg hdata]
  exact if_neg hseen

theorem cfgWrite_latch_addr (hlatch : ¬ IsData pa) :
    (b.cfgWrite f pa v len).cfgAddr f = laneMerge (b.cfgAddr f) pa v len := by
  rw [cfgWrite_latch hlatch]
  exact Function.update_self _ _ _

theorem cfgWrite_data_addr (hdata : IsData pa) : (b.cfgWrite f pa v len).cfgAddr = b.cfgAddr := by
  by_cases hides : b.CardHides f
  · rw [cfgWrite_hidden hdata hides]
  · rw [cfgWrite_data hdata hides]
    exact (latched b f _ _ _).frame.2.1

/-- An access from a register's first byte on names the register. -/
theorem cfgReg_whole (latch : U32) (hpa : pa &&& 3#32 = 0#32) :
    cfgReg latch pa &&& ~~~3#32 = cfgReg latch pa := by
  have hlow : pa &&& 7#32 = pa &&& 4#32 := by
    rw [show (7#32 : U32) = 4#32 ||| 3#32 from rfl, BitVec.and_or_distrib_left, hpa,
      BitVec.or_zero]
  rw [cfgReg, hlow, BitVec.and_or_distrib_right, BitVec.and_assoc, BitVec.and_assoc]
  rfl

theorem reg_aligned {r : U32} (h : r &&& 0xFC#32 = r) : r &&& ~~~3#32 = r := by
  rw [← h, BitVec.and_assoc]
  rfl

theorem BaseReg.Hits.key (hhits : R.Hits b f pa) (hsel : R.sel &&& 0x00FFFF00#32 = R.sel) :
    cfgKey f (b.cfgAddr f) pa = R.key := by
  have hnarrow : b.cfgAddr f &&& 0x00FFFF00#32 = R.sel := by
    rw [show (0x00FFFF00#32 : U32) = 0x0FFFFF00#32 &&& 0x00FFFF00#32 from rfl, ← BitVec.and_assoc,
      hhits.sel, hsel]
  rw [cfgKey_eq, hnarrow, hhits.reg, hhits.bus]
  rfl

/-- A key of the reserved bits clear is the register's only where the access is. -/
theorem hits_of_key (hR : Sized R n) (hdata : IsData pa) (hseen : ¬ b.CardHides f)
    (hclear : b.cfgAddr f &&& 0x0F000000#32 = 0#32)
    (hkey : cfgKey f (b.cfgAddr f) pa = R.key) : R.Hits b f pa := by
  rw [cfgKey_eq] at hkey
  obtain ⟨hbus, hsel, hreg⟩ :=
    key_parts (sel_bits (b.cfgAddr f)) hR.sel (cfgReg_low (b.cfgAddr f) pa) hR.reg hkey
  exact ⟨hdata, hbus, (sel_eq hclear).trans hsel, hreg, hseen⟩

theorem typed_congr {w w' : U32} (h : w &&& R.keep = w' &&& R.keep) : R.typed w = R.typed w' := by
  rw [BaseReg.typed, BaseReg.typed, h]

/-- Under the mask, the register holds the bytes written so far. -/
theorem held_and (hR : Sized R n) (h : List CfgWrite) :
    R.held h &&& R.keep = BaseReg.raw h &&& R.keep := by
  cases h with
  | nil => rfl
  | cons w h =>
      rw [BaseReg.held, BaseReg.typed, BitVec.and_or_distrib_right, hR.apart, BitVec.or_zero,
        BitVec.and_assoc, BitVec.and_self]

/-! ## Runs of writes -/

/-- What stands after every step. -/
structure Kept (R : BaseReg) (n : ℕ) (h : List CfgWrite) (b : SawtoothBus) : Prop where
  romSize : b.atiRomSize = n
  cell : b.cfgSpace R.key = some (R.held h)
  window : R.window b = R.based h

theorem Kept.hit (hkept : Kept R n h b) (hR : Sized R n) (hwhole : Whole R b f pa)
    (hhits : R.Hits b f pa) : Kept R n (⟨pa, v, len⟩ :: h) (b.cfgWrite f pa v len) := by
  have hkey := hhits.key hR.sel
  have hreg : cfgReg (b.cfgAddr f) pa = R.reg := by
    rw [← hhits.reg, cfgReg_whole _ (hwhole hhits.data hkey).1]
  have hword : R.typed (laneMerge (R.held h) pa v len)
      = R.typed (BaseReg.raw (⟨pa, v, len⟩ :: h)) :=
    typed_congr (laneMerge_and (held_and hR h) pa v len)
  have hcomposed : b.composed f pa v len
      = b.latchBars R.f R.sel R.reg (laneMerge (R.held h) pa v len) := by
    rw [composed, hkey, hkept.cell, hhits.sel, hreg, hhits.bus]
    rfl
  rw [cfgWrite_data hhits.data hhits.seen, hcomposed, hkey]
  refine ⟨?_, ?_, ?_⟩
  · exact (latched b _ _ _ _).frame.1.trans hkept.romSize
  · change Function.update _ _ _ _ = _
    rw [Function.update_self, hR.stored b _ hkept.romSize, hword]
    rfl
  · rw [hR.frame _ (b.latchBars R.f R.sel R.reg (laneMerge (R.held h) pa v len)).1.cfgAddr _
      (b.latchBars R.f R.sel R.reg (laneMerge (R.held h) pa v len)).1.atiHidden,
      hR.moved b _ hkept.romSize, hword, hkept.window]
    rfl

theorem Kept.other (hkept : Kept R n h b) (hR : Sized R n) (hwhole : Whole R b f pa)
    (hmiss : ¬ R.Hits b f pa) : Kept R n h (b.cfgWrite f pa v len) := by
  by_cases hdata : IsData pa
  · by_cases hides : b.CardHides f
    · rw [cfgWrite_hidden hdata hides]
      exact hkept
    · have hkey : R.key ≠ cfgKey f (b.cfgAddr f) pa := fun heq =>
        hmiss (hits_of_key hR hdata hides (hwhole hdata heq.symm).2 heq.symm)
      have hlatched : Latched b f _ _ (b.composed f pa v len).1 := latched b f _ _ _
      obtain ⟨hrom, -, hspace⟩ := hlatched.frame
      rw [cfgWrite_data hdata hides]
      refine ⟨hrom.trans hkept.romSize, ?_, ?_⟩
      · change Function.update _ _ _ _ = _
        rw [Function.update_of_ne hkey]
        exact (congrFun hspace R.key).trans hkept.cell
      · rw [hR.frame _ (b.composed f pa v len).1.cfgAddr _ (b.composed f pa v len).1.atiHidden]
        refine (hR.elsewhere b _ _ _ _ hlatched ?_).trans hkept.window
        rintro ⟨hbus, hsel, hreg⟩
        exact hmiss ⟨hdata, hbus, hsel, by rw [hreg, reg_aligned hR.reg], hides⟩
  · rw [cfgWrite_latch hdata]
    exact ⟨hkept.romSize, hkept.cell,
      (hR.frame b _ b.cfgSpace b.atiHidden).trans hkept.window⟩

theorem Kept.start (hR : IsBaseReg n R) (ramSize romSize : ℕ) (skip : Bool) :
    Kept R n [] (poweredOn ramSize romSize n skip) := by
  refine ⟨poweredOn_atiRomSize ramSize romSize n skip, ?_, hR.dark ramSize romSize skip⟩
  rw [poweredOn_cfgSpace, hR.seeded skip, BaseReg.held]

theorem Kept.run {b₀ : SawtoothBus} (hR : Sized R n) (hstart : Kept R n [] b₀)
    (hrun : BarRun (Whole R) R b₀ h b) : Kept R n h b := by
  induction hrun with
  | start => exact hstart
  | hide x _ ih => exact ⟨ih.romSize, ih.cell, (hR.frame _ _ _ x).trans ih.window⟩
  | hit f pa v w _ hwhole hhits ih => exact ih.hit hR hwhole hhits
  | other f pa v w _ hwhole hmiss ih => exact ih.other hR hwhole hmiss

theorem Kept.stands (hkept : Kept R n h b) (hR : Sized R n) : Stands R h b where
  reads pa w hhits := by
    rw [cfgRead, if_neg (not_not.mpr hhits.data), if_neg hhits.seen, hhits.key hR.sel, hkept.cell]
    rfl
  window := hkept.window

end writes

/-- The bits that are held of a base register are those written to it, whatever else is written. Its
window follows the bases it takes. -/
theorem base_registers (ramSize romSize n : ℕ) (gSkipAgpCaps : Bool) (R : BaseReg)
    (hR : IsBaseReg n R) (h : List CfgWrite) (b : SawtoothBus)
    (hrun : BarRun (Whole R) R (poweredOn ramSize romSize n gSkipAgpCaps) h b) :
    Stands R h b := by
  have hstart := Kept.start hR ramSize romSize gSkipAgpCaps
  exact (hstart.run hR.sized hrun).stands hR.sized

theorem BarRun.mono {ok ok' : SawtoothBus → Fin 3 → U32 → Prop} {R : BaseReg}
    {b₀ b : SawtoothBus} {h : List CfgWrite} (hle : ∀ b f pa, ok b f pa → ok' b f pa)
    (hrun : BarRun ok R b₀ h b) : BarRun ok' R b₀ h b := by
  induction hrun with
  | start => exact .start
  | hide x _ ih => exact .hide x ih
  | hit f pa v w _ hok hhits ih => exact .hit f pa v w ih (hle _ _ _ hok) hhits
  | other f pa v w _ hok hmiss ih => exact .other f pa v w ih (hle _ _ _ hok) hmiss

/-- The first host controller selected, and its base register. -/
def selected : SawtoothBus := (poweredOn 0 0 0 false).cfgWrite 1 0xF2800000#32 0x10400100#32 4

theorem selected_latch : selected.cfgAddr 1 = 0x00014010#32 := by
  rw [selected, cfgWrite_latch_addr (by decide), poweredOn_cfgAddr]
  decide

/-- A base, and then zero. -/
def closing : List CfgWrite := [⟨0xF2C00000#32, 0#32, 4⟩, ⟨0xF2C00000#32, 0x00100080#32, 4⟩]

/-- A write to the register selected. -/
theorem BarRun.base {b : SawtoothBus} {h : List CfgWrite} (v : U32)
    (hlatch : b.cfgAddr 1 = 0x00014010#32)
    (hrun : BarRun (Whole (ohciReg 0)) (ohciReg 0) (poweredOn 0 0 0 false) h b) :
    BarRun (Whole (ohciReg 0)) (ohciReg 0) (poweredOn 0 0 0 false)
      (⟨0xF2C00000#32, v, 4⟩ :: h) (b.cfgWrite 1 0xF2C00000#32 v 4) := by
  refine .hit 1 _ v .word hrun (fun _ _ => ⟨by decide, ?_⟩) ⟨by decide, rfl, ?_, ?_, ?_⟩
  · rw [hlatch]
    decide
  · rw [hlatch]
    decide
  · rw [hlatch]
    decide
  · exact fun hhides => absurd hhides.1 (by decide)

theorem closing_run :
    ∃ b, BarRun (Whole (ohciReg 0)) (ohciReg 0) (poweredOn 0 0 0 false) closing b := by
  have hlatched : BarRun (Whole (ohciReg 0)) (ohciReg 0) (poweredOn 0 0 0 false) [] selected :=
    .other 1 _ _ .word .start (fun hdata => absurd hdata (by decide))
      (fun hhits => absurd hhits.data (by decide))
  refine ⟨_, (hlatched.base 0x00100080#32 selected_latch).base 0#32 ?_⟩
  rw [cfgWrite_data_addr (by decide), selected_latch]

theorem base_registers_closing : ∃ b, Stands (ohciReg 0) closing b :=
  closing_run.imp fun b hrun => base_registers 0 0 0 false (ohciReg 0) (.ohci 0) closing b hrun

namespace BaseReg

/-- The register with a window that follows every base but zero and the sizing pattern. -/
def claimed (R : BaseReg) : BaseReg :=
  { R with takes := fun w => decide (R.base w ≠ 0#32 ∧ w ≠ R.typed (BitVec.allOnes 32)) }

end BaseReg

/-- A zero base closes the window of a host controller. -/
theorem base_registers_not : ¬ ∀ (ramSize romSize n : ℕ) (gSkipAgpCaps : Bool) (R : BaseReg),
    IsBaseReg n R → ∀ (h : List CfgWrite) (b : SawtoothBus),
      BarRun (fun _ _ _ => True) R (poweredOn ramSize romSize n gSkipAgpCaps) h b →
        Stands R.claimed h b := by
  intro hall
  obtain ⟨b, hrun⟩ := closing_run
  have hclaimed := hall 0 0 0 false (ohciReg 0) (.ohci 0) closing b
    (hrun.mono fun _ _ _ _ => trivial)
  have hstart : Kept (ohciReg 0) 0 [] (poweredOn 0 0 0 false) := .start (.ohci 0) 0 0 false
  have hkept := hstart.run (IsBaseReg.ohci 0).sized hrun
  have hsame : (ohciReg 0).based closing = (ohciReg 0).claimed.based closing :=
    hkept.window.symm.trans hclaimed.window
  exact absurd hsame (by decide)

/-! ## Writes past the first byte -/

/-- A register is matched by the place of its first byte, and no other place is masked. -/
theorem latchBars_lane {R : BaseReg} {n : ℕ} (hR : IsBaseReg n R) (hkeep : R.keep ≠ 0#32)
    (b : SawtoothBus) {reg : U32} (word : U32) (hreg : reg &&& ~~~3#32 = R.reg)
    (hlane : reg &&& 3#32 ≠ 0#32) : b.latchBars R.f R.sel reg word = (b, word) := by
  have hsplit : reg = R.reg ||| (reg &&& 3#32) := by
    rw [← hreg, ← BitVec.and_or_distrib_left]
    exact BitVec.and_allOnes.symm
  have hlanes : reg &&& 3#32 = 1#32 ∨ reg &&& 3#32 = 2#32 ∨ reg &&& 3#32 = 3#32 := by
    have hle : (reg &&& 3#32).toNat ≤ 3 := BitVec.toNat_and reg 3#32 ▸ Nat.and_le_right
    bv_omega
  rw [hsplit]
  cases hR with
  | macio => rcases hlanes with h | h | h <;> rw [h] <;> rfl
  | ohci i => rcases hlanes with h | h | h <;> rw [h] <;> fin_cases i <;> rfl
  | fb => rcases hlanes with h | h | h <;> rw [h] <;> rfl
  | io => rcases hlanes with h | h | h <;> rw [h] <;> rfl
  | reg => rcases hlanes with h | h | h <;> rw [h] <;> rfl
  | rom _ => rcases hlanes with h | h | h <;> rw [h] <;> rfl
  | noRom _ => exact absurd rfl hkeep
  | ohciWired _ _ _ => exact absurd rfl hkeep
  | atiWired _ _ => exact absurd rfl hkeep

/-- A write that begins at another byte of a base register slips by the mask and the type bits, and
its window stays where it is. -/
theorem cfgWrite_lane {R : BaseReg} {n : ℕ} (hR : IsBaseReg n R) (hkeep : R.keep ≠ 0#32)
    {b : SawtoothBus} {f : Fin 3} {pa : U32} (hhits : R.Hits b f pa) (hlane : pa &&& 3#32 ≠ 0#32)
    (v : U32) (len : ℕ) :
    (b.cfgWrite f pa v len).cfgSpace R.key
        = some (laneMerge ((b.cfgSpace R.key).getD 0#32) pa v len)
      ∧ R.window (b.cfgWrite f pa v len) = R.window b := by
  obtain rfl : f = R.f := hhits.bus
  have hkey := hhits.key hR.sized.sel
  have hlow : cfgReg (b.cfgAddr R.f) pa &&& 3#32 ≠ 0#32 := by
    rw [cfgReg, BitVec.and_or_distrib_right, BitVec.and_assoc, BitVec.and_assoc,
      show (0xFC#32 &&& 3#32 : U32) = 0#32 from rfl, BitVec.and_zero, BitVec.zero_or]
    exact hlane
  have hcomposed : b.composed R.f pa v len
      = (b, laneMerge ((b.cfgSpace R.key).getD 0#32) pa v len) := by
    rw [composed, hkey, hhits.sel]
    exact latchBars_lane hR hkeep b _ hhits.reg hlow
  rw [cfgWrite_data hhits.data hhits.seen, hcomposed, hkey]
  exact ⟨Function.update_self _ _ _, hR.sized.frame b b.cfgAddr _ b.atiHidden⟩

/-- Bits below the size of the frame buffer, written at its second byte, are read back. -/
example : (laneMerge 0#32 0xF0C00001#32 0xFF#32 1) &&& ~~~atiFbReg.keep ≠ 0#32 := by decide

end SawtoothBus

end OpenPowerMac
