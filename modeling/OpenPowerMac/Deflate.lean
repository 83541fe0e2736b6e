/-
The DEFLATE format of RFC 1951: what a string of bits says.

A stream is read from its front. Each relation takes the bits it stands before and
the output so far to the bits behind what it reads and the output then; the bits end
on a byte boundary, so what is left of a byte is told by their number. `Rules` are
what readers differ in: how many distance codes they take, whether a repeated code
length may run past the last symbol and is cut off there, and which code lengths
they take for a code.
-/
import OpenPowerMac.CanonicalCode

set_option autoImplicit false

namespace Deflate

open CanonicalCode

abbrev Byte : Type := BitVec 8

/-! ## Bits -/

/-- The bits of a string of bytes, the least significant of each first. -/
def bitsOf (bs : List Byte) : List Bool := bs.flatMap fun x => (List.range 8).map x.getLsbD

/-- The number that bits spell, least significant first. -/
def ofBitsLE : List Bool → ℕ
  | [] => 0
  | b :: w => b.toNat + 2 * ofBitsLE w

/-- The next `n` bits spell `v`. -/
def Reads (n : ℕ) (s : List Bool) (v : ℕ) (s' : List Bool) : Prop :=
  ∃ w : List Bool, w.length = n ∧ ofBitsLE w = v ∧ s = w ++ s'

/-- The next bits are the codeword of `k`. -/
def ReadsCode (lens : List ℕ) (s : List Bool) (k : ℕ) (s' : List Bool) : Prop :=
  ∃ w, IsCode lens k w ∧ s = w ++ s'

/-- Some numbers of `n` bits each. -/
inductive ReadsEach (n : ℕ) : List Bool → List ℕ → List Bool → Prop
  | nil (s : List Bool) : ReadsEach n s [] s
  | cons {s s₁ s' : List Bool} {v : ℕ} {vs : List ℕ} (h : Reads n s v s₁)
      (rest : ReadsEach n s₁ vs s') : ReadsEach n s (v :: vs) s'

/-! ## Tables -/

/-- What the length symbols from 257 on stand for: the least length, and how many
extra bits say how much more. -/
def lengthCodes : List (ℕ × ℕ) :=
  [(3, 0), (4, 0), (5, 0), (6, 0), (7, 0), (8, 0), (9, 0), (10, 0), (11, 1), (13, 1), (15, 1),
    (17, 1), (19, 2), (23, 2), (27, 2), (31, 2), (35, 3), (43, 3), (51, 3), (59, 3), (67, 4),
    (83, 4), (99, 4), (115, 4), (131, 5), (163, 5), (195, 5), (227, 5), (258, 0)]

/-- The same of the distance symbols. -/
def distanceCodes : List (ℕ × ℕ) :=
  [(1, 0), (2, 0), (3, 0), (4, 0), (5, 1), (7, 1), (9, 2), (13, 2), (17, 3), (25, 3), (33, 4),
    (49, 4), (65, 5), (97, 5), (129, 6), (193, 6), (257, 7), (385, 7), (513, 8), (769, 8),
    (1025, 9), (1537, 9), (2049, 10), (3073, 10), (4097, 11), (6145, 11), (8193, 12),
    (12289, 12), (16385, 13), (24577, 13)]

/-- The order in which a dynamic block gives the lengths of the code length code. -/
def lengthOrder : List ℕ :=
  [16, 17, 18, 0, 8, 7, 9, 6, 10, 5, 11, 4, 12, 3, 13, 2, 14, 1, 15]

/-- The code lengths of a fixed block. -/
def fixedLit : List ℕ :=
  List.replicate 144 8 ++ List.replicate 112 9 ++ List.replicate 24 7 ++ List.replicate 8 8

def fixedDist : List ℕ := List.replicate 32 5

/-! ## Blocks -/

structure Rules where
  maxDist : ℕ
  cut : Bool
  code : List ℕ → Prop

/-- The format as it is written, for complete codes. -/
def rfc1951 : Rules := ⟨32, false, Complete⟩

/-- What a repeat symbol repeats, behind the lengths so far: how many extra bits say
how often, and at least how often. -/
def repeated (lens : List ℕ) : ℕ → Option (ℕ × ℕ × ℕ)
  | 16 => lens.getLast?.map fun x => (2, 3, x)
  | 17 => some (3, 3, 0)
  | 18 => some (7, 11, 0)
  | _ => none

/-- The lengths of `total` symbols, themselves in the code `cl`. -/
inductive Lengths (R : Rules) (cl : List ℕ) (total : ℕ) :
    List Bool → List ℕ → List Bool → List ℕ → Prop
  | done {s : List Bool} {lens : List ℕ} (h : lens.length = total) : Lengths R cl total s lens s lens
  | one {s s₁ s' : List Bool} {lens lens' : List ℕ} {k : ℕ} (hmore : lens.length < total)
      (hcode : ReadsCode cl s k s₁) (hk : k < 16)
      (rest : Lengths R cl total s₁ (lens ++ [k]) s' lens') : Lengths R cl total s lens s' lens'
  | again {s s₁ s₂ s' : List Bool} {lens lens' : List ℕ} {k n least x e : ℕ}
      (hmore : lens.length < total) (hcode : ReadsCode cl s k s₁)
      (hrep : repeated lens k = some (n, least, x)) (hextra : Reads n s₁ e s₂)
      (hfit : R.cut = false → lens.length + (least + e) ≤ total)
      (rest : Lengths R cl total s₂ ((lens ++ List.replicate (least + e) x).take total) s' lens') :
      Lengths R cl total s lens s' lens'

/-- The code lengths of the code length code, given in `lengthOrder`. -/
def placed (vs : List ℕ) : List ℕ :=
  (lengthOrder.zip vs).foldl (fun cl p => cl.set p.1 p.2) (List.replicate 19 0)

/-- The head of a dynamic block: its two codes. -/
inductive Header (R : Rules) : List Bool → List ℕ → List ℕ → List Bool → Prop
  | intro {s s₁ s₂ s₃ s₄ s' : List Bool} {hlit hdist hclen : ℕ} {vs lens : List ℕ}
      (h₁ : Reads 5 s hlit s₁) (h₂ : Reads 5 s₁ hdist s₂) (h₃ : Reads 4 s₂ hclen s₃)
      (hlit_le : hlit + 257 ≤ 286) (hdist_le : hdist + 1 ≤ R.maxDist)
      (hcount : vs.length = hclen + 4) (h₄ : ReadsEach 3 s₃ vs s₄) (hcl : R.code (placed vs))
      (h₅ : Lengths R (placed vs) (hlit + 257 + (hdist + 1)) s₄ [] s' lens)
      (hlit_code : R.code (lens.take (hlit + 257)))
      (hdist_code : R.code (lens.drop (hlit + 257))) :
      Header R s (lens.take (hlit + 257)) (lens.drop (hlit + 257)) s'

/-- `n` bytes from `back` bytes before the end, over again where these run out. -/
def copied (out : List Byte) (back n : ℕ) : List Byte :=
  out ++ (List.range n).map fun i => out.getD (out.length - back + i % back) 0#8

/-- Literals and copies up to the end of a block. -/
inductive Symbols (lit dist : List ℕ) : List Bool → List Byte → List Bool → List Byte → Prop
  | stop {s s' : List Bool} {out : List Byte} (h : ReadsCode lit s 256 s') :
      Symbols lit dist s out s' out
  | literal {s s₁ s' : List Bool} {out out' : List Byte} {k : ℕ} (h : ReadsCode lit s k s₁)
      (hk : k < 256) (rest : Symbols lit dist s₁ (out ++ [BitVec.ofNat 8 k]) s' out') :
      Symbols lit dist s out s' out'
  | copy {s s₁ s₂ s₃ s₄ s' : List Bool} {out out' : List Byte} {j d least n e dleast dn f : ℕ}
      (hlen : ReadsCode lit s (257 + j) s₁) (hj : lengthCodes[j]? = some (least, n))
      (hextra : Reads n s₁ e s₂) (hdist : ReadsCode dist s₂ d s₃)
      (hd : distanceCodes[d]? = some (dleast, dn)) (hdextra : Reads dn s₃ f s₄)
      (hback : dleast + f ≤ out.length)
      (rest : Symbols lit dist s₄ (copied out (dleast + f) (least + e)) s' out') :
      Symbols lit dist s out s' out'

/-- A block, by its type. -/
inductive Block (R : Rules) : ℕ → List Bool → List Byte → List Bool → List Byte → Prop
  | stored {s s₁ s₂ s' : List Bool} {out bytes : List Byte} {nlen : ℕ}
      (hlen : Reads 16 (s.drop (s.length % 8)) bytes.length s₁) (hnlen : Reads 16 s₁ nlen s₂)
      (hcheck : bytes.length + nlen = 0xFFFF) (hbytes : s₂ = bitsOf bytes ++ s') :
      Block R 0 s out s' (out ++ bytes)
  | fixed {s s' : List Bool} {out out' : List Byte}
      (h : Symbols fixedLit fixedDist s out s' out') : Block R 1 s out s' out'
  | dynamic {s s₁ s' : List Bool} {out out' : List Byte} {lit dist : List ℕ}
      (hhead : Header R s lit dist s₁) (h : Symbols lit dist s₁ out s' out') :
      Block R 2 s out s' out'

/-- Blocks up to the final one. -/
inductive Stream (R : Rules) : List Bool → List Byte → List Bool → List Byte → Prop
  | last {s s₁ s₂ s' : List Bool} {out out' : List Byte} {t : ℕ} (hfinal : Reads 1 s 1 s₁)
      (ht : Reads 2 s₁ t s₂) (hblock : Block R t s₂ out s' out') : Stream R s out s' out'
  | more {s s₁ s₂ s₃ s' : List Bool} {out out₁ out' : List Byte} {t : ℕ} (hfinal : Reads 1 s 0 s₁)
      (ht : Reads 2 s₁ t s₂) (hblock : Block R t s₂ out s₃ out₁)
      (rest : Stream R s₃ out₁ s' out') : Stream R s out s' out'

/-- The bytes begin with a stream that says `p`. -/
def Decodes (R : Rules) (src p : List Byte) : Prop := ∃ s', Stream R (bitsOf src) [] s' p

/-! ## Numbers -/

theorem Reads.det {n v v' : ℕ} {s s₁ s₁' : List Bool} (h : Reads n s v s₁)
    (h' : Reads n s v' s₁') : v = v' ∧ s₁ = s₁' := by
  obtain ⟨w, hw, rfl, hs⟩ := h
  obtain ⟨w', hw', rfl, hs'⟩ := h'
  obtain ⟨rfl, rfl⟩ := List.append_inj (hs.symm.trans hs') (hw.trans hw'.symm)
  exact ⟨rfl, rfl⟩

theorem ofBitsLE_lt (w : List Bool) : ofBitsLE w < 2 ^ w.length := by
  induction w with
  | nil => exact Nat.one_pos
  | cons b w ih =>
      have hb : b.toNat < 2 := Bool.toNat_lt b
      rw [ofBitsLE, List.length_cons, pow_succ]
      omega

theorem Reads.lt {n v : ℕ} {s s' : List Bool} (h : Reads n s v s') : v < 2 ^ n := by
  obtain ⟨w, rfl, rfl, -⟩ := h
  exact ofBitsLE_lt w

theorem ReadsEach.lt {n : ℕ} {vs : List ℕ} {s s' : List Bool} (h : ReadsEach n s vs s') :
    ∀ v ∈ vs, v < 2 ^ n := by
  induction h with
  | nil s => exact fun v hv => absurd hv List.not_mem_nil
  | cons h _ ih =>
      intro v hv
      rcases List.mem_cons.mp hv with rfl | hmem
      · exact h.lt
      · exact ih v hmem

theorem ReadsEach.concat {n v : ℕ} {vs : List ℕ} {s s₁ s' : List Bool} (h : ReadsEach n s vs s₁)
    (hv : Reads n s₁ v s') : ReadsEach n s (vs ++ [v]) s' := by
  induction h with
  | nil s => exact .cons hv (.nil s')
  | cons h _ ih => exact .cons h (ih hv)

theorem placed_concat {vs : List ℕ} {v o : ℕ} (h : lengthOrder[vs.length]? = some o) :
    placed (vs ++ [v]) = (placed vs).set o v := by
  obtain ⟨hlt, hval⟩ := List.getElem?_eq_some_iff.mp h
  have hsplit : lengthOrder.take vs.length ++ o :: lengthOrder.drop (vs.length + 1)
      = lengthOrder := by
    rw [← hval, ← List.drop_eq_getElem_cons hlt, List.take_append_drop]
  have hlen : (lengthOrder.take vs.length).length = vs.length := by
    rw [List.length_take]
    omega
  have hzip : ∀ x, lengthOrder.zip (vs ++ x) = (lengthOrder.take vs.length).zip vs
      ++ (o :: lengthOrder.drop (vs.length + 1)).zip x := by
    intro x
    rw [← List.zip_append hlen, hsplit]
  have hnil := hzip []
  rw [List.append_nil, List.zip_nil_right, List.append_nil] at hnil
  rw [placed, hzip, List.zip_cons_cons, List.zip_nil_right, List.foldl_append, ← hnil]
  rfl

theorem length_placed {vs : List ℕ} (h : vs.length ≤ 19) : (placed vs).length = 19 := by
  induction vs using List.reverseRecOn with
  | nil => rfl
  | append_singleton vs v ih =>
      rw [List.length_append, List.length_singleton] at h
      have hlt : vs.length < lengthOrder.length := h
      rw [placed_concat (List.getElem?_eq_getElem hlt), List.length_set, ih (by omega)]

theorem repeated_cases {lens : List ℕ} {k n least x : ℕ} (h : repeated lens k = some (n, least, x)) :
    k = 16 ∧ n = 2 ∧ least = 3 ∧ lens.getLast? = some x
      ∨ k = 17 ∧ n = 3 ∧ least = 3 ∧ x = 0 ∨ k = 18 ∧ n = 7 ∧ least = 11 ∧ x = 0 := by
  unfold repeated at h
  split at h
  · rw [Option.map_eq_some_iff] at h
    obtain ⟨y, hy, heq⟩ := h
    injection heq with hn heq
    injection heq with hleast heq
    exact .inl ⟨rfl, hn.symm, hleast.symm, by rw [hy, heq]⟩
  · cases h
    exact .inr (.inl ⟨rfl, rfl, rfl, rfl⟩)
  · cases h
    exact .inr (.inr ⟨rfl, rfl, rfl, rfl⟩)
  · cases h

theorem mem_placed {vs : List ℕ} {x : ℕ} (h : x ∈ placed vs) : x = 0 ∨ x ∈ vs := by
  have hset : ∀ (ps : List (ℕ × ℕ)) (cl : List ℕ),
      x ∈ ps.foldl (fun cl p => cl.set p.1 p.2) cl → x ∈ cl ∨ x ∈ ps.map Prod.snd := by
    intro ps
    induction ps with
    | nil => exact fun cl hx => .inl hx
    | cons q ps ih =>
        intro cl hx
        rcases ih _ hx with hmem | hmem
        · rcases List.mem_or_eq_of_mem_set hmem with hcl | rfl
          · exact .inl hcl
          · exact .inr List.mem_cons_self
        · exact .inr (List.mem_cons_of_mem _ hmem)
  rcases hset _ _ h with hmem | hmem
  · exact .inl (List.eq_of_mem_replicate hmem)
  · obtain ⟨q, hq, rfl⟩ := List.mem_map.mp hmem
    exact .inr (List.of_mem_zip hq).2

theorem Lengths.length_eq {R : Rules} {cl lens lens' : List ℕ} {total : ℕ} {s s' : List Bool}
    (h : Lengths R cl total s lens s' lens') : lens'.length = total := by
  induction h with
  | done h => exact h
  | one _ _ _ _ ih => exact ih
  | again _ _ _ _ _ _ ih => exact ih

theorem Lengths.short {R : Rules} {cl lens lens' : List ℕ} {total : ℕ} {s s' : List Bool}
    (h : Lengths R cl total s lens s' lens') (hlens : ∀ x ∈ lens, x < 16) :
    ∀ x ∈ lens', x < 16 := by
  induction h with
  | done _ => exact hlens
  | one _ _ hk _ ih =>
      apply ih
      intro x hx
      rcases List.mem_append.mp hx with hmem | hmem
      · exact hlens x hmem
      · rw [List.mem_singleton.mp hmem]
        exact hk
  | again _ _ hrep _ _ _ ih =>
      apply ih
      intro y hy
      rcases List.mem_append.mp (List.mem_of_mem_take hy) with hmem | hmem
      · exact hlens y hmem
      · rw [List.eq_of_mem_replicate hmem]
        rcases repeated_cases hrep with ⟨-, -, -, hlast⟩ | ⟨-, -, -, rfl⟩ | ⟨-, -, -, rfl⟩
        · exact hlens _ (List.mem_of_getLast? hlast)
        · omega
        · omega

/-- The numbers and the codeword at a place. -/
theorem reads_take {S : List Bool} {a n : ℕ} (h : a + n ≤ S.length) :
    Reads n (S.drop a) (ofBitsLE ((S.drop a).take n)) (S.drop (a + n)) := by
  refine ⟨(S.drop a).take n, ?_, rfl, ?_⟩
  · rw [List.length_take, List.length_drop]
    omega
  · rw [← List.drop_drop, List.take_append_drop]

theorem readsEach_take {S : List Bool} {a n : ℕ} (m : ℕ) (h : a + n * m ≤ S.length) :
    ReadsEach n (S.drop a) ((List.range m).map fun k => ofBitsLE ((S.drop (a + n * k)).take n))
      (S.drop (a + n * m)) := by
  induction m with
  | zero => exact .nil _
  | succ m ih =>
      rw [Nat.mul_succ] at h
      rw [List.range_succ, List.map_append]
      refine (ih (by omega)).concat ?_
      rw [Nat.mul_succ, ← Nat.add_assoc]
      exact reads_take (by omega)

theorem readsCode_take {S w : List Bool} {lens : List ℕ} {a k : ℕ} (hw : IsCode lens k w)
    (h : (S.drop a).take w.length = w) : ReadsCode lens (S.drop a) k (S.drop (a + w.length)) := by
  refine ⟨w, hw, ?_⟩
  conv_lhs => rw [← List.take_append_drop w.length (S.drop a), h, List.drop_drop]

/-! ## The bits of bytes -/

theorem length_bitsOf (p : List Byte) : (bitsOf p).length = 8 * p.length := by
  induction p with
  | nil => rfl
  | cons x p ih =>
      rw [bitsOf, List.flatMap_cons, List.length_append, List.length_map, List.length_range,
        ← bitsOf, ih, List.length_cons]
      ring

/-- The bits of a byte. -/
def byteBits (x : Byte) : List Bool := (List.range 8).map x.getLsbD

theorem bitsOf_cons (x : Byte) (q : List Byte) : bitsOf (x :: q) = byteBits x ++ bitsOf q := by
  rw [bitsOf, List.flatMap_cons]
  rfl

theorem length_byteBits (x : Byte) : (byteBits x).length = 8 := by
  rw [byteBits, List.length_map, List.length_range]

theorem ofBitsLE_append (w x : List Bool) :
    ofBitsLE (w ++ x) = ofBitsLE w + 2 ^ w.length * ofBitsLE x := by
  induction w with
  | nil => simp [ofBitsLE]
  | cons b w ih =>
      rw [List.cons_append, ofBitsLE, ofBitsLE, ih, List.length_cons, pow_succ]
      ring

theorem ofBitsLE_byteBits (x : Byte) : ofBitsLE (byteBits x) = x.toNat := by
  have hlow : ∀ n, ofBitsLE ((List.range n).map x.getLsbD) = x.toNat % 2 ^ n := by
    intro n
    induction n with
    | zero =>
        rw [pow_zero, Nat.mod_one]
        rfl
    | succ n ih =>
        rw [List.range_succ, List.map_append, ofBitsLE_append, ih, List.length_map,
          List.length_range, Nat.mod_pow_succ, ← Nat.toNat_testBit, List.map_singleton, ofBitsLE,
          ofBitsLE, Nat.mul_zero, Nat.add_zero]
        rfl
  rw [byteBits, hlow, Nat.mod_eq_of_lt x.isLt]

theorem byteBits_inj {x y : Byte} (h : byteBits x = byteBits y) : x = y := by
  apply BitVec.eq_of_toNat_eq
  rw [← ofBitsLE_byteBits, ← ofBitsLE_byteBits, h]

/-- A byte boundary. -/
theorem drop_bitsOf (p : List Byte) (a : ℕ) : (bitsOf p).drop (8 * a) = bitsOf (p.drop a) := by
  induction a generalizing p with
  | zero => rfl
  | succ a ih =>
      cases p with
      | nil => rw [List.drop_nil, bitsOf, List.flatMap_nil, List.drop_nil]
      | cons x p =>
          rw [bitsOf_cons, List.drop_succ_cons, ← ih, show 8 * (a + 1) = 8 + 8 * a by ring,
            ← length_byteBits x, List.drop_length_add_append]

theorem bitsOf_append_eq {bytes : List Byte} {s' : List Bool} : ∀ {q : List Byte}, bitsOf bytes ++ s' = bitsOf q →
    bytes = q.take bytes.length ∧ bytes.length ≤ q.length ∧ s' = bitsOf (q.drop bytes.length) := by
  induction bytes with
  | nil =>
      intro q h
      exact ⟨rfl, Nat.zero_le _, h⟩
  | cons x bytes ih =>
      intro q h
      cases q with
      | nil =>
          have hlen := congrArg List.length h
          rw [bitsOf_cons, List.length_append, List.length_append, length_byteBits] at hlen
          simp [bitsOf] at hlen
      | cons y q =>
          rw [bitsOf_cons, bitsOf_cons, List.append_assoc] at h
          obtain ⟨hxy, hrest⟩ := List.append_inj h (by rw [length_byteBits, length_byteBits])
          obtain ⟨hbytes, hle, hs⟩ := ih hrest
          refine ⟨?_, Nat.succ_le_succ hle, hs⟩
          rw [List.length_cons, List.take_succ_cons, ← hbytes, byteBits_inj hxy]

theorem bitsOf_append (q q' : List Byte) : bitsOf (q ++ q') = bitsOf q ++ bitsOf q' := by
  rw [bitsOf, List.flatMap_append]
  rfl

/-! ## What is left -/

theorem Reads.length_le {n v : ℕ} {s s' : List Bool} (h : Reads n s v s') : s'.length ≤ s.length := by
  obtain ⟨w, -, -, rfl⟩ := h
  rw [List.length_append]
  omega

theorem ReadsCode.length_lt {lens : List ℕ} {k : ℕ} {s s' : List Bool} (h : ReadsCode lens s k s') :
    s'.length < s.length := by
  obtain ⟨w, hw, rfl⟩ := h
  have hpos := hw.pos
  rw [List.length_append]
  omega

theorem Reads.length {n v : ℕ} {s s' : List Bool} (h : Reads n s v s') : s.length = n + s'.length := by
  obtain ⟨w, rfl, -, rfl⟩ := h
  rw [List.length_append]

theorem copied_zero (out : List Byte) (back : ℕ) : copied out back 0 = out := by
  rw [copied, List.range_zero, List.map_nil, List.append_nil]

theorem length_copied (out : List Byte) (back n : ℕ) :
    (copied out back n).length = out.length + n := by
  rw [copied, List.length_append, List.length_map, List.length_range]

theorem Symbols.length_le {L D : List ℕ} {s s' : List Bool} {out out' : List Byte} (h : Symbols L D s out s' out') :
    out.length ≤ out'.length ∧ s'.length < s.length := by
  induction h with
  | stop h => exact ⟨le_rfl, ReadsCode.length_lt h⟩
  | literal h _ _ ih =>
      have hless := ReadsCode.length_lt h
      rw [List.length_append] at ih
      omega
  | copy hlen _ hextra hdist _ hdextra _ _ ih =>
      have h₁ := ReadsCode.length_lt hlen
      have h₂ := Reads.length_le hextra
      have h₃ := ReadsCode.length_lt hdist
      have h₄ := Reads.length_le hdextra
      rw [length_copied] at ih
      omega

/-- A distance symbol that says something is among the first 30. -/
theorem Symbols.imp {L D D' : List ℕ} {s s' : List Bool} {out out' : List Byte}
    (hD : ∀ s k s', k < 30 → ReadsCode D s k s' → ReadsCode D' s k s')
    (h : Symbols L D s out s' out') : Symbols L D' s out s' out' := by
  induction h with
  | stop h => exact .stop h
  | literal h hk _ ih => exact .literal h hk ih
  | copy hlen hj hextra hdist hd hdextra hback _ ih =>
      obtain ⟨hlt, -⟩ := List.getElem?_eq_some_iff.mp hd
      exact .copy hlen hj hextra (hD _ _ _ hlt hdist) hd hdextra hback ih

theorem ReadsEach.length_le {n : ℕ} {vs : List ℕ} {s s' : List Bool} (h : ReadsEach n s vs s') :
    s'.length ≤ s.length := by
  induction h with
  | nil s => exact le_rfl
  | cons h _ ih => exact ih.trans (Reads.length_le h)

theorem Lengths.length_le {R : Rules} {cl lens lens' : List ℕ} {total : ℕ} {s s' : List Bool}
    (h : Lengths R cl total s lens s' lens') : s'.length ≤ s.length := by
  induction h with
  | done _ => exact le_rfl
  | one _ hcode _ _ ih => exact ih.trans (ReadsCode.length_lt hcode).le
  | again _ hcode _ hextra _ _ ih =>
      exact ih.trans ((Reads.length_le hextra).trans (ReadsCode.length_lt hcode).le)

theorem Header.length_le {R : Rules} {lit dist : List ℕ} {s s' : List Bool}
    (h : Header R s lit dist s') : s'.length ≤ s.length := by
  cases h with
  | intro h₁ h₂ h₃ _ _ _ h₄ _ h₅ _ _ =>
      exact h₅.length_le.trans (h₄.length_le.trans
        (h₃.length_le.trans (h₂.length_le.trans h₁.length_le)))

/-- A block adds to the output and leaves no more bits than there were. -/
theorem Block.length_le {R : Rules} {t : ℕ} {s s' : List Bool} {out out' : List Byte}
    (h : Block R t s out s' out') : out.length ≤ out'.length ∧ s'.length ≤ s.length := by
  cases h with
  | stored hlen hnlen _ hbytes =>
      have h₁ := hlen.length_le
      have h₂ := hnlen.length_le
      rw [List.length_drop] at h₁
      rw [hbytes, List.length_append] at h₂
      rw [List.length_append]
      omega
  | fixed h => exact ⟨h.length_le.1, h.length_le.2.le⟩
  | dynamic hhead h => exact ⟨h.length_le.1, h.length_le.2.le.trans hhead.length_le⟩

theorem Stream.length_le {R : Rules} {s s' : List Bool} {out out' : List Byte}
    (h : Stream R s out s' out') : out.length ≤ out'.length ∧ s'.length ≤ s.length := by
  induction h with
  | last hfin ht hblock =>
      exact ⟨hblock.length_le.1, hblock.length_le.2.trans (ht.length_le.trans hfin.length_le)⟩
  | more hfin ht hblock _ ih =>
      exact ⟨hblock.length_le.1.trans ih.1,
        ih.2.trans (hblock.length_le.2.trans (ht.length_le.trans hfin.length_le))⟩

/-! ## One reading -/

theorem ReadsCode.det {lens : List ℕ} {k k' : ℕ} {s s₁ s₁' : List Bool} (h : ReadsCode lens s k s₁)
    (h' : ReadsCode lens s k' s₁') : k = k' ∧ s₁ = s₁' := by
  obtain ⟨w, hw, hs⟩ := h
  obtain ⟨w', hw', hs'⟩ := h'
  obtain ⟨hk, -, hrest⟩ := hw.unique hw' (hs.symm.trans hs')
  exact ⟨hk, hrest⟩

theorem ReadsEach.det {n : ℕ} {vs vs' : List ℕ} {s s₁ s₁' : List Bool} (h : ReadsEach n s vs s₁)
    (h' : ReadsEach n s vs' s₁') (hlen : vs.length = vs'.length) : vs = vs' ∧ s₁ = s₁' := by
  induction h generalizing vs' with
  | nil s =>
      cases h' with
      | nil => exact ⟨rfl, rfl⟩
      | cons _ _ => cases hlen
  | cons h _ ih =>
      cases h' with
      | nil => cases hlen
      | cons h' rest =>
          obtain ⟨rfl, rfl⟩ := Reads.det h h'
          obtain ⟨rfl, rfl⟩ := ih rest (Nat.succ.inj hlen)
          exact ⟨rfl, rfl⟩

/-- A length that stands there. -/
theorem Lengths.of_one {R : Rules} {cl lens lens' : List ℕ} {total k : ℕ} {s s₁ s' : List Bool}
    (h : Lengths R cl total s lens s' lens') (hmore : lens.length < total)
    (hcode : ReadsCode cl s k s₁) (hk : k < 16) :
    Lengths R cl total s₁ (lens ++ [k]) s' lens' := by
  cases h with
  | done hall => omega
  | one _ hcode' _ rest =>
      obtain ⟨rfl, rfl⟩ := hcode.det hcode'
      exact rest
  | again _ hcode' hrep _ _ _ =>
      obtain ⟨rfl, -⟩ := hcode.det hcode'
      have hcases := repeated_cases hrep
      omega

/-- A repeat that stands there. -/
theorem Lengths.of_again {R : Rules} {cl lens lens' : List ℕ} {total k n least x e : ℕ}
    {s s₁ s₂ s' : List Bool} (h : Lengths R cl total s lens s' lens') (hmore : lens.length < total)
    (hcode : ReadsCode cl s k s₁) (hrep : repeated lens k = some (n, least, x))
    (hextra : Reads n s₁ e s₂) :
    (R.cut = false → lens.length + (least + e) ≤ total)
      ∧ Lengths R cl total s₂ ((lens ++ List.replicate (least + e) x).take total) s' lens' := by
  cases h with
  | done hall => omega
  | one _ hcode' hk _ =>
      obtain ⟨rfl, -⟩ := hcode.det hcode'
      have hcases := repeated_cases hrep
      omega
  | again _ hcode' hrep' hextra' hfit rest =>
      obtain ⟨rfl, rfl⟩ := hcode.det hcode'
      rw [hrep] at hrep'
      cases hrep'
      obtain ⟨rfl, rfl⟩ := hextra.det hextra'
      exact ⟨hfit, rest⟩

/-! ## Laxer rules -/

/-- Whatever `R` takes, `R'` takes. -/
structure Rules.Le (R R' : Rules) : Prop where
  maxDist : R.maxDist ≤ R'.maxDist
  cut : R.cut = true → R'.cut = true
  code : ∀ lens, R.code lens → R'.code lens

variable {R R' : Rules}

theorem Lengths.mono (hR : R.Le R') {cl : List ℕ} {total : ℕ} {s s' : List Bool}
    {lens lens' : List ℕ} (h : Lengths R cl total s lens s' lens') :
    Lengths R' cl total s lens s' lens' := by
  induction h with
  | done h => exact .done h
  | one hmore hcode hk _ ih => exact .one hmore hcode hk ih
  | again hmore hcode hrep hextra hfit _ ih =>
      refine .again hmore hcode hrep hextra (fun hcut => hfit ?_) ih
      rw [Bool.eq_false_iff]
      intro hR'
      rw [hR.cut hR'] at hcut
      exact Bool.noConfusion hcut

theorem Block.mono (hR : R.Le R') {t : ℕ} {s s' : List Bool} {out out' : List Byte}
    (h : Block R t s out s' out') : Block R' t s out s' out' := by
  cases h with
  | stored hlen hnlen hcheck hbytes => exact .stored hlen hnlen hcheck hbytes
  | fixed h => exact .fixed h
  | dynamic hhead h =>
      refine .dynamic ?_ h
      cases hhead with
      | intro h₁ h₂ h₃ hlit hdist hcount h₄ hcl h₅ hlc hdc =>
          exact .intro h₁ h₂ h₃ hlit (hdist.trans hR.maxDist) hcount h₄ (hR.code _ hcl)
            (h₅.mono hR) (hR.code _ hlc) (hR.code _ hdc)

theorem Stream.mono (hR : R.Le R') {s s' : List Bool} {out out' : List Byte}
    (h : Stream R s out s' out') : Stream R' s out s' out' := by
  induction h with
  | last hfinal ht hblock => exact .last hfinal ht (hblock.mono hR)
  | more hfinal ht hblock _ ih => exact .more hfinal ht (hblock.mono hR) ih

theorem Decodes.mono (hR : R.Le R') {src p : List Byte} (h : Decodes R src p) :
    Decodes R' src p := by
  obtain ⟨s', hstream⟩ := h
  exact ⟨s', hstream.mono hR⟩

end Deflate
