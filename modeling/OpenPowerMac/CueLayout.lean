/-
The layout of a cue sheet is a partition of the disc, where no address is cut.

A sheet and the sizes of its files give every track a region of its file
(`discRegions`) and, with the pregaps, an address on the disc (`addresses`). `openCue`
keeps the addresses in 32 bits. Where they fit, the tracks lie end to end, each behind
its pregap, every block of a data track is read from the track's own region, and what
lies in a pregap reads as zeros.
-/
import OpenPowerMac.Cue

set_option autoImplicit false

namespace OpenPowerMac

namespace Cue

open Extents

/-! ## What a sheet describes -/

/-- The part of a file that a track has: from its first index up to the next track's. -/
structure Region where
  track : CueTrack
  file : ℕ
  first : ℕ
  byte : ℕ
  endByte : ℕ

namespace Region

/-- Where the data of a region begin, behind its stored pregap. -/
def dataByte (r : Region) : ℕ := r.byte + (r.track.idx01 - r.first) * r.track.sectorBytes

/-- The sectors of the disc before its data: the virtual pregap and the stored one. -/
def gap (r : Region) : ℕ := r.track.pregap + (r.track.idx01 - r.first)

def len (r : Region) : ℕ := (r.endByte - r.dataByte) / r.track.sectorBytes

end Region

/-- The regions of a file, the first at sector `first` and at `byte`. -/
def regionsFrom (fileBytes fi : ℕ) : ℕ → ℕ → List CueTrack → List Region
  | _, _, [] => []
  | first, byte, [t] => [⟨t, fi, first, byte, fileBytes⟩]
  | first, byte, t :: u :: ts =>
      let next := min u.idxFirst u.idx01
      let endByte := byte + (next - first) * t.sectorBytes
      ⟨t, fi, first, byte, endByte⟩ :: regionsFrom fileBytes fi next endByte (u :: ts)

/-- The regions of the disc, file by file. -/
def discRegions (ts : List CueTrack) : ℕ → List (List U8) → List Region
  | _, [] => []
  | fi, f :: files =>
      regionsFrom f.length fi 0 0 (ts.filter (·.file = fi)) ++ discRegions ts (fi + 1) files

/-- Where the data of each region lie on the disc, from sector `b` on. -/
def addresses : ℕ → List Region → List ℕ
  | _, [] => []
  | b, r :: rs => (b + r.gap) :: addresses (b + r.gap + r.len) rs

/-- Where the disc ends. -/
def leadOut : ℕ → List Region → ℕ
  | b, [] => b
  | b, r :: rs => leadOut (b + r.gap + r.len) rs

/-- The content of a track, on the disc. -/
def CdTrack.extent (t : CdTrack) : Extent := ⟨t.startLba, t.contentSectors⟩

/-- The track table is a partition of the disc that the regions describe. -/
structure Partition (img : CdImage) (rs : List Region) : Prop where
  tiled : Laid 0 (rs.map Region.gap) (img.tracks.map CdTrack.extent) img.blocks
  sorted : img.tracks.Pairwise fun t u => t.startLba ≤ u.startLba
  disjoint : ∀ (i j : ℕ) (t u : CdTrack), img.tracks[i]? = some t → img.tracks[j]? = some u → i ≠ j →
    ∀ lba, ¬ (t.extent.Has lba ∧ u.extent.Has lba)
  bounded : ∀ t ∈ img.tracks, t.startLba + t.contentSectors ≤ img.blocks
  inside : ∀ (i : ℕ) (r : Region) (t : CdTrack), rs[i]? = some r → img.tracks[i]? = some t → t.file = r.file
    ∧ ∃ f, img.files[t.file]? = some f ∧ ∀ k < t.contentSectors,
      r.byte ≤ t.fileByte + k * t.sectorBytes
      ∧ t.fileByte + (k + 1) * t.sectorBytes ≤ r.endByte ∧ r.endByte ≤ f.length
  reads : ∀ t ∈ img.tracks, t.audio = false → ∃ f, img.files[t.file]? = some f
    ∧ ∀ k < t.contentSectors, t.dataOff + 2048 ≤ t.sectorBytes
      ∧ img.readBlock (t.startLba + k)
        = (true, (f.drop (t.fileByte + k * t.sectorBytes + t.dataOff)).take 2048)
  silent : ∀ (i : ℕ) (r : Region) (t : CdTrack), rs[i]? = some r → img.tracks[i]? = some t →
    ∀ lba, t.startLba ≤ lba + r.gap → lba < t.startLba →
      ∃ u, img.trackAt lba = some u ∧ img.readBlock lba = (!u.audio, CdImage.zeros)

/-! ## Addresses -/

theorem addresses_append (b : ℕ) (rs rs' : List Region) :
    addresses b (rs ++ rs') = addresses b rs ++ addresses (leadOut b rs) rs' := by
  induction rs generalizing b with
  | nil => rfl
  | cons r rs ih => rw [List.cons_append, addresses, ih, addresses, leadOut, List.cons_append]

/-- A track lies as its region does, but for the cut. -/
def Starts (b : ℕ) (rs : List Region) (ts : List CdTrack) : Prop :=
  ts.map CdTrack.contentSectors = rs.map Region.len
    ∧ ts.map CdTrack.startLba = (addresses b rs).map (· % 2 ^ 32)

theorem Starts.laid_iff {b stop : ℕ} {rs : List Region} {ts : List CdTrack} (h : Starts b rs ts) :
    Laid b (rs.map Region.gap) (ts.map CdTrack.extent) stop
      ↔ (∀ a ∈ addresses b rs, a < 2 ^ 32) ∧ stop = leadOut b rs := by
  induction rs generalizing b ts with
  | nil =>
      obtain rfl : ts = [] := List.map_eq_nil_iff.mp h.1
      constructor
      · rintro ⟨⟩
        exact ⟨fun a ha => absurd ha List.not_mem_nil, rfl⟩
      · rintro ⟨-, hstop⟩
        rw [hstop]
        exact .nil b
  | cons r rs ih =>
      obtain ⟨hlen, hstart⟩ := h
      rcases ts with _ | ⟨t, ts⟩
      · cases hlen
      · rw [List.map_cons, List.map_cons] at hlen
        rw [addresses, List.map_cons, List.map_cons] at hstart
        obtain ⟨hlen, hlens⟩ := List.cons_eq_cons.mp hlen
        obtain ⟨hstart, hstarts⟩ := List.cons_eq_cons.mp hstart
        have hstop : t.startLba = b + r.gap → t.extent.stop = b + r.gap + r.len := by
          intro heq
          show t.startLba + t.contentSectors = _
          rw [heq, hlen]
        rw [addresses, leadOut, List.forall_mem_cons]
        constructor
        · intro hlaid
          cases hlaid with
          | cons heq rest =>
              replace heq : t.startLba = b + r.gap := heq
              rw [hstop heq] at rest
              obtain ⟨hall, hend⟩ := (ih ⟨hlens, hstarts⟩).mp rest
              have hlt := Nat.mod_lt (b + r.gap) (Nat.two_pow_pos 32)
              rw [← hstart, heq] at hlt
              exact ⟨⟨hlt, hall⟩, hend⟩
        · rintro ⟨⟨hlt, hall⟩, hend⟩
          have heq : t.startLba = b + r.gap := by rw [hstart, Nat.mod_eq_of_lt hlt]
          refine .cons heq ?_
          rw [hstop heq]
          exact (ih ⟨hlens, hstarts⟩).mpr ⟨hall, hend⟩

/-! ## One file -/

/-- A track is laid out as its region says, apart from where it starts. -/
structure Matches (fileBytes : ℕ) (r : Region) (t : CdTrack) : Prop where
  audio : t.audio = r.track.audio
  sectorBytes : t.sectorBytes = r.track.sectorBytes
  dataOff : t.dataOff = r.track.dataOff
  file : t.file = r.file
  fileByte : t.fileByte = r.dataByte
  len : t.contentSectors = r.len
  room : r.dataByte ≤ r.endByte
  inFile : r.endByte ≤ fileBytes

section File

variable {fileBytes fi base : ℕ}

/-- What `place` does for a track. -/
theorem place_cons {prev : Option CueTrack} {virt byteCursor sectorCursor : ℕ} {t : CueTrack}
    {ts : List CueTrack} {placed : List (CdTrack × ℕ)}
    (h : place fileBytes fi base prev virt byteCursor sectorCursor (t :: ts) = .ok placed) :
    ∃ out rest, placed
        = (out, nextByte prev byteCursor (regionStart prev t - sectorCursor)) :: rest
      ∧ out = { number := t.number, audio := t.audio, sectorBytes := t.sectorBytes,
                dataOff := t.dataOff, file := fi,
                fileByte := nextByte prev byteCursor (regionStart prev t - sectorCursor)
                  + (t.idx01 - regionStart prev t) * t.sectorBytes,
                startLba := (base + (virt + t.pregap) + t.idx01) % 2 ^ 32 }
      ∧ sectorCursor ≤ regionStart prev t ∧ regionStart prev t ≤ t.idx01
      ∧ out.fileByte ≤ fileBytes
      ∧ place fileBytes fi base (some t) (virt + t.pregap)
          (nextByte prev byteCursor (regionStart prev t - sectorCursor)) (regionStart prev t) ts
        = .ok rest := by
  simp only [place] at h
  split_ifs at h with hback hpre hend
  cases hrest : place fileBytes fi base (some t) (virt + t.pregap)
      (nextByte prev byteCursor (regionStart prev t - sectorCursor)) (regionStart prev t) ts with
  | error e =>
      rw [hrest] at h
      cases h
  | ok rest =>
      rw [hrest] at h
      cases h
      exact ⟨_, rest, rfl, rfl, by omega, by omega, Nat.le_of_not_lt hend, rfl⟩

theorem measure_cons {out : CdTrack} {byte : ℕ} {rest : List (CdTrack × ℕ)} {outs : List CdTrack}
    (h : measure fileBytes ((out, byte) :: rest) = .ok outs) :
    ∃ endByte outs', endByte = (rest.head?.map Prod.snd).getD fileBytes ∧ out.fileByte ≤ endByte
      ∧ outs = { out with contentSectors := (endByte - out.fileByte) / out.sectorBytes } :: outs'
      ∧ measure fileBytes rest = .ok outs' := by
  simp only [measure] at h
  split_ifs at h with hover
  cases hrest : measure fileBytes rest with
  | error e =>
      rw [hrest] at h
      cases h
  | ok outs' =>
      rw [hrest] at h
      cases h
      exact ⟨_, outs', rfl, by omega, rfl, rfl⟩

/-- Up to the next region's first sector the content is what lies behind INDEX 01. -/
theorem len_between (fi : ℕ) {t : CueTrack} {first next byte : ℕ} (hpos : 0 < t.sectorBytes)
    (hfirst : first ≤ t.idx01) (hnext : first ≤ next)
    (hroom : byte + (t.idx01 - first) * t.sectorBytes ≤ byte + (next - first) * t.sectorBytes) :
    t.idx01 ≤ next
      ∧ (⟨t, fi, first, byte, byte + (next - first) * t.sectorBytes⟩ : Region).len
        = next - t.idx01 := by
  have hle : t.idx01 - first ≤ next - first :=
    Nat.le_of_mul_le_mul_right (by omega) hpos
  refine ⟨by omega, ?_⟩
  have hsplit : next - first = (next - t.idx01) + (t.idx01 - first) := by omega
  have hbytes : byte + (next - first) * t.sectorBytes - (byte + (t.idx01 - first) * t.sectorBytes)
      = (next - t.idx01) * t.sectorBytes := by
    rw [hsplit, Nat.add_mul]
    omega
  rw [Region.len, Region.dataByte, hbytes, Nat.mul_div_cancel _ hpos]

/-- The tracks of a file lie as their regions say. -/
theorem file_spec : ∀ {ts : List CueTrack} {t : CueTrack} {prev : Option CueTrack}
    {virt byteCursor sectorCursor : ℕ} {placed : List (CdTrack × ℕ)} {outs : List CdTrack},
    (∀ u ∈ t :: ts, 0 < u.sectorBytes) →
    place fileBytes fi base prev virt byteCursor sectorCursor (t :: ts) = .ok placed →
    measure fileBytes placed = .ok outs →
    List.Forall₂ (Matches fileBytes) (regionsFrom fileBytes fi (regionStart prev t)
        (nextByte prev byteCursor (regionStart prev t - sectorCursor)) (t :: ts)) outs
      ∧ Starts (base + virt + regionStart prev t) (regionsFrom fileBytes fi (regionStart prev t)
        (nextByte prev byteCursor (regionStart prev t - sectorCursor)) (t :: ts)) outs := by
  intro ts
  induction ts with
  | nil =>
      intro t prev virt byteCursor sectorCursor placed outs _ hplace hmeasure
      obtain ⟨out, rest, rfl, hout, -, hfirst, hin, hrest⟩ := place_cons hplace
      obtain ⟨endByte, outs', hend, hroom, rfl, htail⟩ := measure_cons hmeasure
      cases hrest
      cases htail
      subst hout hend
      refine ⟨.cons ⟨rfl, rfl, rfl, rfl, rfl, rfl, hroom, le_rfl⟩ .nil, rfl, ?_⟩
      have haddr : base + virt + regionStart prev t
          + (t.pregap + (t.idx01 - regionStart prev t)) = base + (virt + t.pregap) + t.idx01 := by
        omega
      show [_] = [(base + virt + regionStart prev t
          + (t.pregap + (t.idx01 - regionStart prev t))) % 2 ^ 32]
      rw [haddr]
  | cons u ts ih =>
      intro t prev virt byteCursor sectorCursor placed outs hpos hplace hmeasure
      obtain ⟨out, rest, rfl, hout, -, hfirst, hin, hrest⟩ := place_cons hplace
      obtain ⟨endByte, outs', hend, hroom, rfl, htail⟩ := measure_cons hmeasure
      -- the next track is looked at here too: a track ends where the next one's bytes begin
      obtain ⟨out', rest', hcons, hout', hback, -, hin', -⟩ := place_cons hrest
      have htpos := hpos t List.mem_cons_self
      have hupos : ∀ v ∈ u :: ts, 0 < v.sectorBytes :=
        fun v hv => hpos v (List.mem_cons_of_mem t hv)
      obtain ⟨hmatch, hstart⟩ := ih hupos hrest htail
      set first := regionStart prev t with hf
      set byte := nextByte prev byteCursor (first - sectorCursor) with hb
      set next := regionStart (some t) u with hn
      have hnext : nextByte (some t) byte (next - first) = byte + (next - first) * t.sectorBytes :=
        rfl
      rw [hcons] at hend
      replace hend : endByte = byte + (next - first) * t.sectorBytes := hend
      subst hend
      rw [hout] at hroom
      replace hroom : byte + (t.idx01 - first) * t.sectorBytes
          ≤ byte + (next - first) * t.sectorBytes := hroom
      obtain ⟨hle, hlen⟩ := len_between fi htpos hfirst hback hroom
      rw [hout'] at hin'
      replace hin' : byte + (next - first) * t.sectorBytes + (u.idx01 - next) * u.sectorBytes
          ≤ fileBytes := hin'
      have hregions : regionsFrom fileBytes fi first byte (t :: u :: ts)
          = ⟨t, fi, first, byte, byte + (next - first) * t.sectorBytes⟩
            :: regionsFrom fileBytes fi next (byte + (next - first) * t.sectorBytes) (u :: ts) := rfl
      rw [hregions, hout]
      refine ⟨.cons ⟨rfl, rfl, rfl, rfl, rfl, rfl, hroom, le_trans (Nat.le_add_right _ _) hin'⟩ hmatch, ?_, ?_⟩
      · rw [List.map_cons, List.map_cons, hstart.1]
        rfl
      · have haddr : base + virt + first + (t.pregap + (t.idx01 - first))
            = base + (virt + t.pregap) + t.idx01 := by omega
        have hnextaddr : base + virt + first + (t.pregap + (t.idx01 - first)) + (next - t.idx01)
            = base + (virt + t.pregap) + next := by omega
        rw [addresses, hlen, List.map_cons, List.map_cons, hstart.2]
        show _ :: _ = (base + virt + first + (t.pregap + (t.idx01 - first))) % 2 ^ 32
          :: (addresses (base + virt + first + (t.pregap + (t.idx01 - first)) + (next - t.idx01))
            _).map _
        rw [haddr, ← hnextaddr, haddr]
        rfl

end File

/-! ## The disc -/

/-- A track of the disc is laid out in its file. -/
def Fitted (files : List (List U8)) (r : Region) (t : CdTrack) : Prop :=
  ∃ f, files[r.file]? = some f ∧ Matches f.length r t

theorem regionsFrom_file {fileBytes fi : ℕ} : ∀ {ts : List CueTrack} {first byte : ℕ},
    ∀ r ∈ regionsFrom fileBytes fi first byte ts, r.file = fi := by
  intro ts
  induction ts with
  | nil => exact fun r hr => absurd hr List.not_mem_nil
  | cons t ts ih =>
      intro first byte r hr
      cases ts with
      | nil =>
          rw [List.mem_singleton.mp hr]
      | cons u ts =>
          rcases List.mem_cons.mp hr with rfl | hmem
          · rfl
          · exact ih r hmem

theorem forall₂_fitted {files : List (List U8)} {f : List U8} {fi : ℕ} {rs : List Region}
    {outs : List CdTrack} (hf : files[fi]? = some f) (hfile : ∀ r ∈ rs, r.file = fi)
    (h : List.Forall₂ (Matches f.length) rs outs) : List.Forall₂ (Fitted files) rs outs := by
  induction h with
  | nil => exact .nil
  | @cons r t rs outs h _ ih =>
      obtain ⟨hr, hrs⟩ := List.forall_mem_cons.mp hfile
      exact .cons ⟨f, by rw [hr, hf], h⟩ (ih hrs)

/-- The tracks of one file, and those of the files behind it: these begin where the last of its
tracks ends. -/
theorem laid_append_iff {b stop : ℕ} {rs rs' : List Region} {init outs' : List CdTrack}
    {last : CdTrack} (hlength : rs.length = (init ++ [last]).length)
    (hstart : Starts b rs (init ++ [last]))
    (hiff : Laid (last.startLba + last.contentSectors) (rs'.map Region.gap)
        (outs'.map CdTrack.extent) stop
      ↔ ∀ a ∈ addresses (last.startLba + last.contentSectors) rs', a < 2 ^ 32) :
    Laid b ((rs ++ rs').map Region.gap) ((init ++ [last] ++ outs').map CdTrack.extent) stop
      ↔ ∀ a ∈ addresses b (rs ++ rs'), a < 2 ^ 32 := by
  rw [List.map_append, List.map_append, addresses_append, List.forall_mem_append]
  have hlength' : (rs.map Region.gap).length = ((init ++ [last]).map CdTrack.extent).length := by
    rw [List.length_map, List.length_map, hlength]
  have hstop : ∀ {m : ℕ}, Laid b (rs.map Region.gap) ((init ++ [last]).map CdTrack.extent) m →
      last.startLba + last.contentSectors = m := by
    intro m hlaid
    rw [List.map_append] at hlaid
    exact hlaid.stop_last
  constructor
  · intro hlaid
    obtain ⟨m, hlaid₁, hlaid₂⟩ := hlaid.split hlength'
    obtain ⟨hfits, hm⟩ := hstart.laid_iff.mp hlaid₁
    rw [← hstop hlaid₁] at hlaid₂
    refine ⟨hfits, ?_⟩
    rw [← hm, ← hstop hlaid₁]
    exact hiff.mp hlaid₂
  · rintro ⟨hfits, hrest⟩
    have hlaid₁ := hstart.laid_iff.mpr ⟨hfits, rfl⟩
    rw [← hstop hlaid₁] at hrest hlaid₁
    exact hlaid₁.append (hiff.mpr hrest)

/-- From file `fi` on the tracks lie as their regions say, and end to end if no address
is cut. -/
theorem layout_spec {ts : List CueTrack} (all : List (List U8)) (hpos : ∀ t ∈ ts, 0 < t.sectorBytes) :
    ∀ {files : List (List U8)} {fi : ℕ} {tracks tracks' : List CdTrack} {blocks blocks' : ℕ},
    all.drop fi = files → layout ts fi files tracks blocks = .ok (tracks', blocks') →
    ∃ outs, tracks' = tracks ++ outs
      ∧ List.Forall₂ (Fitted all) (discRegions ts fi files) outs
      ∧ (Laid blocks ((discRegions ts fi files).map Region.gap) (outs.map CdTrack.extent) blocks'
        ↔ ∀ a ∈ addresses blocks (discRegions ts fi files), a < 2 ^ 32) := by
  intro files
  induction files with
  | nil =>
      intro fi tracks tracks' blocks blocks' _ h
      cases h
      refine ⟨[], by rw [List.append_nil], .nil, ?_⟩
      exact ⟨fun _ a ha => absurd ha List.not_mem_nil, fun _ => .nil blocks⟩
  | cons f files ih =>
      intro fi tracks tracks' blocks blocks' hdrop h
      have hf : all[fi]? = some f := by
        rw [← Nat.add_zero fi, ← List.getElem?_drop, hdrop]
        rfl
      have hdrop' : all.drop (fi + 1) = files := by
        rw [← List.drop_drop, hdrop]
        rfl
      rw [layout] at h
      simp only at h
      rw [discRegions]
      cases hmine : ts.filter (·.file = fi) with
      | nil =>
          rw [if_pos hmine] at h
          exact ih hdrop' h
      | cons t mine =>
          rw [if_neg (by rw [hmine]; exact List.cons_ne_nil t mine)] at h
          cases hplace : place f.length fi blocks none 0 0 0 (ts.filter (·.file = fi)) with
          | error e =>
              rw [hplace] at h
              cases h
          | ok placed =>
              rw [hplace] at h
              cases hmeasure : measure f.length placed with
              | error e =>
                  simp only [bind, Except.bind, hmeasure] at h
                  cases h
              | ok outs =>
                  simp only [bind, Except.bind, hmeasure] at h
                  rw [hmine] at hplace
                  have hmem : ∀ u ∈ t :: mine, 0 < u.sectorBytes := by
                    intro u hu
                    rw [← hmine] at hu
                    exact hpos u (List.mem_of_mem_filter hu)
                  obtain ⟨hmatch, hstart⟩ := file_spec hmem hplace hmeasure
                  replace hmatch : List.Forall₂ (Matches f.length)
                    (regionsFrom f.length fi 0 0 (t :: mine)) outs := hmatch
                  replace hstart : Starts blocks (regionsFrom f.length fi 0 0 (t :: mine)) outs :=
                    hstart
                  -- a file with tracks ends the disc where its last track does, so there is a last
                  -- one
                  have hne : outs ≠ [] := by
                    rintro rfl
                    have hlen := hmatch.length_eq
                    cases mine <;> cases hlen
                  obtain ⟨init, last, rfl⟩ : ∃ init last, outs = init ++ [last] := by
                    rcases List.eq_nil_or_concat' outs with hnil | ⟨init, last, heq⟩
                    · exact absurd hnil hne
                    · exact ⟨init, last, heq⟩
                  have hback : (tracks ++ (init ++ [last])).getLast? = some last := by
                    rw [← List.append_assoc, List.getLast?_concat]
                  rw [hback] at h
                  simp only at h
                  obtain ⟨outs', htracks, hfit', hiff⟩ := ih hdrop' h
                  refine ⟨init ++ [last] ++ outs', by rw [htracks, List.append_assoc], ?_,
                    laid_append_iff hmatch.length_eq hstart hiff⟩
                  exact List.rel_append (forall₂_fitted hf regionsFrom_file hmatch) hfit'

/-! ## What a sheet may say -/

/-- The sectors of a track are of a kind the code knows: they are not empty, and those of
a data track have room for a block of user data. -/
structure Known (t : CueTrack) : Prop where
  pos : 0 < t.sectorBytes
  room : t.audio = false → t.dataOff + 2048 ≤ t.sectorBytes

theorem trackMode_known {mode : Text} {audio : Bool} {sectorBytes dataOff : ℕ}
    (h : trackMode mode = some (audio, sectorBytes, dataOff)) :
    0 < sectorBytes ∧ (audio = false → dataOff + 2048 ≤ sectorBytes) := by
  unfold trackMode at h
  split_ifs at h
  all_goals
    cases h
    exact ⟨by omega, fun _ => by omega⟩

theorem changeBack_known {f : CueTrack → CueTrack} (hf : ∀ t, Known t → Known (f t)) :
    ∀ {ts : List CueTrack}, (∀ t ∈ ts, Known t) → ∀ t ∈ changeBack f ts, Known t
  | [], _, t, ht => absurd ht List.not_mem_nil
  | [u], h, t, ht => by
      rw [List.mem_singleton.mp ht]
      exact hf u (h u List.mem_cons_self)
  | u :: v :: ts, h, t, ht => by
      rcases List.mem_cons.mp ht with rfl | hmem
      · exact h t List.mem_cons_self
      · exact changeBack_known hf (fun w hw => h w (List.mem_cons_of_mem u hw)) t hmem

/-- A line that sets a time in the last track. -/
theorem timed_known {s s' : Sheet} (hs : ∀ t ∈ s.ts, Known t) {time : Text} {e e' : String}
    {f : ℕ → CueTrack → CueTrack} (hf : ∀ sec t, Known t → Known (f sec t))
    (h : (if s.ts = [] then .error e
      else match parseMsf time with
        | none => .error e'
        | some sec => .ok { s with ts := changeBack (f sec) s.ts }) = Except.ok s') :
    ∀ t ∈ s'.ts, Known t := by
  by_cases hnone : s.ts = []
  · rw [if_pos hnone] at h
    cases h
  rw [if_neg hnone] at h
  cases htime : parseMsf time with
  | none =>
      rw [htime] at h
      cases h
  | some sec =>
      rw [htime] at h
      cases h
      exact changeBack_known (hf sec) hs

theorem cueLine_known {lineNo : ℕ} {line : Text} {s s' : Sheet} (hs : ∀ t ∈ s.ts, Known t)
    (h : cueLine lineNo line s = .ok s') : ∀ t ∈ s'.ts, Known t := by
  unfold cueLine at h
  simp only at h
  generalize cueTokens _ = tok at h
  rcases tok with _ | ⟨kw, args⟩
  · cases h
    exact hs
  · simp only at h
    -- keyword by keyword, in the source's order: only TRACK adds a track, and only in a known mode
    by_cases hfile : upper kw = "FILE".toList
    · rw [if_pos hfile] at h
      rcases args with _ | ⟨name, _ | ⟨type, rest⟩⟩
      · cases h
      · cases h
      · simp only at h
        split_ifs at h
        cases h
        exact hs
    rw [if_neg hfile] at h
    by_cases htrack : upper kw = "TRACK".toList
    · rw [if_pos htrack] at h
      rcases args with _ | ⟨number, _ | ⟨mode, rest⟩⟩
      · cases h
      · cases h
      · simp only at h
        split_ifs at h
        cases hmode : trackMode (upper mode) with
        | none =>
            rw [hmode] at h
            cases h
        | some m =>
            obtain ⟨audio, sectorBytes, dataOff⟩ := m
            rw [hmode] at h
            cases h
            obtain ⟨hpos, hroom⟩ := trackMode_known hmode
            intro t ht
            rcases List.mem_append.mp ht with hmem | hmem
            · exact hs t hmem
            · rw [List.mem_singleton.mp hmem]
              exact ⟨hpos, hroom⟩
    rw [if_neg htrack] at h
    by_cases hindex : upper kw = "INDEX".toList
    · rw [if_pos hindex] at h
      rcases args with _ | ⟨number, _ | ⟨time, rest⟩⟩
      · cases h
      · cases h
      · simp only at h
        refine timed_known hs ?_ h
        exact fun _ _ ht => ⟨ht.pos, ht.room⟩
    rw [if_neg hindex] at h
    by_cases hpregap : upper kw = "PREGAP".toList
    · rw [if_pos hpregap] at h
      rcases args with _ | ⟨time, rest⟩
      · cases h
      · simp only at h
        refine timed_known hs ?_ h
        exact fun _ _ ht => ⟨ht.pos, ht.room⟩
    rw [if_neg hpregap] at h
    cases h
    exact hs

theorem cueLines_known : ∀ {ls : List Text} {lineNo : ℕ} {s s' : Sheet}, (∀ t ∈ s.ts, Known t) →
    cueLines lineNo ls s = .ok s' → ∀ t ∈ s'.ts, Known t := by
  intro ls
  induction ls with
  | nil =>
      intro lineNo s s' hs h
      cases h
      exact hs
  | cons l ls ih =>
      intro lineNo s s' hs h
      rw [cueLines] at h
      cases hline : cueLine lineNo l s with
      | error e =>
          rw [hline] at h
          cases h
      | ok s₁ =>
          rw [hline] at h
          exact ih (cueLine_known hs hline) h

theorem cueSheet_known {disk : Disk} {cuePath : Text} {s : Sheet}
    (h : cueSheet disk cuePath = .ok s) : ∀ t ∈ s.ts, Known t := by
  unfold cueSheet at h
  cases hfile : disk cuePath with
  | none =>
      rw [hfile] at h
      cases h
  | some bytes =>
      rw [hfile] at h
      simp only at h
      split_ifs at h
      cases hlines : cueLines 1 (lines (bytes.map fun b => Char.ofNat b.toNat)) {} with
      | error e =>
          rw [hlines] at h
          cases h
      | ok s₁ =>
          simp only [bind, Except.bind, hlines] at h
          split_ifs at h
          split at h
          · cases h
          · cases h
            exact cueLines_known (fun t ht => absurd ht List.not_mem_nil) hlines

/-! ## The partition -/

variable {img : CdImage} {rs : List Region} {disk : Disk} {cuePath : Text} {s : Sheet}
  {files : List (List U8)}

/-- An image that opens has a sheet, and files. -/
theorem openCue_parts (h : openCue disk cuePath = .ok img) : ∃ s files,
    cueSheet disk cuePath = .ok s ∧ openFiles disk (dirOf cuePath) s.fileNames = .ok files := by
  unfold openCue at h
  cases hs : cueSheet disk cuePath with
  | error e =>
      rw [hs] at h
      cases h
  | ok s =>
      cases hfiles : openFiles disk (dirOf cuePath) s.fileNames with
      | error e =>
          simp only [bind, Except.bind, hs, hfiles] at h
          cases h
      | ok files => exact ⟨s, files, rfl, hfiles⟩

/-- What `openCue` has done when it opens an image. -/
theorem openCue_ok (hs : cueSheet disk cuePath = .ok s)
    (hfiles : openFiles disk (dirOf cuePath) s.fileNames = .ok files)
    (h : openCue disk cuePath = .ok img) :
    img.files = files ∧ layout s.ts 0 files [] 0 = .ok (img.tracks, img.blocks) := by
  unfold openCue at h
  cases hlayout : layout s.ts 0 files [] 0 with
  | error e =>
      simp only [bind, Except.bind, hs, hfiles, hlayout] at h
      cases h
  | ok res =>
      obtain ⟨tracks, blocks⟩ := res
      simp only [bind, Except.bind, hs, hfiles, hlayout] at h
      split_ifs at h
      cases h
      exact ⟨rfl, rfl⟩

/-- The track that a block of its content belongs to. -/
theorem trackAt_of_has (hlaid : (img.tracks.map CdTrack.extent).Pairwise fun e e' => e.stop ≤ e'.start)
    {t : CdTrack} (ht : t ∈ img.tracks) {lba : ℕ} (hlba : t.extent.Has lba) :
    img.trackAt lba = some t := by
  obtain ⟨pre, post, hsplit⟩ := List.append_of_mem ht
  rw [hsplit, List.map_append, List.map_cons, List.pairwise_append] at hlaid
  obtain ⟨-, hpost, hpre⟩ := hlaid
  obtain ⟨hpost, -⟩ := List.pairwise_cons.mp hpost
  obtain ⟨hge, hlt⟩ := hlba
  have hbefore : ∀ u ∈ pre, u.startLba ≤ lba := by
    intro u hu
    have hle := hpre _ (List.mem_map_of_mem hu) _ List.mem_cons_self
    exact le_trans (Nat.le_add_right _ _) (le_trans hle hge)
  have hafter : ∀ u ∈ post, lba < u.startLba := by
    intro u hu
    exact lt_of_lt_of_le hlt (hpost _ (List.mem_map_of_mem hu))
  rw [CdImage.trackAt]
  cases htracks : img.tracks with
  | nil =>
      rw [htracks] at ht
      exact absurd ht List.not_mem_nil
  | cons u us =>
      simp only
      rw [← htracks, hsplit, lastFrom_append hbefore hge hafter]

theorem trackAt_mem (img : CdImage) (lba : ℕ) (hne : img.tracks ≠ []) :
    ∃ u ∈ img.tracks, img.trackAt lba = some u := by
  rw [CdImage.trackAt]
  cases htracks : img.tracks with
  | nil => exact absurd htracks hne
  | cons u us =>
      refine ⟨lastFrom CdTrack.startLba lba u (u :: us), ?_, rfl⟩
      rcases List.mem_cons.mp (lastFrom_mem CdTrack.startLba lba u (u :: us)) with
        heq | hmem
      · rw [heq]
        exact List.mem_cons_self
      · exact hmem

theorem regionsFrom_track {fileBytes fi : ℕ} : ∀ {ts : List CueTrack} {first byte : ℕ},
    ∀ r ∈ regionsFrom fileBytes fi first byte ts, r.track ∈ ts := by
  intro ts
  induction ts with
  | nil => exact fun r hr => absurd hr List.not_mem_nil
  | cons t ts ih =>
      intro first byte r hr
      cases ts with
      | nil =>
          rw [List.mem_singleton.mp hr]
          exact List.mem_cons_self
      | cons u ts =>
          rcases List.mem_cons.mp hr with rfl | hmem
          · exact List.mem_cons_self
          · exact List.mem_cons_of_mem t (ih r hmem)

theorem discRegions_track {ts : List CueTrack} : ∀ {files : List (List U8)} {fi : ℕ},
    ∀ r ∈ discRegions ts fi files, r.track ∈ ts := by
  intro files
  induction files with
  | nil => exact fun r hr => absurd hr List.not_mem_nil
  | cons f files ih =>
      intro fi r hr
      rcases List.mem_append.mp hr with hmem | hmem
      · exact List.mem_of_mem_filter (regionsFrom_track r hmem)
      · exact ih r hmem

theorem fitted_at {all : List (List U8)} {tracks : List CdTrack}
    (h : List.Forall₂ (Fitted all) rs tracks) {i : ℕ} {r : Region} {t : CdTrack}
    (hr : rs[i]? = some r) (ht : tracks[i]? = some t) : Fitted all r t := by
  obtain ⟨hi, rfl⟩ := List.getElem?_eq_some_iff.mp hr
  obtain ⟨hi', rfl⟩ := List.getElem?_eq_some_iff.mp ht
  exact h.get hi hi'

/-- A sector of content lies inside its region, and the region inside its file. -/
theorem Matches.inside {fileBytes : ℕ} {r : Region} {t : CdTrack} (h : Matches fileBytes r t)
    {k : ℕ} (hk : k < t.contentSectors) : r.byte ≤ t.fileByte + k * t.sectorBytes
      ∧ t.fileByte + (k + 1) * t.sectorBytes ≤ r.endByte ∧ r.endByte ≤ fileBytes := by
  have hroom := h.room
  rw [h.len, Region.len] at hk
  have hmul : (k + 1) * r.track.sectorBytes ≤ r.endByte - r.dataByte :=
    le_trans (Nat.mul_le_mul_right _ hk) (Nat.div_mul_le_self _ _)
  rw [h.fileByte, h.sectorBytes]
  have hbyte : r.byte ≤ r.dataByte := Nat.le_add_right _ _
  exact ⟨by omega, by omega, h.inFile⟩

theorem readAt_inside {f : List U8} {byte : ℕ} (h : byte + 2048 ≤ f.length) :
    CdImage.readAt f byte = (f.drop byte).take 2048 := by
  have hlen : ((f.drop byte).take 2048).length = 2048 := by
    rw [List.length_take, List.length_drop]
    omega
  have hzeros : CdImage.zeros.length = 2048 := List.length_replicate
  rw [CdImage.readAt, hlen, ← hzeros, List.drop_length, List.append_nil, hzeros]

theorem extent_at {i : ℕ} {t : CdTrack} (ht : img.tracks[i]? = some t) :
    (img.tracks.map CdTrack.extent)[i]? = some t.extent := by
  rw [List.getElem?_map, ht]
  rfl

section Laid

variable (hfit : List.Forall₂ (Fitted img.files) rs img.tracks)
  (hlaid : Laid 0 (rs.map Region.gap) (img.tracks.map CdTrack.extent) img.blocks)
include hlaid

theorem stop_le_of_laid : ∀ t ∈ img.tracks, t.startLba + t.contentSectors ≤ img.blocks :=
  fun _ ht => (hlaid.within.2 _ (List.mem_map_of_mem ht)).2

theorem sorted_of_laid : img.tracks.Pairwise fun t u => t.startLba ≤ u.startLba := by
  have hsorted := sorted_of_pairwise hlaid.pairwise
  rw [List.pairwise_map] at hsorted
  exact hsorted

include hfit in
/-- A sector of a data track reads from the file, at the place of its user data. -/
theorem reads_of_laid (hknown : ∀ r ∈ rs, Known r.track) : ∀ t ∈ img.tracks, t.audio = false →
    ∃ f, img.files[t.file]? = some f ∧ ∀ k < t.contentSectors,
      t.dataOff + 2048 ≤ t.sectorBytes ∧ img.readBlock (t.startLba + k)
        = (true, (f.drop (t.fileByte + k * t.sectorBytes + t.dataOff)).take 2048) := by
  intro t ht haudio
  obtain ⟨i, hi, hget⟩ := List.getElem_of_mem ht
  have hget' : img.tracks[i]? = some t := by rw [List.getElem?_eq_getElem hi, hget]
  have hri : i < rs.length := by
    rw [hfit.length_eq]
    exact hi
  have hr := List.getElem?_eq_getElem hri
  obtain ⟨f, hf, hm⟩ := fitted_at hfit hr hget'
  have hfile : img.files[t.file]? = some f := by rw [hm.file, hf]
  refine ⟨f, hfile, fun k hk => ?_⟩
  obtain ⟨-, hend, hin⟩ := hm.inside hk
  have hroom : t.dataOff + 2048 ≤ t.sectorBytes := by
    rw [hm.dataOff, hm.sectorBytes]
    refine (hknown _ (List.getElem_mem hri)).room ?_
    rw [← hm.audio]
    exact haudio
  have hhas : t.extent.Has (t.startLba + k) := by
    refine ⟨Nat.le_add_right _ _, ?_⟩
    show t.startLba + k < t.startLba + t.contentSectors
    omega
  have hblocks := stop_le_of_laid hlaid t ht
  refine ⟨hroom, ?_⟩
  rw [CdImage.readBlock, if_neg (by omega), trackAt_of_has hlaid.pairwise ht hhas]
  simp only [haudio, Bool.false_eq_true, if_false]
  rw [if_neg (by omega), Nat.add_sub_cancel_left, if_neg (by omega), hfile]
  rw [Nat.add_mul] at hend
  simp only
  rw [readAt_inside (by omega)]

/-- A track found in front of another is one that comes before it, and ends in front of the
other's gap. -/
theorem ends_before_gap {i j : ℕ} {r : Region} {t u : CdTrack} (hr : rs[i]? = some r)
    (ht : img.tracks[i]? = some t) (hu : img.tracks[j]? = some u) (hlt : u.startLba < t.startLba) :
    u.startLba + u.contentSectors + r.gap ≤ t.startLba := by
  have hgap : (rs.map Region.gap)[i]? = some r.gap := by
    rw [List.getElem?_map, hr]
    rfl
  have hji : j < i := by
    by_contra hnot
    rcases Nat.eq_or_lt_of_le (Nat.le_of_not_lt hnot) with rfl | hij
    · rw [hu] at ht
      injection ht with ht
      rw [ht] at hlt
      omega
    · have hfree := sorted_of_laid hlaid
      rw [List.pairwise_iff_getElem] at hfree
      obtain ⟨hi', hgeti⟩ := List.getElem?_eq_some_iff.mp ht
      obtain ⟨hj', hgetj⟩ := List.getElem?_eq_some_iff.mp hu
      have hle := hfree i j hi' hj' hij
      rw [hgeti, hgetj] at hle
      omega
  exact hlaid.gap_free hgap (extent_at ht) (extent_at hu) hji

/-- A sector of a gap is silent, whatever track is found for it. -/
theorem silent_of_laid {i : ℕ} {r : Region} {t : CdTrack} (hr : rs[i]? = some r)
    (ht : img.tracks[i]? = some t) {lba : ℕ} (hge : t.startLba ≤ lba + r.gap)
    (hlt : lba < t.startLba) :
    ∃ u, img.trackAt lba = some u ∧ img.readBlock lba = (!u.audio, CdImage.zeros) := by
  obtain ⟨u, hu, hat⟩ := trackAt_mem img lba (fun hnil => by rw [hnil] at ht; cases ht)
  refine ⟨u, hat, ?_⟩
  have hblocks : lba < img.blocks := by
    have hle := stop_le_of_laid hlaid t (List.mem_of_getElem? ht)
    omega
  rw [CdImage.readBlock, if_neg (by omega), hat]
  simp only
  cases haudio : u.audio with
  | true => rfl
  | false =>
      rw [if_neg Bool.false_ne_true]
      by_cases hbefore : lba < u.startLba
      · rw [if_pos hbefore]
        rfl
      · obtain ⟨j, hj, hget⟩ := List.getElem_of_mem hu
        have hget' : img.tracks[j]? = some u := by rw [List.getElem?_eq_getElem hj, hget]
        have hfree := ends_before_gap hlaid hr ht hget' (by omega)
        rw [if_neg hbefore, if_pos (by omega)]
        rfl

include hfit in
/-- Tracks that lie end to end are a partition. -/
theorem partition_of_laid (hknown : ∀ r ∈ rs, Known r.track) : Partition img rs where
  tiled := hlaid
  sorted := sorted_of_laid hlaid
  disjoint := fun _ _ _ _ hi hj hne _ =>
    disjoint_of_pairwise hlaid.pairwise (extent_at hi) (extent_at hj) hne
  bounded := stop_le_of_laid hlaid
  inside := by
    intro i r t hr ht
    obtain ⟨f, hf, hm⟩ := fitted_at hfit hr ht
    exact ⟨hm.file, f, by rw [hm.file, hf], fun k hk => hm.inside hk⟩
  reads := reads_of_laid hfit hlaid hknown
  silent := fun _ _ _ hr ht _ hge hlt => silent_of_laid hlaid hr ht hge hlt

end Laid

/-- The layout of a sheet is a partition of the disc exactly if no track begins at or
behind sector 2^32 of what the sheet and its files describe. -/
theorem openCue_partition_iff (hs : cueSheet disk cuePath = .ok s)
    (hfiles : openFiles disk (dirOf cuePath) s.fileNames = .ok files)
    (h : openCue disk cuePath = .ok img) :
    Partition img (discRegions s.ts 0 files)
      ↔ ∀ a ∈ addresses 0 (discRegions s.ts 0 files), a < 2 ^ 32 := by
  have hknown := cueSheet_known hs
  obtain ⟨rfl, hlayout⟩ := openCue_ok hs hfiles h
  obtain ⟨outs, htracks, hfit, hiff⟩ := layout_spec img.files
    (fun t ht => (hknown t ht).pos) rfl hlayout
  rw [List.nil_append] at htracks
  subst htracks
  constructor
  · intro hpart
    exact hiff.mp hpart.tiled
  · intro hfits
    refine partition_of_laid hfit (hiff.mpr hfits) ?_
    exact fun r hr => hknown _ (discRegions_track r hr)

/-! ## A pregap that is cut -/

/-- A file with three blocks and two tracks of them, the second behind a pregap. -/
def twoTracks (pregap : String) : Disk := fun name =>
  if name = "disc.cue".toList then
    let sheet := "FILE disc.bin BINARY\nTRACK 01 MODE1/2048\nINDEX 01 00:00:00\n".toList
      ++ "TRACK 02 MODE1/2048\nPREGAP ".toList ++ pregap.toList
      ++ "\nINDEX 01 00:00:02\n".toList
    some (sheet.map fun c => BitVec.ofNat 8 c.toNat)
  else if name = "disc.bin".toList then some (List.replicate (3 * 2048) 0#8)
  else none

/-- The addresses of a sheet's tracks, if it can be read. -/
def sheetAddresses (disk : Disk) (cuePath : Text) : Except String (List ℕ) := do
  let s ← cueSheet disk cuePath
  let files ← openFiles disk (dirOf cuePath) s.fileNames
  .ok (addresses 0 (discRegions s.ts 0 files))

theorem sheetAddresses_ok (hs : cueSheet disk cuePath = .ok s)
    (hfiles : openFiles disk (dirOf cuePath) s.fileNames = .ok files) :
    sheetAddresses disk cuePath = .ok (addresses 0 (discRegions s.ts 0 files)) := by
  simp only [sheetAddresses, bind, Except.bind, hs, hfiles]

theorem twoTracks_addresses :
    sheetAddresses (twoTracks "00:02:00") "disc.cue".toList = .ok [0, 152] := by
  decide +kernel

theorem twoTracks_opens : (openCue (twoTracks "00:02:00") "disc.cue".toList).toBool = true := by
  decide +kernel

/-- Two seconds between the tracks. -/
theorem twoTracks_partition : ∃ s files img,
    cueSheet (twoTracks "00:02:00") "disc.cue".toList = .ok s
    ∧ openFiles (twoTracks "00:02:00") (dirOf "disc.cue".toList) s.fileNames = .ok files
    ∧ openCue (twoTracks "00:02:00") "disc.cue".toList = .ok img
    ∧ Partition img (discRegions s.ts 0 files) := by
  have hopens := twoTracks_opens
  have haddresses := twoTracks_addresses
  generalize twoTracks "00:02:00" = disk at hopens haddresses ⊢
  cases hopen : openCue disk "disc.cue".toList with
  | error e =>
      rw [hopen] at hopens
      cases hopens
  | ok img =>
      obtain ⟨s, files, hs, hfiles⟩ := openCue_parts hopen
      refine ⟨s, files, img, hs, hfiles, rfl, (openCue_partition_iff hs hfiles hopen).mpr ?_⟩
      have haddr := (sheetAddresses_ok hs hfiles).symm.trans haddresses
      injection haddr with haddr
      rw [haddr]
      decide

/-- Its second track behind a pregap of 2^32 - 1 sectors. -/
def longPregap : Disk := twoTracks "954437:10:45"

theorem longPregap_opens : (match openCue longPregap "disc.cue".toList with
    | .ok img => decide (img.tracks.map CdTrack.extent = [⟨0, 2⟩, ⟨1, 1⟩])
    | .error _ => false) = true := by
  decide +kernel

/-- Its second track is laid over the first one's second block. -/
theorem longPregap_overlaps : ∃ img, openCue longPregap "disc.cue".toList = .ok img
    ∧ img.tracks.map CdTrack.extent = [⟨0, 2⟩, ⟨1, 1⟩] := by
  have hopens := longPregap_opens
  cases hopen : openCue longPregap "disc.cue".toList with
  | error e =>
      rw [hopen] at hopens
      cases hopens
  | ok img =>
      rw [hopen] at hopens
      exact ⟨img, rfl, of_decide_eq_true hopens⟩

theorem longPregap_not_partition : ¬ ∀ (disk : Disk) (cuePath : Text) (s : Sheet)
    (files : List (List U8)) (img : CdImage), cueSheet disk cuePath = .ok s →
    openFiles disk (dirOf cuePath) s.fileNames = .ok files → openCue disk cuePath = .ok img →
    Partition img (discRegions s.ts 0 files) := by
  intro hall
  obtain ⟨img, hopen, hextents⟩ := longPregap_overlaps
  obtain ⟨s, files, hs, hfiles⟩ := openCue_parts hopen
  have hpart := hall _ _ s files img hs hfiles hopen
  obtain ⟨t, u, htracks, ht, hu⟩ : ∃ t u, img.tracks = [t, u] ∧ t.extent = ⟨0, 2⟩
      ∧ u.extent = ⟨1, 1⟩ := by
    obtain ⟨t, ts, htracks, ht, hrest⟩ := List.map_eq_cons_iff.mp hextents
    obtain ⟨u, us, rfl, hu, hnil⟩ := List.map_eq_cons_iff.mp hrest
    obtain rfl : us = [] := List.map_eq_nil_iff.mp hnil
    exact ⟨t, u, htracks, ht, hu⟩
  apply hpart.disjoint 0 1 t u (by rw [htracks]; rfl) (by rw [htracks]; rfl) (by decide) 1
  rw [ht, hu]
  exact ⟨⟨by decide, by decide⟩, ⟨by decide, by decide⟩⟩

end Cue

end OpenPowerMac
