import Liigboot.Fs.Btrfs.NextExtent
import Liigboot.Fs.ReadFile

/-!
# Reading a btrfs file

The driver takes every extent for a regular one. So a file is read right where its extents are
regular. A hole, and an extent that is preallocated, is read from some place on disk, and where no
extent begins the file is cut.
-/

namespace Liigboot.Fs.Btrfs

variable {vol : BtrfsVolume} {ino : UInt32} {size : UInt32} {pvt : UInt64}

/-- Where the driver reads the sectors of a file. For those that are in no extent it does not
matter. -/
def readMap (vol : BtrfsVolume) (extents : List Visit) (gap : Option Nat) : SectorMap := fun l =>
  match extents.find? fun v => v.Covers (l * vol.sectorSize) with
  | none => gap
  | some v => some (readSector vol v l)

/-! ## The place of a sector -/

/-- The extent that covers a position is the one found there. -/
theorem BtrfsFile.find_covers (f : BtrfsFile vol ino) {v : Visit} {pos : Nat}
    (hv : v ∈ f.extents ino) (hcovers : v.Covers pos) :
    (f.extents ino).find? (fun v => v.Covers pos) = some v := by
  cases hfind : (f.extents ino).find? (fun v => v.Covers pos) with
  | none => exact absurd (decide_eq_true hcovers) (List.find?_eq_none.mp hfind v hv)
  | some w =>
    have hw : w.Covers pos := by
      have hp := List.find?_some hfind
      exact of_decide_eq_true hp
    rw [f.eq_of_covers (List.mem_of_find?_eq_some hfind) hv hw hcovers]

/-- A sector of an extent is read from it. -/
theorem readMap_of_covers (f : BtrfsFile vol ino) {v : Visit} {l : Nat} (gap : Option Nat)
    (hv : v ∈ f.extents ino) (hcovers : v.Covers (l * vol.sectorSize)) :
    readMap vol (f.extents ino) gap l = some (readSector vol v l) := by
  rw [readMap, f.find_covers hv hcovers]

/-- In a gap no extent is found. -/
theorem find_of_gap {extents : List Visit} {pos : Nat} (hgap : ¬∃ v ∈ extents, v.Covers pos) :
    extents.find? (fun v => v.Covers pos) = none := by
  refine List.find?_eq_none.mpr fun v hv hcovers => hgap ⟨v, hv, of_decide_eq_true hcovers⟩

/-- A logical address lies where its chunk says. -/
theorem diskPlace_eq (f : BtrfsFile vol ino) {c : BtrfsChunkMapItem} {logical : Nat}
    (hc : c ∈ vol.map) (hcovers : c.Covers logical) :
    diskPlace vol.map logical = some (c.physical.toNat + (logical - c.logical.toNat)) := by
  rw [diskPlace]
  cases hfind : vol.map.find? fun c => c.Covers logical with
  | none => exact absurd (decide_eq_true hcovers) (List.find?_eq_none.mp hfind c hc)
  | some e =>
    have hecovers : e.Covers logical := by
      have hp := List.find?_some hfind
      exact of_decide_eq_true hp
    have he := List.mem_of_find?_eq_some hfind
    obtain ⟨hclo, hchi⟩ := hcovers
    obtain ⟨helo, hehi⟩ := hecovers
    obtain ⟨-, hsame, hce⟩ := f.apart c hc e he
    obtain ⟨-, -, hec⟩ := f.apart e he c hc
    have heq : c.logical = e.logical := by
      refine UInt64.toNat_inj.mp ?_
      rcases Nat.lt_trichotomy c.logical.toNat e.logical.toNat with h | h | h
      · have hend := hce h
        omega
      · exact h
      · have hend := hec h
        omega
    rw [Option.map_some, heq, (hsame heq).2]

/-- In a regular extent, the driver reads the sectors of the file. -/
theorem fileMap_of_regular (f : BtrfsFile vol ino) {v : Visit} {l : Nat} (hv : v ∈ f.extents ino)
    (hcovers : v.Covers (l * vol.sectorSize)) (hregular : v.Regular) :
    fileMap vol (f.extents ino) l = some (readSector vol v l) := by
  have hok := f.extents_ok v hv
  have hpos := vol.sectorSize_pos
  obtain ⟨hlo, hhi⟩ := hcovers
  obtain ⟨c, hc, hclo, hchi⟩ := hok.chunk hregular.2
  obtain ⟨hwhole, -, -⟩ := f.apart c hc c hc
  have hphysical := (f.aligned c hc).physical_lt
  have hnum := hok.num_pos
  -- The logical address does not wrap, and the chunk has it.
  have haddress : (v.extent.diskBytenr + v.extent.offset).toNat = v.address := by
    rw [UInt64.toNat_add]
    refine Nat.mod_eq_of_lt ?_
    rw [← Visit.address]
    omega
  have hplace : (logicalPhysical vol.map (v.extent.diskBytenr + v.extent.offset)).toNat =
      c.physical.toNat + (v.address - c.logical.toNat) := by
    rw [logicalPhysical_eq f.ordered hc (f.apart c hc)
      (by rw [haddress]; exact ⟨hclo, by omega⟩), UInt64.toNat_sub, UInt64.toNat_add, haddress]
    omega
  obtain ⟨s, hs⟩ := hok.start_dvd
  have hsl : s ≤ l := by
    rw [hs, Nat.mul_comm] at hlo
    exact Nat.le_of_mul_le_mul_right hlo hpos
  have hdelta : l * vol.sectorSize - v.start = vol.sectorSize * (l - s) := by
    rw [hs, Nat.mul_sub, Nat.mul_comm l]
  have hcovered : c.Covers (v.address + vol.sectorSize * (l - s)) := ⟨by omega, by omega⟩
  rw [fileMap, f.find_covers hv ⟨hlo, hhi⟩]
  dsimp only
  rw [if_pos hregular, hdelta, diskPlace_eq f hc hcovered, Option.map_some, readSector, hplace, hs,
    Nat.mul_div_cancel_left s hpos, Nat.add_comm v.address, Nat.add_sub_assoc hclo,
    ← Nat.add_assoc, Nat.add_right_comm, Nat.add_mul_div_left _ _ hpos]

/-- Elsewhere the file holds zeros. -/
theorem fileMap_of_not_regular (f : BtrfsFile vol ino) {v : Visit} {l : Nat}
    (hv : v ∈ f.extents ino) (hcovers : v.Covers (l * vol.sectorSize)) (hregular : ¬v.Regular) :
    fileMap vol (f.extents ino) l = none := by
  rw [fileMap, f.find_covers hv hcovers]
  exact if_neg hregular

/-! ## The driver -/

/-- The sectors that the driver is asked for: those at which an extent begins, in front of a
limit. -/
def StartsExtent (vol : BtrfsVolume) (extents : List Visit) (limit l : Nat) : Prop :=
  limit ≤ l ∨ ∃ v ∈ extents, v.start = l * vol.sectorSize

/-- A sector of a file begins in front of its end. -/
theorem sector_lt {l : Nat} (hl : l < (vol.fsInfo ino).sectorsOf size.toNat) :
    l * vol.sectorSize < size.toNat := by
  have hpos := vol.sectorSize_pos
  have hle : (l + 1) * vol.sectorSize ≤ size.toNat + vol.sectorSize - 1 :=
    (Nat.le_div_iff_mul_le hpos).mp hl
  rw [Nat.succ_mul] at hle
  omega

/-- Of the covered sectors, the first one and those behind an extent begin an extent. -/
theorem startsExtent_of_covered (f : BtrfsFile vol ino) {limit l : Nat}
    (hcovered : ∀ l < limit, ∃ v ∈ f.extents ino, v.Covers (l * vol.sectorSize))
    (hend : l = 0 ∨ ∃ v ∈ f.extents ino,
      v.start + v.extent.numBytes.toNat = l * vol.sectorSize) :
    StartsExtent vol (f.extents ino) limit l := by
  rcases Nat.lt_or_ge l limit with hlt | hge
  · obtain ⟨w, hw, hlo, hhi⟩ := hcovered l hlt
    refine Or.inr ⟨w, hw, ?_⟩
    rcases hend with rfl | ⟨v, hv, heq⟩
    · omega
    · rcases f.eq_or_apart hv hw with rfl | h | h
      · omega
      · omega
      · have hpos := (f.extents_ok v hv).num_pos
        omega
  · exact Or.inl hge

/-- In front of a limit up to which all sectors are covered, the driver maps them as it reads
them. -/
theorem btrfs_implements (f : BtrfsFile vol ino) (hfits : f.disk.Fits f.level) (gap : Option Nat)
    {limit : Nat} (hlimit : limit ≤ (vol.fsInfo ino).sectorsOf size.toNat)
    (hcovered : ∀ l < limit, ∃ v ∈ f.extents ino, v.Covers (l * vol.sectorSize)) :
    ImplementsFrom (vol.fsInfo ino) (readMap vol (f.extents ino) gap) size (fun _ => True)
      (StartsExtent vol (f.extents ino) limit) limit := by
  refine ⟨fun inode lstart _ _ _ hstart hlt => ?_⟩
  obtain ⟨v, hv, hvstart⟩ := hstart.resolve_left (Nat.not_le.mpr hlt)
  have hok := f.extents_ok v hv
  have hpos := vol.sectorSize_pos
  have hsector := sector_lt (hlt.trans_le hlimit)
  have hsize := size.toNat_lt
  obtain ⟨n, hn⟩ := hok.num_dvd
  have hnum := hok.num_pos
  have hend := hok.end_lt
  have hsum : v.start + v.extent.numBytes.toNat = vol.sectorSize * (lstart + n) := by
    rw [hvstart, hn, Nat.mul_comm lstart, Nat.mul_add]
  rw [hsum, Nat.mul_div_cancel_left _ hpos] at hend
  have hnext : (vol.fsInfo ino).nextExtent inode lstart =
      ⟨false, (logicalPhysical vol.map (v.extent.diskBytenr + v.extent.offset)).toNat /
        vol.sectorSize, n, v.extent.diskBytenr + v.extent.offset⟩ := by
    rw [← Nat.mul_div_cancel_left n hpos, ← hn]
    exact btrfsNextExtent_of_mem f hfits hv hvstart (by omega) inode
  -- A physical sector is far from the special ones.
  have hshift : 512 ≤ vol.sectorSize :=
    (Nat.pow_le_pow_right (by decide) vol.shift_le : 2 ^ 9 ≤ 2 ^ vol.sectorShift)
  have hplace : (logicalPhysical vol.map (v.extent.diskBytenr + v.extent.offset)).toNat /
      vol.sectorSize ≤ 2 ^ 64 / 512 :=
    (Nat.div_le_div_left hshift (by decide)).trans
      (Nat.div_le_div_right (UInt64.toNat_lt _).le)
  rw [hnext]
  refine ⟨rfl, ?_, trivial, ⟨hend, fun _ => Or.inr ?_, fun j hj => ?_⟩, ?_⟩
  · refine Nat.pos_of_ne_zero fun hzero : n = 0 => ?_
    rw [hzero, Nat.mul_zero] at hn
    omega
  · dsimp only
    rw [extentVoid]
    omega
  · dsimp only at hj ⊢
    have hjn : (lstart + j) * vol.sectorSize < (lstart + n) * vol.sectorSize :=
      Nat.mul_lt_mul_of_pos_right (Nat.add_lt_add_left hj lstart) hpos
    have hcovers : v.Covers ((lstart + j) * vol.sectorSize) := by
      constructor
      · rw [hvstart]
        exact Nat.mul_le_mul_right _ (Nat.le_add_right _ _)
      · rw [hsum, Nat.mul_comm vol.sectorSize]
        exact hjn
    rw [readMap_of_covers f gap hv hcovers, readSector, Extent.phys, if_neg, hvstart,
      Nat.mul_div_cancel _ hpos, Nat.add_sub_cancel_left]
    dsimp only
    rw [extentZero]
    omega
  · refine startsExtent_of_covered f hcovered (Or.inr ⟨v, hv, ?_⟩)
    rw [hsum, Nat.mul_comm]

/-! ## What is read -/

/-- With a gap, the driver does not read on. -/
theorem not_reads_of_gap (f : BtrfsFile vol ino) (hfits : f.disk.Fits f.level) (map : SectorMap)
    (hsize : size.toNat + vol.sectorSize - 1 < 2 ^ 32) {g : Nat}
    (hg : g < (vol.fsInfo ino).sectorsOf size.toNat)
    (hcovered : ∀ l < g, ∃ v ∈ f.extents ino, v.Covers (l * vol.sectorSize))
    (hgap : ¬∃ v ∈ f.extents ino, v.Covers (g * vol.sectorSize)) :
    ¬ReadsInOrder (vol.fsInfo ino) map size pvt [g, 1] := by
  rintro ⟨N, hN⟩
  have hpos := vol.sectorSize_pos
  have hs := size.toNat_lt
  have hlt := sector_lt hg
  have hstart : StartsExtent vol (f.extents ino) g 0 :=
    startsExtent_of_covered f hcovered (Or.inl rfl)
  -- The sectors in front of the gap are read, whatever is taken for the gap.
  have hfirst : ∀ gap, ∃ got, genericGetfssec (vol.fsInfo ino) (N + g + 3) (Inode.fresh size pvt)
      0 g = some got ∧ CachedFrom (readMap vol (f.extents ino) gap) size (fun _ => True)
        (StartsExtent vol (f.extents ino) g) got.inode ∧
      got.offset = g * vol.sectorSize ∧ got.data.length = g * vol.sectorSize := by
    intro gap
    have hfresh : CachedFrom (readMap vol (f.extents ino) gap) size (fun _ => True)
        (StartsExtent vol (f.extents ino) g) (Inode.fresh size pvt) :=
      CachedFrom.fresh _ size trivial hstart
    obtain ⟨got, hgot, hcached, hoffset, hdata, -⟩ := genericGetfssec_from
      (btrfs_implements f hfits gap hg.le hcovered) hsize hfresh
      ⟨Nat.zero_le _, Or.inl (Nat.dvd_zero _)⟩ (fun _ => Or.inl (Nat.zero_div _))
      (Or.inl (by rw [Nat.zero_div, Nat.zero_add])) (show g + 2 ≤ N + g + 3 by omega)
    have hsame : (vol.fsInfo ino).sectorSize = vol.sectorSize := rfl
    rw [Nat.zero_add, hsame, Nat.min_eq_right hlt.le] at hoffset
    refine ⟨got, hgot, hcached, hoffset, ?_⟩
    rw [hdata, List.drop_zero, List.length_take, length_contents, hsame, Nat.min_eq_left hlt.le]
  obtain ⟨got, hgot, hcached, hoffset, hlength⟩ := hfirst none
  obtain ⟨got', hgot', hcached', -, -⟩ := hfirst (some 0)
  rw [hgot] at hgot'
  obtain rfl := Option.some.inj hgot'
  -- So no extent at hand has the gap.
  have hnone : ∀ {e : Extent}, e.Maps (readMap vol (f.extents ino) none) →
      e.Maps (readMap vol (f.extents ino) (some 0)) → ¬(e.lstart ≤ g ∧ g < e.lstart + e.len) := by
    rintro e he he' ⟨hlo, hhi⟩
    obtain ⟨j, rfl⟩ := Nat.exists_eq_add_of_le hlo
    have hphys := he.phys_eq j (by omega)
    rw [← he'.phys_eq j (by omega), readMap, readMap, find_of_gap hgap] at hphys
    exact nomatch hphys
  have hstarts : ∀ v ∈ f.extents ino, v.start ≠ g * vol.sectorSize := by
    intro v hv heq
    exact hgap ⟨v, hv, heq ▸ (f.extents_ok v hv).covers_start⟩
  obtain ⟨got₂, hgot₂, hdata₂⟩ := @genericGetfssec_fails _ (vol.fsInfo ino) got.inode g (N + g + 3)
    (by rw [hcached.size_eq]; exact hsize) (by rw [hcached.size_eq]; exact hlt)
    ⟨hcached.this_maps.end_lt, hcached.next_maps.end_lt⟩
    (by
      rintro e (rfl | rfl)
      · exact hnone hcached.this_maps hcached'.this_maps
      · exact hnone hcached.next_maps hcached'.next_maps)
    (fun this => btrfsNextExtent_of_not_mem f hfits hstarts (by omega) _) (by omega)
  have hread := hN (N + g + 3) (by omega)
  have hsame : (vol.fsInfo ino).sectorSize = vol.sectorSize := rfl
  rw [readAll, hgot] at hread
  dsimp only at hread
  rw [hoffset, ← hsame, readAll, hgot₂] at hread
  dsimp only at hread
  rw [readAll, hdata₂] at hread
  have hlen := congrArg List.length (Option.some.inj hread)
  rw [List.length_append, hlength, List.length_append, List.length_nil, List.length_take,
    length_contents] at hlen
  have hsum : [g, 1].sum * vol.sectorSize = g * vol.sectorSize + vol.sectorSize := by
    rw [List.sum_cons, List.sum_singleton, Nat.succ_mul]
  rw [hsame, hsum] at hlen
  omega

/-- With blocks that do not fit the buffer, the driver reads nothing. -/
theorem not_reads_of_unfit (f : BtrfsFile vol ino) (hfits : ¬f.disk.Fits f.level) (map : SectorMap)
    (hsize : size.toNat + vol.sectorSize - 1 < 2 ^ 32) (hne : size ≠ 0) :
    ¬ReadsInOrder (vol.fsInfo ino) map size pvt [1] := by
  rintro ⟨N, hN⟩
  have hpos : 0 < vol.sectorSize := vol.sectorSize_pos
  have hbytes : 0 < size.toNat :=
    Nat.pos_of_ne_zero fun h => hne (UInt32.toNat_inj.mp h)
  obtain ⟨got, hgot, hdata⟩ := @genericGetfssec_fails _ (vol.fsInfo ino) (Inode.fresh size pvt) 0
    (N + 3) hsize (by rw [Nat.zero_mul]; exact hbytes) ⟨Nat.two_pow_pos 32, Nat.two_pow_pos 32⟩
    (by
      rintro e (rfl | rfl)
      · exact fun h => absurd h.2 (Nat.lt_irrefl 0)
      · exact fun h => absurd h.2 (Nat.lt_irrefl 0))
    (fun this => btrfsNextExtent_of_unfit f hfits _ 0) (by omega)
  have hread := hN (N + 3) (by omega)
  rw [Nat.zero_mul] at hgot
  rw [readAll, hgot] at hread
  dsimp only at hread
  rw [readAll, hdata] at hread
  have hlen := congrArg List.length (Option.some.inj hread)
  have hsame : (vol.fsInfo ino).sectorSize = vol.sectorSize := rfl
  rw [List.length_append, List.length_nil, List.length_take, length_contents, hsame,
    List.sum_singleton, Nat.one_mul] at hlen
  omega

/-- The bytes of a list of zeros. -/
theorem eq_replicate_iff {bs : List UInt8} {n k : Nat} (hlen : bs.length = n) :
    bs.take k = (List.replicate n 0).take k ↔ ∀ b ∈ bs.take k, b = 0 := by
  rw [List.take_replicate, List.eq_replicate_iff, List.length_take, hlen]
  exact and_iff_right rfl

/-- For a covered sector, the driver reads what the file holds if and only if the extent is a
regular one, or there are zeros on disk where it reads. -/
theorem sectorData_eq_iff (f : BtrfsFile vol ino) {v : Visit} {l : Nat} (k : Nat)
    (hv : v ∈ f.extents ino) (hcovers : v.Covers (l * vol.sectorSize)) :
    (sectorData (vol.fsInfo ino) (readMap vol (f.extents ino) none) l).take k =
        (sectorData (vol.fsInfo ino) (fileMap vol (f.extents ino)) l).take k ↔
      v.Regular ∨ ∀ b ∈ (vol.disk (readSector vol v l)).take k, b = 0 := by
  have hdisk : sectorData (vol.fsInfo ino) (readMap vol (f.extents ino) none) l =
      vol.disk (readSector vol v l) := by
    rw [sectorData, readMap_of_covers f none hv hcovers]
    rfl
  rw [hdisk, sectorData]
  by_cases hregular : v.Regular
  · rw [fileMap_of_regular f hv hcovers hregular]
    exact iff_of_true rfl (Or.inl hregular)
  · rw [fileMap_of_not_regular f hv hcovers hregular, or_iff_right hregular]
    exact eq_replicate_iff (vol.disk_length _)

/-- Every sequence of reads returns the contents of a file in order if and only if its size rounded
up to whole sectors does not wrap, the blocks of the tree fit the buffer of a search unless the file
is empty, all its sectors are covered by extents, and for each sector the extent is a regular one,
or there are zeros on disk where the driver takes it to be. -/
theorem btrfs_reads_iff (f : BtrfsFile vol ino) (size : UInt32) (pvt : UInt64) :
    (∀ requests, ReadsInOrder (vol.fsInfo ino) (fileMap vol (f.extents ino)) size pvt requests) ↔
      size.toNat + vol.sectorSize - 1 < 2 ^ 32 ∧ (size ≠ 0 → f.disk.Fits f.level) ∧
        ∀ l < (vol.fsInfo ino).sectorsOf size.toNat, ∃ v ∈ f.extents ino,
          v.Covers (l * vol.sectorSize) ∧ (v.Regular ∨
            ∀ b ∈ (vol.disk (readSector vol v l)).take (size.toNat - l * vol.sectorSize),
              b = 0) := by
  have hempty : size = 0 → (vol.fsInfo ino).sectorsOf size.toNat = 0 := by
    rintro rfl
    exact Nat.div_eq_of_lt (show 0 + vol.sectorSize - 1 < vol.sectorSize by
      have hpos := vol.sectorSize_pos
      omega)
  have hreads : size.toNat + vol.sectorSize - 1 < 2 ^ 32 → (size ≠ 0 → f.disk.Fits f.level) →
      (∀ l < (vol.fsInfo ino).sectorsOf size.toNat, ∃ v ∈ f.extents ino,
        v.Covers (l * vol.sectorSize)) →
      ∀ requests, ReadsInOrder (vol.fsInfo ino) (readMap vol (f.extents ino) none) size pvt
        requests := by
    intro hsize hfits hcovered requests
    have himplements : ImplementsFrom (vol.fsInfo ino) (readMap vol (f.extents ino) none) size
        (fun _ => True) (StartsExtent vol (f.extents ino)
          ((vol.fsInfo ino).sectorsOf size.toNat)) ((vol.fsInfo ino).sectorsOf size.toNat) := by
      by_cases hzero : size = 0
      · refine ⟨fun inode lstart _ _ _ _ hlt => ?_⟩
        rw [hempty hzero] at hlt
        exact absurd hlt (Nat.not_lt_zero lstart)
      · exact btrfs_implements f (hfits hzero) none le_rfl hcovered
    exact readsInOrder_from himplements trivial
      (startsExtent_of_covered f hcovered (Or.inl rfl)) requests hsize
  constructor
  · intro h
    have hsize : size.toNat + vol.sectorSize - 1 < 2 ^ 32 := by
      by_contra hwraps
      exact not_readsInOrder_of_wraps (vol.fsInfo ino) _ size pvt
        (show 0 < [1].sum by decide) (Nat.le_of_not_lt hwraps) (h [1])
    have hfits : size ≠ 0 → f.disk.Fits f.level := by
      intro hne
      by_contra hunfit
      exact not_reads_of_unfit f hunfit _ hsize hne (h [1])
    have hcovered : ∀ l < (vol.fsInfo ino).sectorsOf size.toNat, ∃ v ∈ f.extents ino,
        v.Covers (l * vol.sectorSize) := by
      by_contra hnot
      have hex : ∃ l, l < (vol.fsInfo ino).sectorsOf size.toNat ∧
          ¬∃ v ∈ f.extents ino, v.Covers (l * vol.sectorSize) := by
        by_contra hnone
        exact hnot fun l hl => by_contra fun hl' => hnone ⟨l, hl, hl'⟩
      classical
      obtain ⟨hg, hgap⟩ := Nat.find_spec hex
      have hne : size ≠ 0 := by
        intro hzero
        exact Nat.not_lt_zero _ (hg.trans_eq (hempty hzero))
      refine not_reads_of_gap f (hfits hne) _ hsize hg (fun l hl => ?_) hgap
        (h [Nat.find hex, 1])
      by_contra hl'
      exact Nat.find_min hex hl ⟨hl.trans hg, hl'⟩
    refine ⟨hsize, hfits, fun l hl => ?_⟩
    obtain ⟨v, hv, hcovers⟩ := hcovered l hl
    refine ⟨v, hv, hcovers, (sectorData_eq_iff f _ hv hcovers).mp ?_⟩
    exact (contents_eq_iff _ _ _ _).mp
      (contents_eq_of_reads (hreads hsize hfits hcovered _) (h _)) l hl
  · rintro ⟨hsize, hfits, hall⟩ requests
    have hcovered : ∀ l < (vol.fsInfo ino).sectorsOf size.toNat, ∃ v ∈ f.extents ino,
        v.Covers (l * vol.sectorSize) := by
      intro l hl
      obtain ⟨v, hv, hcovers, -⟩ := hall l hl
      exact ⟨v, hv, hcovers⟩
    have heq : contents (vol.fsInfo ino) (readMap vol (f.extents ino) none) size.toNat =
        contents (vol.fsInfo ino) (fileMap vol (f.extents ino)) size.toNat := by
      refine (contents_eq_iff _ _ _ _).mpr fun l hl => ?_
      obtain ⟨v, hv, hcovers, hzeros⟩ := hall l hl
      exact (sectorData_eq_iff f _ hv hcovers).mpr hzeros
    have hread := hreads hsize hfits hcovered requests
    rw [ReadsInOrder, heq] at hread
    exact hread

/-! ## Examples -/

/-- The bytes of an extent item. -/
def sampleExtent (type : UInt8) (diskBytenr numBytes : Nat) : List UInt8 :=
  leBytes 0 8 ++ leBytes numBytes 8 ++ [0, 0, 0, 0, type] ++ leBytes diskBytenr 8 ++
    leBytes numBytes 8 ++ leBytes 0 8 ++ leBytes numBytes 8

/-- A leaf with an inode and its only extent, a hole of 4 KiB. -/
def sampleHoleLeaf : Block where
  level := 0
  nritems := 2
  ptrs _ := ⟨⟨0, 0, 0⟩, 0⟩
  items i := if i = 0 then ⟨⟨257, 1, 0⟩, 3835, 160⟩ else ⟨⟨257, 108, 0⟩, 3782, 53⟩
  data offset size :=
    if offset = 3782 then sampleExtent 1 0 4096 else List.replicate size 0

/-- A volume whose first chunk has the logical address 0, and with code in its first sectors. -/
def sampleHoleVolume : BtrfsVolume where
  sb := ⟨0, 0, 4096, 4096⟩
  image _ := sampleHoleLeaf
  map := [⟨0, 0x400000, 1, 0⟩]
  fsTree := 0x4000
  sectorShift := 9
  disk _ := List.replicate 512 0xeb
  shift_le := usualShift_le
  shift_lt := usualShift_lt
  disk_length _ := List.length_replicate

/-- The leaf with a hole is sorted by key. -/
theorem sampleHoleLeaf_sorted : sampleHoleLeaf.Sorted 0 := by
  refine ⟨rfl, Nat.succ_pos 1, fun i j hlt hj => ?_⟩
  have hall : ∀ j < 2, ∀ i < j,
      (sampleHoleLeaf.key i).rank < (sampleHoleLeaf.key j).rank := by
    decide +kernel
  exact hall j hj i hlt

/-- The leaf with a hole is a sound block. -/
theorem sampleHoleLeaf_sound (loffset : Nat) : (blockAt sampleHoleVolume.sb sampleHoleVolume.image
    sampleHoleVolume.map).Sound loffset 0 where
  toSorted := sampleHoleLeaf_sorted
  ptrs_le hne := absurd rfl hne
  items_le _ := (by decide : 101 + 2 * 25 ≤ (4096 : UInt32).toNat)
  data_le _ i _ := by
    change 101 + (sampleHoleLeaf.items i).offset + (sampleHoleLeaf.items i).size ≤
      (4096 : UInt32).toNat
    rw [sampleHoleLeaf]
    dsimp only
    split_ifs
    · decide
    · decide

def sampleHoleTree : BtrfsTree where
  disk := blockAt sampleHoleVolume.sb sampleHoleVolume.image sampleHoleVolume.map
  root := 0x4000
  level := 0
  level_lt := leafLevel_lt
  wellFormed := Or.inl (sampleHoleLeaf_sound _)
  sorted := by decide +kernel

/-- The sample file has one extent. -/
theorem sampleHoleTree_extents : sampleHoleTree.extents 257 =
    [⟨[1], ⟨⟨257, 108, 0⟩, 3782, 53⟩, sampleExtent 1 0 4096⟩] := by
  decide +kernel

def sampleHoleFile : BtrfsFile sampleHoleVolume 257 where
  toBtrfsTree := sampleHoleTree
  disk_eq := rfl
  root_eq := rfl
  exact := trivial
  inode_mem := by decide +kernel
  extents_ok := by
    rw [sampleHoleTree_extents]
    intro v hv
    obtain rfl := List.mem_singleton.mp hv
    refine ⟨?_, ?_, ?_, Or.inl ?_, ?_, ?_, ?_, ?_, ?_, fun h => absurd ?_ h⟩
    all_goals decide +kernel
  extents_apart := by
    rw [sampleHoleTree_extents]
    exact List.pairwise_singleton _ _
  ordered := List.pairwise_singleton _ _
  apart := by decide +kernel
  aligned := by
    intro c hc
    obtain rfl := List.mem_singleton.mp hc
    exact ⟨by decide +kernel, by decide +kernel, by decide +kernel⟩

/-- The sample tree fits into the buffer of the search. -/
theorem sampleHoleFile_fits : sampleHoleFile.disk.Fits sampleHoleFile.level :=
  ⟨(by decide : FitsBuffer 4096), fun hne => absurd rfl hne⟩

/-- A hole is read from the first sectors of the disk. -/
theorem btrfs_hole_not_zeros : ¬∀ (vol : BtrfsVolume) (ino : UInt32) (f : BtrfsFile vol ino)
    (size : UInt32) (pvt : UInt64) (requests : List Nat),
    ReadsInOrder (vol.fsInfo ino) (fileMap vol (f.extents ino)) size pvt requests := by
  intro h
  have hsectors : (sampleHoleVolume.fsInfo 257).sectorsOf (4096 : UInt32).toNat = 8 := by
    decide
  have hcovered : ∀ l < (sampleHoleVolume.fsInfo 257).sectorsOf (4096 : UInt32).toNat,
      ∃ v ∈ sampleHoleFile.extents 257, v.Covers (l * sampleHoleVolume.sectorSize) := by
    rw [hsectors]
    decide +kernel
  have hreads : ReadsInOrder (sampleHoleVolume.fsInfo 257)
      (readMap sampleHoleVolume (sampleHoleFile.extents 257) none) 4096 0 [8] :=
    readsInOrder_from (btrfs_implements sampleHoleFile sampleHoleFile_fits none le_rfl hcovered)
      trivial
      (startsExtent_of_covered sampleHoleFile hcovered (Or.inl rfl)) [8] (by decide)
  have hsector := (contents_eq_iff _ _ _ _).mp
    (contents_eq_of_reads hreads (h sampleHoleVolume 257 sampleHoleFile 4096 0 [8])) 0 (by decide)
  obtain ⟨v, hv, hcovers⟩ := hcovered 0 (by decide)
  have hv' : v ∈ sampleHoleTree.extents 257 := hv
  rw [sampleHoleTree_extents] at hv'
  obtain rfl := List.mem_singleton.mp hv'
  have hzeros := (sectorData_eq_iff sampleHoleFile _ hv hcovers).mp hsector
  have hnot : ¬(Visit.Regular ⟨[1], ⟨⟨257, 108, 0⟩, 3782, 53⟩, sampleExtent 1 0 4096⟩ ∨
      ∀ b ∈ (List.replicate 512 (0xeb : UInt8)).take 4096, b = 0) := by
    decide +kernel
  exact hnot hzeros

end Liigboot.Fs.Btrfs