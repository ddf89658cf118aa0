import Liigboot.Fs.Btrfs.ChunkTree
import Liigboot.Fs.GetFsSec
import Mathlib.Data.List.Pairwise

/-!
# The extents of a btrfs file

`btrfs_next_extent` searches the tree for the extent item that begins at the sector it is asked
for, and takes its place on disk and its length from it. What a file holds is said by its extent
items and the chunks: the bytes of regular extents, and zeros everywhere else.
-/

namespace Liigboot.Fs.Btrfs

/-! ## The source -/

/-- `BTRFS_EXTENT_DATA_KEY`. -/
def btrfsExtentDataKey : UInt8 := 108

/-- `BTRFS_FILE_EXTENT_INLINE`. -/
def btrfsFileExtentInline : UInt8 := 0

/-- `BTRFS_FILE_EXTENT_REG`. -/
def btrfsFileExtentReg : UInt8 := 1

/-- `BTRFS_FILE_EXTENT_PREALLOC`. -/
def btrfsFileExtentPrealloc : UInt8 := 2

/-- `struct btrfs_file_extent_item`, as far as it is used. -/
structure BtrfsFileExtentItem where
  compression : UInt8
  encryption : UInt8
  type : UInt8
  diskBytenr : UInt64
  offset : UInt64
  numBytes : UInt64
  deriving DecidableEq, Repr

/-- The size of `struct btrfs_file_extent_item`. -/
def extentItemSize : Nat := 53

/-- `offsetof(struct btrfs_file_extent_item, disk_bytenr)`. -/
def inlineOffset : Nat := 21

/-- The bytes of an item, read as a `struct btrfs_file_extent_item`. -/
def fileExtentItem (data : List UInt8) : BtrfsFileExtentItem where
  compression := UInt8.ofNat (readLe data 16 1)
  encryption := UInt8.ofNat (readLe data 17 1)
  type := UInt8.ofNat (readLe data 20 1)
  diskBytenr := UInt64.ofNat (readLe data 21 8)
  offset := UInt64.ofNat (readLe data 37 8)
  numBytes := UInt64.ofNat (readLe data 45 8)

/-- A mounted volume: its superblock, its blocks, the chunk map, the root of the tree that has its
files, and its sectors. -/
structure BtrfsVolume where
  sb : BtrfsSuperBlock
  image : UInt64 → Block
  map : List BtrfsChunkMapItem
  fsTree : Nat
  sectorShift : Nat
  disk : Nat → List UInt8
  shift_le : 9 ≤ sectorShift
  shift_lt : sectorShift < 31
  disk_length : ∀ p, (disk p).length = 2 ^ sectorShift

/-- Sectors have 512 bytes at least. -/
theorem usualShift_le : 9 ≤ 9 := Nat.le_refl 9

/-- The sector size. -/
def BtrfsVolume.sectorSize (vol : BtrfsVolume) : Nat := 2 ^ vol.sectorShift

/-- `btrfs_next_extent`. The offset that it keeps for the inode is the private data. A search that
would go deeper than a tree can be, or that overruns its buffers, counts as failed. -/
def btrfsNextExtent (vol : BtrfsVolume) (ino : UInt32) (inode : Inode UInt64) (lstart : Nat) :
    Mapped UInt64 :=
  let error : Mapped UInt64 := ⟨true, inode.nextExtent.pstart, inode.nextExtent.len, inode.pvt⟩
  let searchKey : BtrfsDiskKey :=
    ⟨ino.toUInt64, btrfsExtentDataKey, UInt64.ofNat (u32 (lstart * vol.sectorSize))⟩
  match searchTree (blockAt vol.sb vol.image vol.map) searchKey btrfsMaxLevel vol.fsTree clearPath with
  | none => error
  | some (_ + 1, _) => error
  | some (0, path) =>
    let extentItem := fileExtentItem path.data
    if extentItem.encryption ≠ 0 then error
    else if extentItem.compression ≠ 0 then error
    else
      let (offset, len) :=
        if extentItem.type = btrfsFileExtentInline then
          (UInt64.ofNat (path.offsets 0 + sizeofHeader + path.item.offset + inlineOffset),
            u32 (inode.size.toNat + vol.sectorSize - 1) / vol.sectorSize)
        else
          (extentItem.diskBytenr + extentItem.offset,
            u64 (extentItem.numBytes.toNat + vol.sectorSize - 1) / vol.sectorSize)
      ⟨false, (logicalPhysical vol.map offset).toNat / vol.sectorSize, u32 len, offset⟩

/-- A file of the volume, for the generic read operation. -/
def BtrfsVolume.fsInfo (vol : BtrfsVolume) (ino : UInt32) : FsInfo UInt64 where
  nextExtent := btrfsNextExtent vol ino
  sectorShift := vol.sectorShift
  disk := vol.disk
  shift_lt := vol.shift_lt
  disk_length := vol.disk_length

/-! ## What a file holds -/

/-- The extent items of a file. -/
def BtrfsTree.extents (t : BtrfsTree) (ino : UInt32) : List Visit :=
  (allVisits t.disk t.level t.root).filter fun v =>
    v.item.key.objectid = ino.toUInt64 ∧ v.item.key.type = btrfsExtentDataKey

/-- Where an extent begins in its file. -/
def Visit.start (v : Visit) : Nat := v.item.key.offset.toNat

def Visit.extent (v : Visit) : BtrfsFileExtentItem := fileExtentItem v.data

/-- The logical address of the part of an extent that a file refers to. -/
def Visit.address (v : Visit) : Nat := v.extent.diskBytenr.toNat + v.extent.offset.toNat

/-- An extent covers a position of its file. -/
def Visit.Covers (v : Visit) (pos : Nat) : Prop :=
  v.start ≤ pos ∧ pos < v.start + v.extent.numBytes.toNat

/-- An extent whose bytes are on disk: neither preallocated nor a hole. -/
def Visit.Regular (v : Visit) : Prop :=
  v.extent.type = btrfsFileExtentReg ∧ v.extent.diskBytenr ≠ 0

instance (v : Visit) (pos : Nat) : Decidable (v.Covers pos) := inferInstanceAs (Decidable (_ ∧ _))

instance (v : Visit) : Decidable v.Regular := inferInstanceAs (Decidable (_ ∧ _))

instance (e : BtrfsChunkMapItem) (logical : Nat) : Decidable (e.Covers logical) :=
  inferInstanceAs (Decidable (_ ∧ _))

/-- Where a logical address lies on disk. -/
def diskPlace (map : List BtrfsChunkMapItem) (logical : Nat) : Option Nat :=
  (map.find? fun c => c.Covers logical).map fun c =>
    c.physical.toNat + (logical - c.logical.toNat)

/-- Where the sectors of a file lie on disk: nowhere, when they are not in a regular extent. -/
def fileMap (vol : BtrfsVolume) (extents : List Visit) : SectorMap := fun l =>
  match extents.find? fun v => v.Covers (l * vol.sectorSize) with
  | none => none
  | some v =>
    if v.Regular then
      (diskPlace vol.map (v.address + (l * vol.sectorSize - v.start))).map (· / vol.sectorSize)
    else none

/-- An extent item as it should be: not inline, neither compressed nor encrypted, made of whole
sectors, and on disk within one chunk. The sectors have numbers of 32 bits. -/
structure Visit.ExtentOk (vol : BtrfsVolume) (v : Visit) : Prop where
  size_le : extentItemSize ≤ v.data.length
  encryption_eq : v.extent.encryption = 0
  compression_eq : v.extent.compression = 0
  type_eq : v.extent.type = btrfsFileExtentReg ∨ v.extent.type = btrfsFileExtentPrealloc
  num_pos : 0 < v.extent.numBytes.toNat
  start_dvd : vol.sectorSize ∣ v.start
  num_dvd : vol.sectorSize ∣ v.extent.numBytes.toNat
  address_dvd : vol.sectorSize ∣ v.address
  end_lt : (v.start + v.extent.numBytes.toNat) / vol.sectorSize < 2 ^ 32
  chunk : v.extent.diskBytenr ≠ 0 → ∃ c ∈ vol.map, c.logical.toNat ≤ v.address ∧
    v.address + v.extent.numBytes.toNat ≤ c.logical.toNat + c.length.toNat

/-- A chunk as it should be. -/
structure BtrfsChunkMapItem.Aligned (sectorSize : Nat) (c : BtrfsChunkMapItem) : Prop where
  logical_dvd : sectorSize ∣ c.logical.toNat
  physical_dvd : sectorSize ∣ c.physical.toNat
  physical_lt : c.physical.toNat + c.length.toNat < 2 ^ 64

/-- A file of a volume: its inode and its extents are in the tree, and the extents are apart. -/
structure BtrfsFile (vol : BtrfsVolume) (ino : UInt32) extends BtrfsTree where
  disk_eq : disk = blockAt vol.sb vol.image vol.map
  root_eq : root = vol.fsTree
  exact : ExactKeys disk level root
  inode_mem : ∃ v ∈ allVisits disk level root, v.item.key = ⟨ino.toUInt64, 1, 0⟩
  extents_ok : ∀ v ∈ toBtrfsTree.extents ino, v.ExtentOk vol
  extents_apart : (toBtrfsTree.extents ino).Pairwise fun v w =>
    v.start + v.extent.numBytes.toNat ≤ w.start
  ordered : Ordered vol.map
  apart : ∀ a ∈ vol.map, ∀ b ∈ vol.map, Apart a b
  aligned : ∀ c ∈ vol.map, c.Aligned vol.sectorSize

/-- The sector that is read for a sector of a file in an extent. -/
def readSector (vol : BtrfsVolume) (v : Visit) (l : Nat) : Nat :=
  (logicalPhysical vol.map (v.extent.diskBytenr + v.extent.offset)).toNat / vol.sectorSize +
    (l - v.start / vol.sectorSize)

/-! ## The extent that is found -/

variable {vol : BtrfsVolume} {ino : UInt32}

theorem BtrfsVolume.sectorSize_pos (vol : BtrfsVolume) : 0 < vol.sectorSize := Nat.two_pow_pos _

/-- The root of a tree that has an item is not an empty leaf. -/
theorem BtrfsTree.wf_of_mem (t : BtrfsTree) {v : Visit} (hv : v ∈ allVisits t.disk t.level t.root) :
    WellFormed t.disk t.level t.root := by
  rcases t.wellFormed with hwf | ⟨hlevel, -, hempty⟩
  · exact hwf
  · rw [allVisits, hlevel, paths, hempty] at hv
    exact absurd hv List.not_mem_nil

theorem BtrfsFile.wf (f : BtrfsFile vol ino) : WellFormed f.disk f.level f.root := by
  obtain ⟨v, hv, -⟩ := f.inode_mem
  exact f.wf_of_mem hv

/-- What the search for an extent of a file finds. -/
theorem BtrfsFile.find (f : BtrfsFile vol ino) (hfits : f.disk.Fits f.level) (offset : UInt64) :
    ∃ ret path, searchTree (blockAt vol.sb vol.image vol.map)
        ⟨ino.toUInt64, btrfsExtentDataKey, offset⟩ btrfsMaxLevel vol.fsTree clearPath =
          some (ret, path) ∧
      (ret = 0 ∧ (∃ v ∈ f.extents ino, v.item.key.offset = offset ∧ path.data = v.data) ∨
        ret ≠ 0 ∧ ∀ v ∈ f.extents ino, v.item.key.offset ≠ offset) := by
  obtain ⟨ret, path, hsearch, hcases⟩ :=
    @searchTree_find f.disk ⟨ino.toUInt64, btrfsExtentDataKey, offset⟩ btrfsMaxLevel f.level f.root
      f.wf f.exact f.sorted hfits f.level_lt f.level_lt
  rw [f.disk_eq, f.root_eq] at hsearch
  refine ⟨ret, path, hsearch, hcases.imp ?_ ?_⟩
  · rintro ⟨hret, v, hv, hkey, -, hdata⟩
    refine ⟨hret, v, List.mem_filter.mpr ⟨hv, ?_⟩, ?_, hdata⟩
    · rw [hkey]
      exact decide_eq_true ⟨rfl, rfl⟩
    · rw [hkey]
  · rintro ⟨hret, hnone⟩
    refine ⟨hret, fun v hv heq => ?_⟩
    obtain ⟨hvAll, hsame⟩ := List.mem_filter.mp hv
    obtain ⟨hobjectid, htype⟩ := of_decide_eq_true hsame
    refine hnone v hvAll ?_
    rw [← heq, ← hobjectid, ← htype]

/-- Of two extents of a file, one ends in front of the other. -/
theorem BtrfsFile.eq_or_apart (f : BtrfsFile vol ino) {v w : Visit} (hv : v ∈ f.extents ino)
    (hw : w ∈ f.extents ino) : v = w ∨ v.start + v.extent.numBytes.toNat ≤ w.start ∨
      w.start + w.extent.numBytes.toNat ≤ v.start := by
  have hfront : (f.extents ino).Pairwise fun a b => a = b ∨
      a.start + a.extent.numBytes.toNat ≤ b.start ∨
        b.start + b.extent.numBytes.toNat ≤ a.start :=
    f.extents_apart.imp fun h => Or.inr (Or.inl h)
  have hself : ∀ a ∈ f.extents ino, a = a ∨ a.start + a.extent.numBytes.toNat ≤ a.start ∨
      a.start + a.extent.numBytes.toNat ≤ a.start := fun _ _ => Or.inl rfl
  have hback : (f.extents ino).Pairwise (flip fun a b => a = b ∨
      a.start + a.extent.numBytes.toNat ≤ b.start ∨
        b.start + b.extent.numBytes.toNat ≤ a.start) :=
    f.extents_apart.imp fun h => Or.inr (Or.inr h)
  exact hfront.forall_of_forall_of_flip hself hback hv hw

/-- No two extents cover the same position. -/
theorem BtrfsFile.eq_of_covers (f : BtrfsFile vol ino) {v w : Visit} {pos : Nat}
    (hv : v ∈ f.extents ino) (hw : w ∈ f.extents ino) (hvpos : v.Covers pos)
    (hwpos : w.Covers pos) : v = w := by
  rcases f.eq_or_apart hv hw with heq | h | h
  · exact heq
  · exact absurd (hvpos.2.trans_le (h.trans hwpos.1)) (lt_irrefl pos)
  · exact absurd (hwpos.2.trans_le (h.trans hvpos.1)) (lt_irrefl pos)

theorem Visit.ExtentOk.covers_start {v : Visit} (h : v.ExtentOk vol) : v.Covers v.start :=
  ⟨le_rfl, Nat.lt_add_of_pos_right h.num_pos⟩

/-- The number of sectors of an extent, as it is computed. -/
theorem Visit.ExtentOk.len_eq {v : Visit} (h : v.ExtentOk vol) :
    u32 (u64 (v.extent.numBytes.toNat + vol.sectorSize - 1) / vol.sectorSize) =
      v.extent.numBytes.toNat / vol.sectorSize := by
  have hpos := vol.sectorSize_pos
  have hshift : vol.sectorSize ≤ 2 ^ 30 :=
    Nat.pow_le_pow_right (by decide) (Nat.le_of_lt_succ vol.shift_lt)
  obtain ⟨n, hn⟩ := h.num_dvd
  have hend := h.end_lt
  have hnlt : n < 2 ^ 32 := by
    have hle : v.extent.numBytes.toNat / vol.sectorSize ≤
        (v.start + v.extent.numBytes.toNat) / vol.sectorSize :=
      Nat.div_le_div_right (Nat.le_add_left _ _)
    rw [hn, Nat.mul_div_cancel_left n hpos] at hle
    rw [hn] at hend
    omega
  have hbytes : vol.sectorSize * n ≤ 2 ^ 30 * 2 ^ 32 := Nat.mul_le_mul hshift hnlt.le
  have hround : (vol.sectorSize * n + vol.sectorSize - 1) / vol.sectorSize = n := by
    rw [Nat.add_sub_assoc hpos, Nat.mul_add_div hpos, Nat.div_eq_of_lt (Nat.sub_lt hpos Nat.one_pos),
      Nat.add_zero]
  rw [hn, Nat.mul_div_cancel_left n hpos, u64_of_lt (by omega), hround, u32_of_lt hnlt]

theorem toNat_searchOffset {pos : Nat} (h : pos < 2 ^ 32) :
    (UInt64.ofNat (u32 pos)).toNat = pos := by
  rw [u32_of_lt h]
  exact UInt64.toNat_ofNat_of_lt' (h.trans (by decide))

/-- The extent that begins at a sector is returned for it. -/
theorem btrfsNextExtent_of_mem (f : BtrfsFile vol ino) (hfits : f.disk.Fits f.level) {v : Visit}
    (hv : v ∈ f.extents ino) {lstart : Nat} (hstart : v.start = lstart * vol.sectorSize)
    (hlt : lstart * vol.sectorSize < 2 ^ 32) (inode : Inode UInt64) :
    btrfsNextExtent vol ino inode lstart =
      ⟨false, (logicalPhysical vol.map (v.extent.diskBytenr + v.extent.offset)).toNat /
        vol.sectorSize, v.extent.numBytes.toNat / vol.sectorSize,
        v.extent.diskBytenr + v.extent.offset⟩ := by
  have hok := f.extents_ok v hv
  obtain ⟨ret, path, hsearch, hcases⟩ :=
    f.find hfits (UInt64.ofNat (u32 (lstart * vol.sectorSize)))
  rcases hcases with ⟨rfl, w, hw, hoffset, hdata⟩ | ⟨-, hnone⟩
  · have hwstart : w.start = v.start := by
      rw [hstart, Visit.start, hoffset, toNat_searchOffset hlt]
    obtain rfl := f.eq_of_covers hw hv (hwstart ▸ (f.extents_ok w hw).covers_start)
      hok.covers_start
    have htype : w.extent.type ≠ btrfsFileExtentInline := by
      rcases hok.type_eq with h | h
      · rw [h]
        decide
      · rw [h]
        decide
    have hextent : fileExtentItem path.data = w.extent := by rw [hdata, Visit.extent]
    rw [btrfsNextExtent, hsearch]
    dsimp only
    rw [hextent, if_neg (not_not.mpr hok.encryption_eq), if_neg (not_not.mpr hok.compression_eq),
      if_neg htype]
    dsimp only
    rw [hok.len_eq]
  · refine absurd (UInt64.toNat_inj.mp ?_) (hnone v hv)
    rw [toNat_searchOffset hlt, ← hstart, Visit.start]

/-- For a sector at which no extent begins there is an error. -/
theorem btrfsNextExtent_of_not_mem (f : BtrfsFile vol ino) (hfits : f.disk.Fits f.level)
    {lstart : Nat}
    (hnone : ∀ v ∈ f.extents ino, v.start ≠ lstart * vol.sectorSize)
    (hlt : lstart * vol.sectorSize < 2 ^ 32) (inode : Inode UInt64) :
    (btrfsNextExtent vol ino inode lstart).error = true := by
  obtain ⟨ret, path, hsearch, hcases⟩ :=
    f.find hfits (UInt64.ofNat (u32 (lstart * vol.sectorSize)))
  rcases hcases with ⟨-, v, hv, hoffset, -⟩ | ⟨hret, -⟩
  · refine absurd ?_ (hnone v hv)
    rw [Visit.start, hoffset, toNat_searchOffset hlt]
  · obtain ⟨ret, rfl⟩ := Nat.exists_eq_succ_of_ne_zero hret
    rw [btrfsNextExtent, hsearch]

/-- In a tree whose blocks do not fit the buffer, every search for an extent fails. -/
theorem btrfsNextExtent_of_unfit (f : BtrfsFile vol ino) (hfits : ¬f.disk.Fits f.level)
    (inode : Inode UInt64) (lstart : Nat) :
    (btrfsNextExtent vol ino inode lstart).error = true := by
  have hsearch : searchTree f.disk
      ⟨ino.toUInt64, btrfsExtentDataKey, UInt64.ofNat (u32 (lstart * vol.sectorSize))⟩
      btrfsMaxLevel f.root clearPath = none :=
    searchTree_unfit f.wf hfits f.level_lt fun _ _ => rfl
  rw [f.disk_eq, f.root_eq] at hsearch
  rw [btrfsNextExtent, hsearch]

end Liigboot.Fs.Btrfs
