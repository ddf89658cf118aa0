import Liigboot.Lib.Bytes
import Liigboot.Fs.Extent

/-!
# FAT volumes

The metadata that `vfat_fs_init` keeps of a volume, and the file allocation table.
`get_next_cluster` reads one entry from one or two sectors of the table; read as
one byte string, the table is an array of entries of 12, 16 or 32 bits.
-/

namespace Liigboot.Fs.Fat

inductive FatType
  | fat12 | fat16 | fat32
  deriving DecidableEq, Repr

/-- The fields of `struct fat_bpb` that describe the layout of a volume. -/
structure FatBpb where
  bxSecPerClust : UInt8
  bxResSectors : UInt16
  bxFATs : UInt8
  bxRootDirEnts : UInt16
  bxSectors : UInt16
  bxFATsecs : UInt16
  bsHugeSectors : UInt32
  bxFATsecs32 : UInt32
  extendedFlags : UInt16
  rootCluster : UInt32
  deriving DecidableEq, Repr

/-- `struct fat_sb_info`, but for `root_cluster`, which nothing sets. -/
structure FatSbInfo where
  fat : Nat
  root : Nat
  data : Nat
  clusters : Nat
  rootSize : Nat
  clustShift : Nat
  clustByteShift : Nat
  fatType : FatType
  deriving DecidableEq, Repr

/-- `root_dir_size`. -/
def rootDirSize (sectorShift : Nat) (fat : FatBpb) : Nat :=
  (fat.bxRootDirEnts.toNat + 2 ^ sectorShift / 32 - 1) / 2 ^ (sectorShift - 5)

/-- `sectors_per_fat`. -/
def FatBpb.sectorsPerFat (fat : FatBpb) : Nat :=
  if fat.bxFATsecs ≠ 0 then fat.bxFATsecs.toNat else fat.bxFATsecs32.toNat

/-- `total_sectors`. -/
def FatBpb.totalSectors (fat : FatBpb) : Nat :=
  if fat.bxSectors ≠ 0 then fat.bxSectors.toNat else fat.bsHugeSectors.toNat

/-- `vfat_fs_init`: the metadata of a volume with this boot sector. -/
def vfatFsInit (sectorShift : Nat) (bpb : FatBpb) : Option FatSbInfo :=
  if bpb.bxResSectors = 0 ∨ bpb.bxFATs = 0 then none
  else
    let fat := bpb.bxResSectors.toNat
    let root := fat + bpb.sectorsPerFat * bpb.bxFATs.toNat
    let rootSize := rootDirSize sectorShift bpb
    let data := root + rootSize
    let clustShift := Nat.log2 bpb.bxSecPerClust.toNat
    let clusters := u32 (u64 (bpb.totalSectors + 2 ^ 64 - data) / 2 ^ clustShift)
    let clustByteShift := clustShift + sectorShift
    if clusters ≤ 0xff4 then
      some ⟨fat, root, data, clusters, rootSize, clustShift, clustByteShift, .fat12⟩
    else if clusters ≤ 0xfff4 then
      some ⟨fat, root, data, clusters, rootSize, clustShift, clustByteShift, .fat16⟩
    else
      let clusters := if clusters > 0x0ffffff4 then 0x0ffffff4 else clusters
      let fat :=
        if bpb.extendedFlags &&& 0x80 ≠ 0 then
          fat + (bpb.extendedFlags &&& 0x0f).toNat * bpb.sectorsPerFat
        else fat
      let root := data + u32 (u32 (bpb.rootCluster.toNat + 2 ^ 32 - 2) * 2 ^ clustShift)
      some ⟨fat, root, data, clusters, rootSize, clustShift, clustByteShift, .fat32⟩

/-- What the driver relies on: cluster numbers and sector offsets do not wrap. -/
structure FatSbInfo.Valid (sbi : FatSbInfo) (sectorShift : Nat) : Prop where
  clusters_le : sbi.clusters ≤ 0x0ffffff4
  clusters_fit : sbi.clusters * 2 ^ sbi.clustShift < 2 ^ 32
  byteShift_eq : sbi.clustByteShift = sbi.clustShift + sectorShift
  byteShift_lt : sbi.clustByteShift < 32

/-- A volume whose data area starts on it has valid metadata. -/
theorem vfatFsInit_valid {sectorShift : Nat} {bpb : FatBpb} {sbi : FatSbInfo}
    (h : vfatFsInit sectorShift bpb = some sbi) (hshift : sectorShift < 24)
    (hdata : sbi.data ≤ bpb.totalSectors) : sbi.Valid sectorShift := by
  have htotal : bpb.totalSectors < 2 ^ 32 := by
    rw [FatBpb.totalSectors]
    split
    · exact bpb.bxSectors.toNat_lt.trans (by decide)
    · exact bpb.bsHugeSectors.toNat_lt
  have hlog : Nat.log2 bpb.bxSecPerClust.toNat < 8 := by
    rcases Nat.eq_zero_or_pos bpb.bxSecPerClust.toNat with h0 | hpos
    · rw [h0]
      decide
    · exact (Nat.log2_lt hpos.ne').mpr bpb.bxSecPerClust.toNat_lt
  -- the cluster count of an area that lies on the volume
  have hcount : ∀ {data s : Nat}, data ≤ bpb.totalSectors →
      u32 (u64 (bpb.totalSectors + 2 ^ 64 - data) / 2 ^ s) * 2 ^ s < 2 ^ 32 := by
    intro data s hle
    have hu : u64 (bpb.totalSectors + 2 ^ 64 - data) = bpb.totalSectors - data := by
      rw [u64]
      omega
    have hle' : u32 ((bpb.totalSectors - data) / 2 ^ s) ≤ (bpb.totalSectors - data) / 2 ^ s :=
      Nat.mod_le _ _
    rw [hu]
    refine (Nat.mul_le_mul_right _ hle').trans_lt ?_
    exact (Nat.div_mul_le_self _ _).trans_lt (by omega)
  rw [vfatFsInit] at h
  split at h
  · exact absurd h (by simp)
  · simp only at h
    split at h
    · obtain rfl := Option.some.inj h
      exact ⟨by simp only; omega, hcount hdata, rfl, by simp only; omega⟩
    · split at h
      · obtain rfl := Option.some.inj h
        exact ⟨by simp only; omega, hcount hdata, rfl, by simp only; omega⟩
      · obtain rfl := Option.some.inj h
        refine ⟨by simp only; split <;> omega, ?_, rfl, by simp only; omega⟩
        refine (Nat.mul_le_mul_right _ ?_).trans_lt (hcount hdata)
        simp only
        split <;> omega

/-- A volume of seven clusters of one sector. -/
theorem smallSbi_valid : FatSbInfo.Valid ⟨1, 2, 3, 7, 1, 0, 9, .fat12⟩ 9 :=
  ⟨by decide, by decide, rfl, by decide⟩

/-- The usual sectors of 512 bytes are within the limit. -/
theorem usualShift_ge : 2 ≤ 9 := by decide

/-- A mounted FAT volume. -/
structure FatFs where
  sectorShift : Nat
  sbi : FatSbInfo
  disk : Nat → List UInt8
  shift_ge : 2 ≤ sectorShift
  valid : sbi.Valid sectorShift
  disk_length : ∀ p, (disk p).length = 2 ^ sectorShift

/-- `SECTOR_SIZE(fs)`. -/
def FatFs.sectorSize (fs : FatFs) : Nat := 2 ^ fs.sectorShift

/-- `get_fat_sector`. -/
def getFatSector (fs : FatFs) (sector : Nat) : List UInt8 := fs.disk (fs.sbi.fat + sector)

/-- `get_next_cluster`. -/
def getNextCluster (fs : FatFs) (clustNum : Nat) : Nat :=
  match fs.sbi.fatType with
  | .fat12 =>
    let offset := u32 (clustNum + clustNum / 2)
    let fatSector := offset / fs.sectorSize
    let offset := offset % fs.sectorSize
    let data := getFatSector fs fatSector
    let nextCluster :=
      if offset = fs.sectorSize - 1 then
        -- the entry straddles two sectors of the table
        readLe data offset 1 + readLe (getFatSector fs (fatSector + 1)) 0 1 * 256
      else readLe data offset 2
    if clustNum % 2 = 1 then nextCluster / 16 else nextCluster % 0x1000
  | .fat16 =>
    let offset := u32 (clustNum * 2)
    readLe (getFatSector fs (offset / fs.sectorSize)) (offset % fs.sectorSize) 2
  | .fat32 =>
    let offset := u32 (clustNum * 4)
    readLe (getFatSector fs (offset / fs.sectorSize)) (offset % fs.sectorSize) 4 % 0x10000000

/-! ## The table as one byte string -/

/-- The `i`-th byte of the table. -/
def fatByte (fs : FatFs) (i : Nat) : UInt8 :=
  (fs.disk (fs.sbi.fat + i / fs.sectorSize)).getD (i % fs.sectorSize) 0

/-- The little-endian number of `n` bytes at byte `i` of the table. -/
def fatNum (fs : FatFs) (i n : Nat) : Nat := leNat ((List.range n).map fun j => fatByte fs (i + j))

/-- The entry of a cluster: 12 bits, two entries in three bytes, or 16 bits, or the low 28 of
32 bits. -/
def fatEntry (fs : FatFs) (k : Nat) : Nat :=
  match fs.sbi.fatType with
  | .fat12 =>
    if k % 2 = 1 then fatNum fs (k + k / 2) 2 / 16 else fatNum fs (k + k / 2) 2 % 0x1000
  | .fat16 => fatNum fs (2 * k) 2
  | .fat32 => fatNum fs (4 * k) 4 % 0x10000000

theorem FatFs.sectorSize_pos (fs : FatFs) : 0 < fs.sectorSize := Nat.two_pow_pos _

/-- A number that lies in one sector of the table. -/
theorem readLe_getFatSector (fs : FatFs) {i n : Nat}
    (h : i % fs.sectorSize + n ≤ fs.sectorSize) :
    readLe (getFatSector fs (i / fs.sectorSize)) (i % fs.sectorSize) n = fatNum fs i n := by
  rw [readLe, fatNum]
  congr 1
  apply List.ext_getElem?
  intro j
  rw [getElem?_slice, List.getElem?_map]
  by_cases hj : j < n
  · have hdiv : (i + j) / fs.sectorSize = i / fs.sectorSize := by
      rw [Nat.div_eq_iff fs.sectorSize_pos]
      have := Nat.div_add_mod i fs.sectorSize
      rw [Nat.mul_comm] at this
      omega
    have hmod : (i + j) % fs.sectorSize = i % fs.sectorSize + j := by
      have hi := Nat.div_add_mod i fs.sectorSize
      have hij := Nat.div_add_mod (i + j) fs.sectorSize
      rw [hdiv] at hij
      omega
    have hin : i % fs.sectorSize + j < (getFatSector fs (i / fs.sectorSize)).length := by
      rw [getFatSector, fs.disk_length]
      exact (Nat.add_lt_add_left hj _).trans_le h
    rw [if_pos hj, List.getElem?_range hj, Option.map_some, fatByte, hdiv, hmod,
      List.getD_eq_getElem?_getD]
    exact List.getElem?_eq_getElem hin ▸ rfl
  · rw [if_neg hj, List.getElem?_eq_none (by rw [List.length_range]; omega), Option.map_none]

/-- Numbers of one byte and of two. -/
theorem fatNum_two (fs : FatFs) (i : Nat) :
    fatNum fs i 2 = fatNum fs i 1 + fatNum fs (i + 1) 1 * 256 := by
  simp only [fatNum, List.range_succ, List.range_zero, List.nil_append, List.map_cons,
    List.map_nil, List.cons_append, leNat, Nat.add_zero]
  omega

/-- A table entry at a multiple of its own size lies in one sector. -/
private theorem aligned_in_sector (fs : FatFs) {a : Nat} (ha : a ≤ 2) (k : Nat) :
    2 ^ a * k % fs.sectorSize + 2 ^ a ≤ fs.sectorSize := by
  obtain ⟨s, hs⟩ := Nat.pow_dvd_pow 2 (ha.trans fs.shift_ge)
  have hlt := Nat.mod_lt k (Nat.pos_of_ne_zero fun h : s = 0 => by
    have := fs.sectorSize_pos
    rw [FatFs.sectorSize, hs, h, Nat.mul_zero] at this
    exact Nat.lt_irrefl _ this)
  rw [FatFs.sectorSize, hs, Nat.mul_mod_mul_left, ← Nat.mul_succ]
  exact Nat.mul_le_mul_left _ hlt

/-- The driver reads exactly the table's entries. -/
theorem getNextCluster_eq (fs : FatFs) {k : Nat} (hk : k < 2 ^ 28) :
    getNextCluster fs k = fatEntry fs k := by
  rw [getNextCluster, fatEntry]
  cases fs.sbi.fatType with
  | fat12 =>
    simp only [u32_of_lt (by omega : k + k / 2 < 2 ^ 32)]
    generalize k + k / 2 = i
    have hnum : (if i % fs.sectorSize = fs.sectorSize - 1 then
        readLe (getFatSector fs (i / fs.sectorSize)) (i % fs.sectorSize) 1 +
          readLe (getFatSector fs (i / fs.sectorSize + 1)) 0 1 * 256
        else readLe (getFatSector fs (i / fs.sectorSize)) (i % fs.sectorSize) 2) =
        fatNum fs i 2 := by
      have hpos := fs.sectorSize_pos
      have hmod := Nat.mod_lt i hpos
      by_cases hlast : i % fs.sectorSize = fs.sectorSize - 1
      · have hi := Nat.div_add_mod i fs.sectorSize
        have hnext : i + 1 = fs.sectorSize * (i / fs.sectorSize + 1) := by
          rw [Nat.mul_succ]
          omega
        have hdiv : (i + 1) / fs.sectorSize = i / fs.sectorSize + 1 := by
          rw [hnext, Nat.mul_div_cancel_left _ hpos]
        have hzero : (i + 1) % fs.sectorSize = 0 := by rw [hnext, Nat.mul_mod_right]
        rw [if_pos hlast, readLe_getFatSector fs (by omega), fatNum_two]
        congr 2
        rw [← hdiv, ← hzero]
        exact readLe_getFatSector fs (by omega)
      · rw [if_neg hlast, readLe_getFatSector fs (by omega)]
    rw [hnum]
  | fat16 =>
    rw [Nat.mul_comm k 2]
    simp only [u32_of_lt (by omega : 2 * k < 2 ^ 32)]
    exact readLe_getFatSector fs (aligned_in_sector fs (show 1 ≤ 2 by decide) k)
  | fat32 =>
    rw [Nat.mul_comm k 4]
    simp only [u32_of_lt (by omega : 4 * k < 2 ^ 32)]
    exact congrArg (· % 0x10000000) (readLe_getFatSector fs (aligned_in_sector fs le_rfl k))

end Liigboot.Fs.Fat
