import Liigboot.Mkzip.Intact
import Liigboot.Fs.Fat.NextExtent

/-!
# The chain as the boot loader reads it

The script takes the width of the entries from the name of the file system, the boot loader
from the number of clusters. Where the two agree, the boot loader decodes what the script has
encoded, and every other entry as before.
-/

namespace Liigboot.Mkzip

open Fs (u32 u64 u32_of_lt)
open Fs.Fat (FatBpb FatFs FatSbInfo FatType vfatFsInit getNextCluster offVolume)

/-! ## The script as a whole -/

/-- The files that the script writes: the image and `ziptmp_filename`. -/
structure Files where
  image : List UInt8
  ziptmp : Option (List UInt8)

/-- `main`, from the packed archive on: the archive is read and removed, and the image is
written at the very end. -/
def main (files : Files) (zip : List UInt8) (t : Gmtime) : Except Failure Unit × Files :=
  let imgData := files.image
  let files := { files with ziptmp := some zip }
  let files := { files with ziptmp := none }
  match mkzip imgData zip t with
  | .error e => (.error e, files)
  | .ok r => (.ok (), { files with image := r.data })

/-! ## Mounting an image -/

/-- `struct fat_bpb` in the first sector. -/
def readBpb (img : List UInt8) : FatBpb where
  bxSecPerClust := UInt8.ofNat (readLe img 0xd 1)
  bxResSectors := UInt16.ofNat (readLe img 0xe 2)
  bxFATs := UInt8.ofNat (readLe img 0x10 1)
  bxRootDirEnts := UInt16.ofNat (readLe img 0x11 2)
  bxSectors := UInt16.ofNat (readLe img 0x13 2)
  bxFATsecs := UInt16.ofNat (readLe img 0x16 2)
  bsHugeSectors := UInt32.ofNat (readLe img 0x20 4)
  bxFATsecs32 := UInt32.ofNat (readLe img 0x24 4)
  extendedFlags := UInt16.ofNat (readLe img 0x28 2)
  rootCluster := UInt32.ofNat (readLe img 0x2c 4)

/-- A sector of an image. -/
def sectorOf (img : List UInt8) (p : Nat) : List UInt8 :=
  (List.range 512).map fun j => img.getD (p * 512 + j) 0

/-- The boot loader has mounted an image. -/
structure Mounts (img : List UInt8) (fs : FatFs) : Prop where
  shift : fs.sectorShift = 9
  init : vfatFsInit 9 (readBpb img) = some fs.sbi
  disk : fs.disk = sectorOf img

/-- The type of the file system that the script reads off its name. -/
def Header.fatType (h : Header) : FatType := if h.isFat16 then .fat16 else .fat12

def Header.fatBits (h : Header) : Nat := if h.isFat16 then 16 else 12

/-- The most clusters that a type can have. -/
def Header.maxClusters (h : Header) : Nat := if h.isFat16 then 65524 else 4084

/-- The clusters of the data area as the boot loader counts them, by a shift. -/
def Header.loaderClusters (h : Header) : Nat := h.dataSectors / 2 ^ Nat.log2 h.sectorsPerCluster

/-- The name of the file system is the type that has this number of clusters. -/
def Header.NameFits (h : Header) : Prop :=
  h.loaderClusters ≤ h.maxClusters ∧ (h.isFat16 = true → 4084 < h.loaderClusters)

/-- A boot image: a FAT12 or FAT16 volume with all its sectors, and with a table that is large
enough for its clusters. -/
structure IsBootImage (img : List UInt8) : Prop where
  name : slice img 0x36 6 = fat12Name ∨ slice img 0x36 6 = fat16Name
  holds : (dumpHeader img).sectorCount3 * 512 ≤ img.length
  reserved : 0 < (dumpHeader img).reservedSectorCount
  table : ((dumpHeader img).clusterCount + 2) * (dumpHeader img).fatBits ≤
    ((dumpHeader img).sectorsPerFat * 4096 : Nat)
  count_le : (dumpHeader img).clusterCount ≤ (dumpHeader img).maxClusters

variable {h : Header} {img : List UInt8} {fs : FatFs}

theorem toNat_ofNat_readLe_one (off : Nat) :
    (UInt8.ofNat (readLe img off 1)).toNat = readLe img off 1 :=
  UInt8.toNat_ofNat_of_lt' (readLe_lt img off 1)

theorem toNat_ofNat_readLe_two (off : Nat) :
    (UInt16.ofNat (readLe img off 2)).toNat = readLe img off 2 :=
  UInt16.toNat_ofNat_of_lt' (readLe_lt img off 2)

theorem toNat_ofNat_readLe_four (off : Nat) :
    (UInt32.ofNat (readLe img off 4)).toNat = readLe img off 4 :=
  UInt32.toNat_ofNat_of_lt' (readLe_lt img off 4)

/-- The loader and the tool read the same number of sectors. -/
theorem totalSectors_readBpb : (readBpb img).totalSectors = (dumpHeader img).sectorCount3 := by
  rw [FatBpb.totalSectors, Header.sectorCount3]
  refine if_congr ?_ (toNat_ofNat_readLe_two _) (toNat_ofNat_readLe_four _)
  rw [ne_eq, ← UInt16.toNat_inj]
  exact not_congr (by rw [readBpb, toNat_ofNat_readLe_two]; rfl)

/-- The loader and the tool read the same number of sectors of a FAT. -/
theorem sectorsPerFat_readBpb (hpos : 0 < (dumpHeader img).sectorsPerFat) :
    (readBpb img).sectorsPerFat = (dumpHeader img).sectorsPerFat := by
  have heq : (readBpb img).bxFATsecs.toNat = (dumpHeader img).sectorsPerFat :=
    toNat_ofNat_readLe_two _
  rw [FatBpb.sectorsPerFat, if_pos, heq]
  rw [ne_eq, ← UInt16.toNat_inj, heq]
  exact hpos.ne'

/-- The number of sectors fits into 32 bits. -/
theorem sectorCount3_lt : (dumpHeader img).sectorCount3 < 2 ^ 32 := by
  rw [Header.sectorCount3]
  split
  · exact (readLe_lt img 0x13 2).trans (by decide)
  · exact readLe_lt img 0x20 4

theorem IsBootImage.sectorsPerFat_pos (hboot : IsBootImage img)
    (hcc : 0 < (dumpHeader img).clusterCount) : 0 < (dumpHeader img).sectorsPerFat := by
  have htable := hboot.table
  by_contra hzero
  rw [Nat.eq_zero_of_not_pos hzero, Nat.zero_mul] at htable
  have hbits : (0 : Int) < (dumpHeader img).fatBits := by
    rw [Header.fatBits]
    split
    · decide
    · decide
  have hpos : (0 : Int) < ((dumpHeader img).clusterCount + 2) * (dumpHeader img).fatBits :=
    Int.mul_pos (by omega) hbits
  omega

/-- What the boot loader keeps of an image. -/
theorem vfatFsInit_readBpb (hboot : IsBootImage img) {n : Nat} (ht : (dumpHeader img).Takes n)
    (hname : (dumpHeader img).NameFits) : ∃ sbi, vfatFsInit 9 (readBpb img) = some sbi ∧
      sbi.fat = (dumpHeader img).reservedSectorCount ∧ sbi.fatType = (dumpHeader img).fatType ∧
      sbi.clusters = (dumpHeader img).loaderClusters ∧
      sbi.data ≤ (readBpb img).totalSectors := by
  obtain ⟨hlt, -⟩ := clusterCount_eq ht.perCluster ht.clusters
  have htotal := @sectorCount3_lt img
  have hfat : (readBpb img).bxResSectors.toNat = (dumpHeader img).reservedSectorCount :=
    toNat_ofNat_readLe_two _
  have hfats : (readBpb img).bxFATs.toNat = 1 := (toNat_ofNat_readLe_one _).trans ht.fatCount
  have hroot : Fs.Fat.rootDirSize 9 (readBpb img) = ((dumpHeader img).rootdirEntryCount + 15) / 16 :=
    congrArg (fun n => (n + 15) / 16) (toNat_ofNat_readLe_two 0x11)
  have hclust : (readBpb img).bxSecPerClust.toNat = (dumpHeader img).sectorsPerCluster :=
    toNat_ofNat_readLe_one _
  have hdata : (readBpb img).bxResSectors.toNat +
      (readBpb img).sectorsPerFat * (readBpb img).bxFATs.toNat + Fs.Fat.rootDirSize 9 (readBpb img) =
        (dumpHeader img).dataStart := by
    rw [hfat, hfats, hroot, sectorsPerFat_readBpb (hboot.sectorsPerFat_pos ht.clusters),
      Header.dataStart, ht.fatCount, Nat.mul_one, Nat.one_mul]
  have hcount : u32 (u64 ((readBpb img).totalSectors + 2 ^ 64 - (dumpHeader img).dataStart) /
      2 ^ Nat.log2 (readBpb img).bxSecPerClust.toNat) = (dumpHeader img).loaderClusters := by
    have hu : u64 ((dumpHeader img).sectorCount3 + 2 ^ 64 - (dumpHeader img).dataStart) =
        (dumpHeader img).dataSectors := by
      rw [u64, Header.dataSectors]
      omega
    rw [totalSectors_readBpb, hu, hclust]
    refine u32_of_lt ((Nat.div_le_self _ _).trans_lt ?_)
    rw [Header.dataSectors]
    omega
  have hres : ¬((readBpb img).bxResSectors = 0 ∨ (readBpb img).bxFATs = 0) := by
    rw [← UInt16.toNat_inj, ← UInt8.toNat_inj, hfat, hfats]
    exact not_or.mpr ⟨hboot.reserved.ne', Nat.one_ne_zero⟩
  obtain ⟨hmax, hmin⟩ := hname
  rw [vfatFsInit, if_neg hres]
  dsimp only
  rw [hdata, hcount, totalSectors_readBpb]
  by_cases h16 : (dumpHeader img).isFat16 = true
  · rw [Header.maxClusters, if_pos h16] at hmax
    rw [if_neg (Nat.not_le.mpr (hmin h16)), if_pos hmax]
    refine ⟨_, rfl, hfat, ?_, rfl, hlt.le⟩
    rw [Header.fatType, if_pos h16]
  · rw [Header.maxClusters, if_neg h16] at hmax
    rw [if_pos hmax]
    refine ⟨_, rfl, hfat, ?_, rfl, hlt.le⟩
    rw [Header.fatType, if_neg h16]

/-- The boot loader mounts an image. -/
theorem exists_mounts (hboot : IsBootImage img) {n : Nat} (ht : (dumpHeader img).Takes n)
    (hname : (dumpHeader img).NameFits) : ∃ fs, Mounts img fs ∧
      fs.sbi.fat = (dumpHeader img).reservedSectorCount ∧
      fs.sbi.fatType = (dumpHeader img).fatType ∧
      fs.sbi.clusters = (dumpHeader img).loaderClusters := by
  obtain ⟨sbi, hinit, hfat, htype, hclusters, hdata⟩ := vfatFsInit_readBpb hboot ht hname
  have hlength : ∀ p, (sectorOf img p).length = 512 := by
    intro p
    rw [sectorOf, List.length_map, List.length_range]
  obtain ⟨fs, hshift, hsbi, hdisk⟩ :
      ∃ fs : FatFs, fs.sectorShift = 9 ∧ fs.sbi = sbi ∧ fs.disk = sectorOf img :=
    ⟨⟨9, sbi, sectorOf img, by decide, Fs.Fat.vfatFsInit_valid hinit (by decide) hdata,
      fun p => (hlength p).trans (by decide)⟩, rfl, rfl, by dsimp only⟩
  exact ⟨fs, ⟨hshift, hsbi ▸ hinit, hdisk⟩, hsbi ▸ hfat, hsbi ▸ htype, hsbi ▸ hclusters⟩

/-! ## The entries of the table -/

/-- Numbers of two bytes in the table. -/
theorem fatNum_mounted (hm : Mounts img fs) (i : Nat) :
    Fs.Fat.fatNum fs i 2 = readLe img (fs.sbi.fat * 512 + i) 2 := by
  have hbyte : ∀ k, (Fs.Fat.fatByte fs k).toNat = byteAt img (fs.sbi.fat * 512 + k) := by
    intro k
    have hpos : (fs.sbi.fat + k / 512) * 512 + k % 512 = fs.sbi.fat * 512 + k := by
      have hdiv := Nat.div_add_mod k 512
      omega
    have hmod : k % 512 < 512 := Nat.mod_lt _ (by decide)
    have hsize : fs.sectorSize = 512 := congrArg (2 ^ ·) hm.shift
    rw [Fs.Fat.fatByte, hsize, hm.disk, sectorOf, List.getD_eq_getElem?_getD,
      List.getElem?_map, List.getElem?_range hmod, Option.map_some, Option.getD_some, hpos]
    rfl
  rw [readLe_two, ← hbyte i, Nat.add_assoc, ← hbyte (i + 1), Fs.Fat.fatNum]
  simp only [List.range_succ, List.range_zero, List.nil_append, List.map_cons, List.map_nil,
    List.cons_append, leNat, Nat.add_zero, Nat.mul_zero]

/-- The boot loader and the script read the same entries. -/
theorem getNextCluster_mounted (hm : Mounts img fs) (hfat : fs.sbi.fat = h.reservedSectorCount)
    (htype : fs.sbi.fatType = h.fatType) {k : Nat} (hk : k < 2 ^ 28) :
    getNextCluster fs k = fatEntry h img k := by
  rw [Fs.Fat.getNextCluster_eq fs hk, Fs.Fat.fatEntry, htype, Header.fatType, fatEntry]
  by_cases h16 : h.isFat16 = true
  · rw [if_pos h16, if_pos h16]
    dsimp only
    rw [fatNum_mounted hm, hfat]
  · rw [if_neg h16, if_neg h16]
    dsimp only
    rw [fatNum_mounted hm, hfat]

/-- The mark of a last cluster. -/
def Header.lastMark (h : Header) : Nat := if h.isFat16 then 0xffff else 0xfff

/-- The entry of the last cluster. -/
theorem addChain_last (hfits : h.TableFits) {last : Nat} (count : Nat) {c : Nat}
    {data data' : List UInt8} (ha : addChain h last count c data = .ok data')
    (hlo : c ≤ last) (hhi : last < c + count) : fatEntry h data' last = h.lastMark := by
  induction count generalizing c data with
  | zero => omega
  | succ count ih =>
    rw [addChain] at ha
    split at ha
    · cases ha
    · split at ha
      · cases ha
      · split at ha
        · cases ha
        · rename_i d hd
          by_cases hlast : last = c
          · subst hlast
            rw [if_pos rfl] at hd
            have hmark : nextMark h (-1) = .ok h.lastMark := if_pos rfl
            have hmax : h.lastMark < h.entryMax := by
              rw [Header.lastMark, Header.entryMax]
              split
              · decide
              · decide
            have hset := fatSet_entry hmark hmax hd
            have hrest := addChain_chain hfits count (c := last + 1) ha
            rw [hrest.others last (by omega), hset.entry]
          · exact ih (c := c + 1) ha (by omega) (by omega)

/-- A table that is large enough has an entry for each cluster. -/
theorem IsBootImage.tableFits (hboot : IsBootImage img) : (dumpHeader img).TableFits := by
  have htable := hboot.table
  have hcount := hboot.count_le
  constructor
  · intro c hc
    simp only [Header.isCluster, Bool.and_eq_true, decide_eq_true_eq] at hc
    rw [Header.fatBits] at htable
    rw [Header.entryByte]
    by_cases h16 : (dumpHeader img).isFat16 = true
    · rw [if_pos h16] at htable ⊢
      omega
    · rw [if_neg h16] at htable ⊢
      omega
  · intro c hc
    simp only [Header.isCluster, Bool.and_eq_true, decide_eq_true_eq] at hc
    rw [Header.maxClusters] at hcount
    rw [Header.entryMax]
    by_cases h16 : (dumpHeader img).isFat16 = true
    · rw [if_pos h16] at hcount ⊢
      omega
    · rw [if_neg h16] at hcount ⊢
      omega

/-! ## The chain -/

/-- The boot loader follows a chain through `n` consecutive clusters and stops behind them. -/
structure Walks (fs : FatFs) (c n : Nat) : Prop where
  onVolume : ∀ i < n, offVolume fs (c + i) = false
  next : ∀ i, i + 1 < n → getNextCluster fs (c + i) = c + (i + 1)
  ends : ∀ i, i + 1 = n → offVolume fs (getNextCluster fs (c + i)) = true

/-- What the script leaves: the image as it is when it fails, and otherwise a chain through the
last clusters, and every other entry. -/
def Sound (img zip : List UInt8) (t : Gmtime) : Prop :=
  (∀ files e files', files.image = img → main files zip t = (.error e, files') →
    files'.image = img) ∧
  ∀ r, mkzip img zip t = .ok r → ∃ fs fs', Mounts img fs ∧ Mounts r.data fs' ∧
    Walks fs' ((dumpHeader img).startCluster zip.length).toNat
      ((dumpHeader img).zipClusters zip.length) ∧
    ∀ k : Nat, (dumpHeader img).isCluster k = true →
      (∀ i < (dumpHeader img).zipClusters zip.length,
        k ≠ ((dumpHeader img).startCluster zip.length).toNat + i) →
      getNextCluster fs' k = getNextCluster fs k

/-- A run that raises leaves the image as it was. -/
theorem main_error {files files' : Files} {zip : List UInt8} {t : Gmtime} {e : Failure}
    (hmain : main files zip t = (.error e, files')) : files'.image = files.image := by
  rw [main] at hmain
  dsimp only at hmain
  cases hmk : mkzip files.image zip t with
  | error e' =>
    rw [hmk] at hmain
    exact (congrArg Files.image (Prod.mk.inj hmain).2).symm
  | ok r =>
    rw [hmk] at hmain
    exact nomatch (Prod.mk.inj hmain).1

/-- The boot loader's count is not smaller than the script's. -/
theorem clusterCount_le_loaderClusters (hspc : 0 < h.sectorsPerCluster) (hcc : 0 < h.clusterCount) :
    h.clusterCount ≤ h.loaderClusters := by
  rw [(clusterCount_eq hspc hcc).2, Header.loaderClusters]
  exact Int.ofNat_le.mpr (Nat.div_le_div_left (Nat.log2_self_le hspc.ne') (Nat.two_pow_pos _))

/-- The boot loader takes a cluster that is not on the volume for the end of a chain. -/
theorem offVolume_eq (c : Nat) (hlo : 2 ≤ c) (hlt : c < 2 ^ 32) :
    offVolume fs c = decide (fs.sbi.clusters + 2 ≤ c) := by
  have hsub : u32 (c + 2 ^ 32 - 2) = c - 2 := by
    rw [Fs.u32]
    omega
  rw [offVolume, hsub, decide_eq_decide]
  omega

/-- The boot loader reads the chain. -/
theorem walks_of_chainSet (hm : Mounts img fs) (hfat : fs.sbi.fat = h.reservedSectorCount)
    (htype : fs.sbi.fatType = h.fatType) (hcount : h.clusterCount ≤ fs.sbi.clusters)
    (hmax : fs.sbi.clusters ≤ h.maxClusters) {c n : Nat} (hc : 2 ≤ c)
    (hend : (c + n : Int) = h.clusterCount + 2)
    (hnext : ∀ k, c ≤ k → k + 1 < c + n → fatEntry h img k = k + 1)
    (hlast : 0 < n → fatEntry h img (c + n - 1) = h.lastMark) : Walks fs c n := by
  have hle : h.maxClusters ≤ 65524 := by
    rw [Header.maxClusters]
    split
    · decide
    · decide
  have hread : ∀ k < c + n, getNextCluster fs k = fatEntry h img k :=
    fun k hk => getNextCluster_mounted hm hfat htype (by omega)
  refine ⟨fun i hi => ?_, fun i hi => ?_, fun i hi => ?_⟩
  · rw [offVolume_eq (c + i) (by omega) (by omega), decide_eq_false_iff_not]
    omega
  · rw [hread _ (by omega)]
    exact hnext _ (by omega) (by omega)
  · have hmark : h.maxClusters + 2 ≤ h.lastMark ∧ h.lastMark < 2 ^ 32 ∧ 2 ≤ h.lastMark := by
      rw [Header.maxClusters, Header.lastMark]
      split
      · decide
      · decide
    have hpos : c + n - 1 = c + i := by omega
    rw [hread _ (by omega), ← hpos, hlast (by omega), offVolume_eq _ hmark.2.2 hmark.2.1,
      decide_eq_true_eq]
    omega

/-- The numbers from 2 on, as many as there are clusters, are clusters. -/
theorem isCluster_of_lt {k : Nat} (hlo : 2 ≤ k) (hlt : (k : Int) < h.clusterCount + 2) :
    h.isCluster k = true := by
  simp only [Header.isCluster, Bool.and_eq_true, decide_eq_true_eq]
  omega

/-- A cluster's number is below the count. -/
theorem lt_of_isCluster {k : Nat} (hk : h.isCluster k = true) : (k : Int) < h.clusterCount + 2 := by
  simp only [Header.isCluster, Bool.and_eq_true, decide_eq_true_eq] at hk
  exact hk.2

/-- What makes a boot image stands in its first sector. -/
theorem IsBootImage.congr {img' : List UInt8} (hboot : IsBootImage img)
    (hsector : ∀ k, k < 512 → img'[k]? = img[k]?) (hlength : img'.length = img.length) :
    IsBootImage img' := by
  have hheader : dumpHeader img' = dumpHeader img :=
    dumpHeader_congr fun k hk => hsector k (hk.trans (by decide))
  have hname : slice img' 0x36 6 = slice img 0x36 6 := by
    apply List.ext_getElem?
    intro i
    rw [getElem?_slice, getElem?_slice]
    split
    · exact hsector _ (by omega)
    · rfl
  constructor
  · rw [hname]
    exact hboot.name
  · rw [hheader, hlength]
    exact hboot.holds
  · rw [hheader]
    exact hboot.reserved
  · rw [hheader]
    exact hboot.table
  · rw [hheader]
    exact hboot.count_le

theorem length_headOf_append {zip : List UInt8} (hpos : 0 < zip.length)
    (hle : zip.length ≤ img.length) : (headOf img zip.length ++ zip).length = img.length := by
  rw [headOf, if_neg hpos.ne', List.length_append, List.length_take,
    Nat.min_eq_left (Nat.sub_le _ _), Nat.sub_add_cancel hle]

/-- The root directory and the data area lie behind the table. -/
theorem table_in_front (hfat : h.fatCount = 1) :
    (h.reservedSectorCount + h.sectorsPerFat) * 512 ≤ h.dataStart * 512 := by
  rw [Header.dataStart, hfat, Nat.one_mul]
  exact Nat.mul_le_mul_right 512 (Nat.le_add_right _ _)

/-- On a boot image whose name is the type that the boot loader finds, the boot loader decodes
the chain that the script has set, and every other entry as before. -/
theorem sound_of_nameFits (img zip : List UInt8) (t : Gmtime) (hboot : IsBootImage img)
    (hname : (dumpHeader img).NameFits) : Sound img zip t := by
  refine ⟨fun files e files' himg hmain => (main_error hmain).trans himg, fun r hok => ?_⟩
  obtain ⟨ht, hheader, hadd⟩ := takes_of_mkzip hboot.name hok
  have htakes := ht.header
  have hfits := hboot.tableFits
  have hroom := dataStart_add_le hboot.holds htakes
  generalize hdata : headOf img zip.length ++ zip = data at hheader hadd
  obtain ⟨-, hfat, hspc, hcc, d, direntry, hchain, hnew, hentry⟩ := addInstallZip_ok hadd _ hheader
  obtain ⟨hsize, -⟩ := direntryNew_ok hnew
  obtain ⟨hlo, hhi, hblit⟩ := addEntry_ok hsize hentry
  have hcount := clusterCount_le_loaderClusters hspc hcc
  have hclusters := htakes.room
  obtain ⟨c, hc⟩ : ∃ c : Nat, (dumpHeader img).startCluster zip.length = c :=
    ⟨_, (Int.toNat_of_nonneg (by
      rw [Header.startCluster]
      omega)).symm⟩
  have hend : (c + (dumpHeader img).zipClusters zip.length : Int) =
      (dumpHeader img).clusterCount + 2 := by
    rw [← hc, Header.startCluster]
    omega
  have hpos : 0 < (dumpHeader img).zipClusters zip.length := by
    rw [Header.zipClusters]
    refine Nat.div_pos ?_ hspc
    have hzip := ht.pos
    rw [zipSectors]
    omega
  have hlast : (c + (dumpHeader img).zipClusters zip.length - 1 : Int) =
      ((c + (dumpHeader img).zipClusters zip.length - 1 : Nat) : Int) := by
    omega
  rw [hc, hlast] at hchain
  have hset := addChain_chain hfits _ hchain
  have hmark := addChain_last hfits _ hchain (by omega) (by omega)
  rw [hfat, Nat.one_mul] at hlo hhi
  -- the table of the new image is that of the loop, the rest of the front that of the old image
  have hdlen : d.length = data.length := length_addChain hchain
  have hroot := table_in_front hfat
  have hbefore : ∀ k, k < (dumpHeader img).dataStart * 512 → data[k]? = img[k]? := by
    intro k hk
    rw [← hdata, headOf, if_neg ht.pos.ne', List.getElem?_append_left, List.getElem?_take,
      if_pos (by omega)]
    rw [List.length_take]
    omega
  have hlength : data.length = img.length := by
    rw [← hdata]
    exact length_headOf_append ht.pos (Nat.le_trans (Nat.le_add_left _ _) hroom)
  have hofs : r.direntryOfs + direntry.length ≤ d.length := by
    have hin := rootdir_in_front (dumpHeader img)
    rw [hfat, Nat.one_mul] at hin
    rw [hdlen, hlength, hsize]
    exact hhi.trans (hin.trans (Nat.le_of_add_right_le hroom))
  have htable : ∀ k, k < ((dumpHeader img).reservedSectorCount +
      (dumpHeader img).sectorsPerFat) * 512 → r.data[k]? = d[k]? := by
    intro k hk
    rw [hblit]
    exact getElem?_blit_of_lt (Nat.le_of_add_right_le hofs) (hk.trans_le hlo)
  have hcluster : ∀ k : Nat, (dumpHeader img).isCluster k = true →
      fatEntry (dumpHeader img) r.data k = fatEntry (dumpHeader img) d k := by
    intro k hk
    have hbyte := hfits.entry k hk
    exact fatEntry_congr fun i hi => htable _ (by omega)
  have hsector : ∀ k, k < 512 → r.data[k]? = img[k]? := by
    intro k hk
    have hres : k < (dumpHeader img).reservedSectorCount * 512 :=
      hk.trans_le (Nat.le_mul_of_pos_left 512 hboot.reserved)
    have hfront := hres.trans_le (Nat.mul_le_mul_right 512
      (Nat.le_add_right _ (dumpHeader img).sectorsPerFat))
    rw [htable k hfront, hset.outside k (Or.inl hres), hbefore k (hfront.trans_le hroot)]
  have hboot' := hboot.congr hsector (by rw [hblit, length_blit hofs, hdlen, hlength])
  have hheader' : dumpHeader r.data = dumpHeader img :=
    dumpHeader_congr fun k hk => hsector k (hk.trans (by decide))
  obtain ⟨fs, hm, hfs, htype, hloader⟩ := exists_mounts hboot htakes hname
  obtain ⟨fs', hm', hfs', htype', hloader'⟩ :=
    exists_mounts hboot' (hheader'.symm ▸ htakes) (hheader'.symm ▸ hname)
  rw [hheader'] at hfs' htype' hloader'
  refine ⟨fs, fs', hm, hm', ?_, fun k hk hother => ?_⟩
  · rw [hc, Int.toNat_natCast]
    refine walks_of_chainSet hm' hfs' htype' (hloader' ▸ hcount) (hloader' ▸ hname.1) (by omega)
      hend (fun k hlow hhigh => ?_) fun _ => ?_
    · rw [hcluster k (isCluster_of_lt (by omega) (by omega))]
      exact hset.chain k hlow (by omega) (by omega)
    · rw [hcluster _ (isCluster_of_lt (by omega) (by omega))]
      exact hmark
  · rw [hc, Int.toNat_natCast] at hother
    have hlow : k < c := by
      by_contra hge
      have hlt := lt_of_isCluster hk
      exact hother (k - c) (by omega) (by omega)
    have hbyte := hfits.entry k hk
    have hsmall : k < 2 ^ 28 := by
      have hle := hfits.number k hk
      have hmax : (dumpHeader img).entryMax ≤ 65536 := by
        rw [Header.entryMax]
        split
        · decide
        · decide
      omega
    rw [getNextCluster_mounted hm hfs htype hsmall, getNextCluster_mounted hm' hfs' htype' hsmall,
      hcluster k hk, hset.others k (Or.inl hlow)]
    exact fatEntry_congr fun i hi => hbefore _ (by omega)

/-! ## Two small images -/

private theorem smallImage_isBootImage {img : List UInt8} {b : Bool}
    (hh : dumpHeader img = { smallHeader 1 5 with isFat16 := b }) (hlength : img.length = 2560)
    (hname : slice img 0x36 6 = fat12Name ∨ slice img 0x36 6 = fat16Name) : IsBootImage img := by
  have hcc : Header.clusterCount { smallHeader 1 5 with isFat16 := b } = 2 := by
    cases b <;> decide
  refine ⟨hname, ?_, ?_, ?_, ?_⟩
  · rw [hh, hlength]
    cases b <;> decide
  · rw [hh]
    exact Nat.one_pos
  · rw [hh, hcc]
    cases b <;> decide
  · rw [hh, hcc]
    cases b <;> decide

/-- A FAT12 image of two clusters. -/
theorem sound_of_nameFits_small : Sound (smallImage 1 5) (List.replicate 600 0x50) buildTime := by
  have hh : dumpHeader (smallImage 1 5) = smallHeader 1 5 := by decide +kernel
  refine sound_of_nameFits _ _ _ (smallImage_isBootImage hh (by decide +kernel) (Or.inl rfl)) ?_
  rw [hh]
  exact ⟨by decide, nofun⟩

/-- The same image under the name of FAT16: the boot loader takes the entries for 12 bits. -/
theorem smallFat16_not_sound : ¬∀ img zip t, IsBootImage img → Sound img zip t := by
  intro hall
  have hh : dumpHeader (blit (smallImage 1 5) 0x36 fat16Name) =
      { smallHeader 1 5 with isFat16 := true } := by
    decide +kernel
  have hsound := hall (blit (smallImage 1 5) 0x36 fat16Name) (List.replicate 600 0x50) buildTime
    (smallImage_isBootImage hh (by decide +kernel) (Or.inr (by decide +kernel)))
  have hentry : (mkzip (blit (smallImage 1 5) 0x36 fat16Name) (List.replicate 600 0x50)
      buildTime).toOption.map (fun r => (vfatFsInit 9 (readBpb r.data),
        readLe r.data (1 * 512 + 3) 2 % 0x1000)) =
      some (some ⟨1, 2, 3, 2, 1, 0, 9, .fat12⟩, 768) := by
    decide +kernel
  cases hr : mkzip (blit (smallImage 1 5) 0x36 fat16Name) (List.replicate 600 0x50) buildTime with
  | error err =>
    rw [hr] at hentry
    cases hentry
  | ok r =>
    rw [hr] at hentry
    obtain ⟨hinit, hvalue⟩ := Prod.mk.inj (Option.some.inj hentry)
    obtain ⟨fs, fs', -, hm, hwalk, -⟩ := hsound.2 r hr
    have hsbi := Option.some.inj (hm.init.symm.trans hinit)
    have hstart : ((dumpHeader (blit (smallImage 1 5) 0x36 fat16Name)).startCluster
        (List.replicate 600 (0x50 : UInt8)).length).toNat = 2 := by
      rw [hh]
      decide +kernel
    have hcount : (dumpHeader (blit (smallImage 1 5) 0x36 fat16Name)).zipClusters
        (List.replicate 600 (0x50 : UInt8)).length = 2 := by
      rw [hh]
      decide +kernel
    have hnext := hwalk.next 0 (by rw [hcount]; decide)
    rw [hstart, Fs.Fat.getNextCluster_eq fs' (by decide), Fs.Fat.fatEntry, hsbi] at hnext
    dsimp only at hnext
    rw [if_neg (by decide), fatNum_mounted hm, hsbi, hvalue] at hnext
    cases hnext

end Liigboot.Mkzip
