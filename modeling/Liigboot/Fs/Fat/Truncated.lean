import Liigboot.Fs.Fat.Frontier

/-!
# Files whose cluster chain is too short

`fat_next_extent` cuts the size of a file when its chain ends in front of what the size says. The
new size is a number of sectors and not of bytes, so that the next read starts behind it, and
computes a negative rest.
-/

namespace Liigboot.Fs.Fat

variable {fs : FatFs} {hshift : fs.sectorShift < 31} {fuel : Nat}

/-! ## The promise -/

/-- The chain of a file ends behind `m` clusters. -/
def EndsAfter (fs : FatFs) (startCluster m : Nat) : Prop :=
  (∀ k < m, 2 ≤ clusterChain fs startCluster k ∧
      clusterChain fs startCluster k < fs.sbi.clusters + 2) ∧
    ¬(2 ≤ clusterChain fs startCluster m ∧ clusterChain fs startCluster m < fs.sbi.clusters + 2)

/-- The states of an open file behind some reads. -/
inductive Reads (fs : FatFs) (hshift : fs.sectorShift < 31) (fuel : Nat) (file : FatFile) :
    FatFile → Prop where
  | refl : Reads fs hshift fuel file file
  | read {file' : FatFile} {n : Nat} {got : Got FatNode} (h : Reads fs hshift fuel file file')
      (hread : fatGetfssec fs hshift fuel file' n = some got) : Reads fs hshift fuel file (gotFile got)

/-- The states of a file that is opened and read, as long as its size has not been cut. -/
inductive Uncut (fs : FatFs) (hshift : fs.sectorShift < 31) (fuel : Nat) (found : Found) :
    FatFile → Prop where
  | opened : Uncut fs hshift fuel found (openFile found)
  | read {file : FatFile} {n : Nat} {got : Got FatNode} (h : Uncut fs hshift fuel found file)
      (hread : fatGetfssec fs hshift fuel file n = some got)
      (hsize : (gotFile got).size = file.size) : Uncut fs hshift fuel found (gotFile got)

/-- What is promised when a file has been found to end behind `m` clusters: its size is that of the
clusters, and every later read returns nothing, and tells a caller that there is no more. `garbage`
is what the caller's variable holds. -/
structure Truncates (fs : FatFs) (hshift : fs.sectorShift < 31) (fuel m : Nat) (garbage : Bool)
    (file : FatFile) : Prop where
  size_eq : file.size.toNat = m * 2 ^ fs.sbi.clustByteShift
  later : ∀ file', Reads fs hshift fuel file file' → ∀ n, ∃ got,
    fatGetfssec fs hshift fuel file' n = some got ∧ got.data = [] ∧
      got.haveMore.getD garbage = false

/-! ## Opening a file -/

/-- The data area of a mounted volume starts at a small sector number. -/
theorem vfatFsInit_data_lt {sectorShift : Nat} {bpb : FatBpb} {sbi : FatSbInfo}
    (h : vfatFsInit sectorShift bpb = some sbi) (hshift : sectorShift < 31) :
    sbi.data < 2 ^ 63 := by
  have hdata : sbi.data = bpb.bxResSectors.toNat + bpb.sectorsPerFat * bpb.bxFATs.toNat +
      rootDirSize sectorShift bpb := by
    rw [vfatFsInit] at h
    dsimp only at h
    split_ifs at h <;> exact (congrArg FatSbInfo.data (Option.some.inj h)).symm
  have hres := bpb.bxResSectors.toNat_lt
  have hfats := bpb.bxFATs.toNat_lt
  have hents := bpb.bxRootDirEnts.toNat_lt
  have hper : bpb.sectorsPerFat < 2 ^ 32 := by
    rw [FatBpb.sectorsPerFat]
    split_ifs
    · exact bpb.bxFATsecs.toNat_lt.trans (by decide)
    · exact bpb.bxFATsecs32.toNat_lt
  have htables : bpb.sectorsPerFat * bpb.bxFATs.toNat ≤ 2 ^ 32 * 2 ^ 8 :=
    Nat.mul_le_mul hper.le hfats.le
  have hroot : rootDirSize sectorShift bpb ≤ bpb.bxRootDirEnts.toNat + 2 ^ sectorShift / 32 - 1 :=
    Nat.div_le_self _ _
  have hsector : 2 ^ sectorShift / 32 ≤ 2 ^ 31 :=
    (Nat.div_le_self _ _).trans (Nat.pow_le_pow_right Nat.two_pos hshift.le)
  omega

/-- The cluster that the driver takes up from the first sector of a file is its first one, unless
that sector is in front of the data area. -/
theorem resumeCluster_firstSector {pvt : FatPvt} {de : Slot} (hde : de.startCluster ≠ 0)
    (hdata : fs.sbi.data < 2 ^ 63) (hhere : pvt.here = firstSector fs.sbi de) :
    resumeCluster fs pvt = de.startCluster.toNat ∨ pvt.here < fs.sbi.data := by
  have hs := de.startCluster.toNat_lt
  have hpos : 0 < de.startCluster.toNat := by
    refine Nat.pos_of_ne_zero fun hzero => hde (UInt32.toNat_inj.mp ?_)
    exact hzero
  have hcb := fs.valid.byteShift_lt
  have hshiftLe : fs.sbi.clustShift ≤ 32 := by
    rw [fs.valid.byteShift_eq] at hcb
    omega
  have hcpos : 0 < 2 ^ fs.sbi.clustShift := Nat.two_pow_pos _
  -- the offset of the first cluster, in clusters
  obtain ⟨first, hfirst, hmod⟩ : ∃ first, firstSector fs.sbi de =
      u64 (u64 (first * 2 ^ fs.sbi.clustShift) + fs.sbi.data) ∧
      (first + 2) % 2 ^ 32 = de.startCluster.toNat := by
    refine ⟨u64 (de.startCluster.toNat +
      (if de.startCluster.toNat < 2 ^ 31 then 0 else 2 ^ 64 - 2 ^ 32) + 2 ^ 64 - 2), ?_, ?_⟩
    · rw [firstSector, if_neg (by omega)]
      simp only [u64, Nat.mod_add_mod]
    · rw [u64]
      split_ifs <;> omega
  have hword : 2 ^ 64 = 2 ^ (64 - fs.sbi.clustShift) * 2 ^ fs.sbi.clustShift := by
    rw [← Nat.pow_add]
    congr 1
    omega
  have hdvd : 2 ^ 32 ∣ 2 ^ (64 - fs.sbi.clustShift) := Nat.pow_dvd_pow 2 (by omega)
  have hlow : u64 (first * 2 ^ fs.sbi.clustShift) / 2 ^ fs.sbi.clustShift =
      first % 2 ^ (64 - fs.sbi.clustShift) := by
    rw [u64, hword, Nat.mul_mod_mul_right, Nat.mul_div_cancel _ hcpos]
  have hlt : u64 (first * 2 ^ fs.sbi.clustShift) < 2 ^ 64 := Nat.mod_lt _ (Nat.two_pow_pos 64)
  rw [hhere, hfirst]
  by_cases hwrap : u64 (first * 2 ^ fs.sbi.clustShift) + fs.sbi.data < 2 ^ 64
  · left
    have hback : u64 (u64 (first * 2 ^ fs.sbi.clustShift) + fs.sbi.data + 2 ^ 64 - fs.sbi.data) =
        u64 (first * 2 ^ fs.sbi.clustShift) := by
      generalize u64 (first * 2 ^ fs.sbi.clustShift) = low at hlt
      rw [u64]
      omega
    rw [resumeCluster, hhere, hfirst, u64_of_lt hwrap, hback, hlow, u32, Nat.add_mod,
      Nat.mod_mod_of_dvd _ hdvd, ← Nat.add_mod, hmod]
  · right
    generalize u64 (first * 2 ^ fs.sbi.clustShift) = low at hlt hwrap
    rw [u64]
    omega

/-- A file as it is opened. -/
theorem ReadFrom.opened {de : Slot} {bpb : FatBpb} {rootCluster : UInt32}
    (hmount : vfatFsInit fs.sectorShift bpb = some fs.sbi) (hshift : fs.sectorShift < 31)
    (hde : de.startCluster ≠ 0) :
    ReadFrom fs de.startCluster.toNat de.fileSize
      (openFile (foundInode fs.sectorShift fs.sbi rootCluster de)) := by
  have hdata := vfatFsInit_data_lt hmount hshift
  rw [foundInode, if_neg hde]
  refine ⟨⟨0, rfl, ⟨rfl, (Nat.zero_mul _).symm, fun h => absurd h (Nat.lt_irrefl 0), fun _ => ?_,
    fun h => absurd h (Nat.lt_irrefl 0)⟩, ?_, ?_, ?_, Or.inl ?_⟩, Nat.zero_le _, Or.inl ?_⟩
  · exact resumeCluster_firstSector hde hdata rfl
  · rw [Nat.zero_mul]
    exact Nat.two_pow_pos 32
  · exact Nat.zero_le _
  · exact Nat.zero_le _
  · exact (Nat.zero_mul _).symm
  · exact (Nat.zero_mul _).symm

variable {start l : Nat} {size : UInt32} {found : Found}

/-! ## The premature end -/

/-- The size that is left when a file was cut. -/
theorem CutAt.toNat_size {inode : Inode FatNode} (h : CutAt fs start size l inode) :
    inode.pvt.size.toNat = l * 2 ^ fs.sbi.clustShift := by
  rw [h.size_eq, UInt32.toNat_ofNat']
  exact Nat.mod_eq_of_lt h.sectors_lt

theorem CutAt.size_ne {inode : Inode FatNode} (h : CutAt fs start size l inode) :
    inode.pvt.size ≠ size := by
  intro heq
  have hsize := h.toNat_size
  have hle := @mul_clustShift_le fs l
  have hlt := h.lt
  rw [heq] at hsize
  omega

/-- What holds of a file as long as its size has not been cut. -/
theorem Uncut.readFrom (hopen : ReadFrom fs start size (openFile found)) {file : FatFile}
    (h : Uncut fs hshift fuel found file) : ReadFrom fs start size file := by
  induction h with
  | opened => exact hopen
  | read _ hread hsize ih =>
    obtain hrest | ⟨l, hcut, -⟩ := ih.read hread
    · exact hrest
    · exact absurd (hsize.trans ih.size_eq) hcut.size_ne

/-- The read that cuts the size has come to the end of the chain. -/
theorem ReadFrom.cut {file : FatFile} {n : Nat} {got : Got FatNode}
    (h : ReadFrom fs start size file) (hread : fatGetfssec fs hshift fuel file n = some got)
    (hfound : (gotFile got).size ≠ file.size) :
    ∃ l, CutAt fs start size l got.inode ∧ got.offset = l * 2 ^ fs.sbi.clustByteShift := by
  obtain hrest | hcut := h.read hread
  · exact absurd (hrest.size_eq.trans h.size_eq.symm) hfound
  · exact hcut

/-- Of an empty file every read returns nothing, and does not store `have_more`. -/
theorem fatGetfssec_empty {file : FatFile} (hsize : file.size = 0) (hoffset : file.offset = 0)
    (n : Nat) : fatGetfssec fs hshift fuel file n =
      some ⟨[], { file.inode with size := file.size }, file.offset, none⟩ := by
  refine genericGetfssec_none ?_
  have hss := (fatInfo fs hshift).sectorSize_pos
  have hlt := (fatInfo fs hshift).sectorSize_lt
  have hleft : u32 ((0 : UInt32).toNat + 2 ^ 32 - 0) = 0 := rfl
  have hround : u32 (0 + (fatInfo fs hshift).sectorSize - 1) =
      (fatInfo fs hshift).sectorSize - 1 := by
    rw [Nat.zero_add]
    exact u32_of_lt (by omega)
  rw [sectorsLeft, hsize, hoffset, hleft, hround, Nat.div_eq_of_lt (Nat.sub_lt hss Nat.one_pos),
    Nat.min_zero]

/-- An empty file stays empty. -/
theorem Reads.empty {file file' : FatFile} (hsize : file.size = 0) (hoffset : file.offset = 0)
    (h : Reads fs hshift fuel file file') : file'.size = 0 ∧ file'.offset = 0 := by
  induction h with
  | refl => exact ⟨hsize, hoffset⟩
  | read _ hread ih =>
    rw [fatGetfssec_empty ih.1 ih.2] at hread
    obtain rfl := Option.some.inj hread
    exact ih

/-- Where a read that starts behind the end of the file tells that there is no more, it starts less
than a sector behind it. -/
theorem fatGetfssec_behind {file : FatFile} {got : Got FatNode}
    (hread : fatGetfssec fs hshift fuel file 1 = some got) (hdata : got.data = [])
    {garbage : Bool} (hmore : got.haveMore.getD garbage = false)
    (hbehind : file.size.toNat < file.offset) (hoffset : file.offset < 2 ^ 32) :
    file.offset < file.size.toNat + fs.sectorSize := by
  have hss := fs.sectorSize_pos
  by_contra hfar
  have hleft : u32 (file.size.toNat + 2 ^ 32 - file.offset) =
      file.size.toNat + 2 ^ 32 - file.offset := u32_of_lt (by omega)
  have hsectors : sectorsLeft (fatInfo fs hshift) { file.inode with size := file.size }
      file.offset ≠ 0 := by
    have hone : 1 ≤ (file.size.toNat + 2 ^ 32 - file.offset + fs.sectorSize - 1) /
        fs.sectorSize := (Nat.one_le_div_iff hss).mpr (by omega)
    have hround : u32 (file.size.toNat + 2 ^ 32 - file.offset + fs.sectorSize - 1) =
        file.size.toNat + 2 ^ 32 - file.offset + fs.sectorSize - 1 := u32_of_lt (by omega)
    rw [sectorsLeft, hleft, show (fatInfo fs hshift).sectorSize = fs.sectorSize from rfl, hround]
    omega
  have htrue := haveMore_of_empty hread
    (fun hzero => hsectors ((Nat.min_eq_zero_iff.mp hzero).resolve_left Nat.one_ne_zero)) hdata
  rw [htrue] at hmore
  cases hmore

/-- When a file is found to end too early, what is promised holds if and only if it has no cluster
at all, and the variable that is not stored happens to be false. -/
theorem fat_truncated_iff (fs : FatFs) (hshift : fs.sectorShift < 31) (bpb : FatBpb)
    (hmount : vfatFsInit fs.sectorShift bpb = some fs.sbi) (de : Slot)
    (hde : de.startCluster ≠ 0) (rootCluster : UInt32) (m : Nat)
    (hends : EndsAfter fs de.startCluster.toNat m) (fuel : Nat) (garbage : Bool) (file : FatFile)
    (hfile : Uncut fs hshift fuel (foundInode fs.sectorShift fs.sbi rootCluster de) file)
    (n : Nat) (got : Got FatNode) (hread : fatGetfssec fs hshift fuel file n = some got)
    (hfound : (gotFile got).size ≠ file.size) :
    Truncates fs hshift fuel m garbage (gotFile got) ↔ m = 0 ∧ garbage = false := by
  have hopen := @ReadFrom.opened fs de bpb rootCluster hmount hshift hde
  obtain ⟨l, hcut, hoffset⟩ := (hfile.readFrom hopen).cut hread hfound
  have hsize : (gotFile got).size.toNat = l * 2 ^ fs.sbi.clustShift := hcut.toNat_size
  have hcpos : 0 < 2 ^ fs.sbi.clustShift := Nat.two_pow_pos _
  have hempty : l = 0 → (gotFile got).size = 0 ∧ (gotFile got).offset = 0 := by
    rintro rfl
    rw [Nat.zero_mul] at hsize hoffset
    exact ⟨UInt32.toNat_inj.mp hsize, hoffset⟩
  constructor
  · intro htrunc
    obtain ⟨next, hnext, hdata, hmore⟩ := htrunc.later _ Reads.refl 1
    have hzero : l = 0 := by
      by_contra hne
      -- the file was read up to cluster `l`, and is cut to fewer clusters
      have heq := hsize.symm.trans htrunc.size_eq
      have hsector : fs.sectorSize ≤ 2 ^ fs.sbi.clustByteShift := by
        rw [fs.valid.byteShift_eq]
        exact Nat.pow_le_pow_right Nat.two_pos (Nat.le_add_left _ _)
      have hshrinks : l * 2 ^ fs.sbi.clustShift < l * 2 ^ fs.sbi.clustByteShift := by
        refine Nat.mul_lt_mul_of_pos_left ?_ (Nat.pos_of_ne_zero hne)
        refine Nat.pow_lt_pow_right (by decide) ?_
        have hge := fs.shift_ge
        rw [fs.valid.byteShift_eq]
        omega
      have hfewer : m < l := by
        rw [heq] at hshrinks
        exact Nat.lt_of_mul_lt_mul_right hshrinks
      have hmul := Nat.mul_le_mul_right (2 ^ fs.sbi.clustByteShift) (Nat.succ_le_of_lt hfewer)
      rw [Nat.succ_mul] at hmul
      have hlt := hcut.lt
      have hs := de.fileSize.toNat_lt
      have hoffset' : (gotFile got).offset = l * 2 ^ fs.sbi.clustByteShift := hoffset
      have hclose := fatGetfssec_behind hnext hdata hmore (by omega) (by omega)
      omega
    obtain ⟨hsizeZero, hoffsetZero⟩ := hempty hzero
    refine ⟨?_, ?_⟩
    · have heq := htrunc.size_eq
      rw [hsizeZero] at heq
      exact (Nat.mul_eq_zero.mp heq.symm).resolve_right (Nat.two_pow_pos _).ne'
    · rw [fatGetfssec_empty hsizeZero hoffsetZero] at hnext
      obtain rfl := Option.some.inj hnext
      exact hmore
  · rintro ⟨rfl, rfl⟩
    have hzero : l = 0 := by
      by_contra hne
      have hon := hcut.on_volume (Nat.pos_of_ne_zero hne)
      refine hends.2 ?_
      have hs := de.startCluster.toNat_lt
      have hmax := fs.valid.clusters_le
      change 2 ≤ de.startCluster.toNat ∧ de.startCluster.toNat < fs.sbi.clusters + 2
      rw [offVolume, decide_eq_false_iff_not, u32] at hon
      omega
    obtain ⟨hsizeZero, hoffsetZero⟩ := hempty hzero
    refine ⟨?_, fun file' hreads k => ?_⟩
    · rw [hsizeZero, Nat.zero_mul]
      rfl
    · obtain ⟨hsize', hoffset'⟩ := hreads.empty hsizeZero hoffsetZero
      exact ⟨_, fatGetfssec_empty hsize' hoffset' k, rfl, rfl⟩

/-! ## Examples -/

/-- The boot sector of a volume of seven clusters of one sector. -/
def truncatedBpb : FatBpb := ⟨1, 1, 1, 16, 10, 1, 0, 0, 0, 0⟩

/-- A volume on which the chain of cluster 2 ends at once. -/
def truncatedFat : FatFs where
  sectorShift := 9
  sbi := ⟨1, 2, 3, 7, 1, 0, 9, .fat12⟩
  disk p :=
    if p = 1 then [0xf8, 0xff, 0xff, 0xff, 0x0f, 0] ++ List.replicate 506 0
    else List.replicate 512 0
  shift_ge := usualShift_ge
  valid := smallSbi_valid
  disk_length p := by
    split
    · rw [List.length_append, List.length_replicate]
      decide
    · exact List.length_replicate.trans (by decide)

/-- The directory entry of a file of two clusters. -/
def truncatedSlot (cluster : UInt8) : Slot := fun k =>
  if k = 26 then cluster else if k = 29 then 4 else 0

/-- A file that has no cluster on the volume. -/
theorem fat_truncated_iff_none : ∃ got,
    fatGetfssec truncatedFat (by decide) 5
        (openFile (foundInode 9 truncatedFat.sbi 0 (truncatedSlot 100))) 1 = some got ∧
      Truncates truncatedFat (by decide) 5 0 false (gotFile got) := by
  have hsize : (fatGetfssec truncatedFat (by decide) 5
      (openFile (foundInode 9 truncatedFat.sbi 0 (truncatedSlot 100))) 1).map
        (fun got => (gotFile got).size) = some 0 := by decide +kernel
  obtain ⟨got, hread, hgot⟩ := Option.map_eq_some_iff.mp hsize
  refine ⟨got, hread, (fat_truncated_iff truncatedFat (by decide) truncatedBpb (by decide)
    (truncatedSlot 100) (by decide) 0 0 ⟨fun k hk => absurd hk (Nat.not_lt_zero k), by decide⟩ 5
    false _ Uncut.opened 1 got hread ?_).mpr ⟨rfl, rfl⟩⟩
  rw [hgot]
  decide

/-- A file of two clusters whose chain ends behind the first one is cut to one byte. -/
theorem fat_truncated_short : ¬∀ (fs : FatFs) (hshift : fs.sectorShift < 31) (bpb : FatBpb)
    (de : Slot) (m fuel : Nat) (file : FatFile) (n : Nat) (got : Got FatNode),
      vfatFsInit fs.sectorShift bpb = some fs.sbi → EndsAfter fs de.startCluster.toNat m →
      m < clustersOf fs de.fileSize →
      Uncut fs hshift fuel (foundInode fs.sectorShift fs.sbi 0 de) file →
      fatGetfssec fs hshift fuel file n = some got → (gotFile got).size ≠ file.size →
        Truncates fs hshift fuel m false (gotFile got) := by
  intro h
  have hsize : (fatGetfssec truncatedFat (by decide) 5
      (openFile (foundInode 9 truncatedFat.sbi 0 (truncatedSlot 2))) 2).map
        (fun got => (gotFile got).size) = some 1 := by decide +kernel
  obtain ⟨got, hread, hgot⟩ := Option.map_eq_some_iff.mp hsize
  have htrunc := h truncatedFat (by decide) truncatedBpb (truncatedSlot 2) 1 5 _ 2 got
    (by decide) (by unfold EndsAfter; decide +kernel) (by decide) Uncut.opened hread
    (by rw [hgot]; decide)
  have hone := htrunc.size_eq
  rw [hgot] at hone
  exact absurd hone (by decide)

end Liigboot.Fs.Fat
