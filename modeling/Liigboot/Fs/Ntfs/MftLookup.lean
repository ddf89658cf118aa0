import Liigboot.Fs.Ntfs.Record

/-!
# Looking up an MFT record

Both lookups split the place of a record into a block and an offset in it, read a record there,
and go on behind it as long as it is not one that they accept: any record for NTFS 3.0, one with
the right number for NTFS 3.1. The offset is the one of the record in the MFT, whatever the place
of the MFT in its block.
-/

namespace Liigboot.Fs.Ntfs

/-! ## The source -/

/-- The variables of the loop of a lookup. -/
structure Probe where
  curBlk : Nat
  offset : Nat
  lcn : Nat
  deriving DecidableEq, Repr

/-- The difference of two block numbers. -/
def subBlk (a b : Nat) : Nat := u64 (a + 2 ^ 64 - b)

/-- The variables in front of the loop. -/
def FsInfo.probe (fs : FsInfo) (file : Nat) : Probe :=
  let lcn := u64 (fs.mftLcn + u32 (file <<< fs.mftRecordShift) >>> fs.clustByteShift)
  { curBlk := subBlk (u64 (lcn <<< fs.clustByteShift) >>> fs.blockShift) fs.mftBlk
    offset := u32 (file <<< fs.mftRecordShift) % fs.blockSize
    lcn }

/-- An iteration of a lookup: the record it returns, with the block it starts in. -/
def lookupStep (fs : FsInfo) (disk : Disk) (accept : List UInt8 → Bool) (s : Probe) :
    Step Probe (Option (List UInt8 × Nat)) :=
  let rightBlk := u64 (s.curBlk + fs.mftBlk)
  match ntfsRead fs disk fs.mftRecordSize fs.mftRecordSize rightBlk s.offset s.lcn with
  | none => .hang
  | some none => .stop none
  | some (some r) =>
    match fixupsWriteback fs.sectorSize r.buf with
    | none => .hang
    | some mrec =>
      if accept mrec then .stop (some (mrec, s.curBlk))
      else if r.blkNextOffset ≥ fs.blockSize then
        .next ⟨u64 (subBlk r.blk fs.mftBlk + 1), 0, r.lcn⟩
      else .next ⟨subBlk r.blk fs.mftBlk, r.blkNextOffset, r.lcn⟩

/-- `mft_record_no`. -/
def mftRecordNo (mrec : List UInt8) : Nat := readLe mrec 44 4

/-- `ntfs_mft_record_lookup_3_0`, for a number of iterations. -/
def ntfsMftRecordLookup30 (fs : FsInfo) (disk : Disk) (file iterations : Nat) :
    Option (Option (List UInt8 × Nat)) :=
  runLoop (lookupStep fs disk fun mrec => magic mrec = magicFile) iterations (fs.probe file)

/-- `ntfs_mft_record_lookup_3_1`, for a number of iterations. -/
def ntfsMftRecordLookup31 (fs : FsInfo) (disk : Disk) (file iterations : Nat) :
    Option (Option (List UInt8 × Nat)) :=
  runLoop (lookupStep fs disk fun mrec => magic mrec = magicFile ∧ mftRecordNo mrec = file)
    iterations (fs.probe file)

/-! ## The MFT -/

/-- The sizes of a volume: a cluster is some sectors, and a record fits a block. -/
structure FsInfo.WellFormed (fs : FsInfo) : Prop where
  sector : 9 ≤ fs.sectorShift
  record : 9 ≤ fs.mftRecordShift
  record_le : fs.mftRecordShift ≤ fs.blockShift
  block : fs.blockShift < 31

/-- The place of a record. -/
def FsInfo.recordPos (fs : FsInfo) (m : Nat) : Nat :=
  fs.mftLcn * fs.clustSize + m * fs.mftRecordSize

/-- The bytes of a record on the disk. -/
def FsInfo.record (fs : FsInfo) (disk : Disk) (m : Nat) : List UInt8 :=
  bytesAt disk (fs.recordPos m) fs.mftRecordSize

/-- The clusters at `mftLcn` hold an MFT of `n` records. -/
structure IsMft (fs : FsInfo) (disk : Disk) (n : Nat) : Prop where
  magic : ∀ m < n, magic (fs.record disk m) = magicFile
  fixups : ∀ m < n, ValidFixups fs.sectorSize (fs.record disk m)
  number : ∀ m < n, mftRecordNo (fs.record disk m) = m

/-- The lookups look for a record where it is: its place in the MFT fits 32 bits, it is where a
block starts when the MFT does not, and it is in the first block of its cluster. -/
structure FsInfo.Aligned (fs : FsInfo) (file : Nat) : Prop where
  fits : file * fs.mftRecordSize < 2 ^ 32
  start : fs.blockSize ∣ file * fs.mftRecordSize ∨ fs.blockSize ∣ fs.mftLcn * fs.clustSize
  first : file * fs.mftRecordSize % fs.clustSize < fs.blockSize

/-- The place at which the lookups read first. -/
def FsInfo.probePos (fs : FsInfo) (file : Nat) : Nat :=
  (fs.mftLcn + u32 (file * fs.mftRecordSize) / fs.clustSize) * fs.clustSize / fs.blockSize *
      fs.blockSize +
    if u32 (file * fs.mftRecordSize) % fs.blockSize = 0 then
      (fs.mftLcn + u32 (file * fs.mftRecordSize) / fs.clustSize) * fs.clustSize % fs.blockSize
    else u32 (file * fs.mftRecordSize) % fs.blockSize

/-! ## Where the lookups look -/

variable {B C start place : Nat}

/-- A place at the start of a block is found when it is at the start of a cluster. -/
theorem cluster_eq_iff (hB : 0 < B) (hBC : B ∣ C ∨ C ∣ B) (hplace : place % B = 0) :
    place / C * C = place ↔ place % C < B := by
  have hsplit := Nat.div_add_mod place C
  rw [Nat.mul_comm] at hsplit
  have hzero : place % C < B ↔ place % C = 0 := by
    constructor
    · intro hlt
      rcases hBC with hBC | hBC
      · exact Nat.eq_zero_of_dvd_of_lt
          ((Nat.dvd_mod_iff hBC).mpr (Nat.dvd_of_mod_eq_zero hplace)) hlt
      · exact Nat.mod_eq_zero_of_dvd (Nat.dvd_trans hBC (Nat.dvd_of_mod_eq_zero hplace))
    · intro hz
      omega
  rw [hzero]
  omega

/-- A place inside a block is found when the MFT starts at a block, and the place is in the first
block of its cluster. -/
theorem block_eq_iff (hB : 0 < B) (hC : 0 < C) (hBC : B ∣ C ∨ C ∣ B) (hstart : C ∣ start) :
    (start + place / C * C) / B * B + place % B = start + place ↔
      B ∣ start ∧ place % C < B := by
  have hsplit := Nat.div_add_mod place C
  rw [Nat.mul_comm] at hsplit
  have hsplitB := Nat.div_add_mod place B
  rw [Nat.mul_comm] at hsplitB
  rcases hBC with hBC | hBC
  · have hdvd : B ∣ start + place / C * C :=
      Nat.dvd_add (Nat.dvd_trans hBC hstart) (Nat.dvd_trans hBC (Nat.dvd_mul_left _ _))
    rw [Nat.div_mul_cancel hdvd, and_iff_right (Nat.dvd_trans hBC hstart),
      ← Nat.mod_mod_of_dvd place hBC]
    constructor
    · intro heq
      have hmod := Nat.mod_lt (place % C) hB
      omega
    · intro hlt
      rw [Nat.mod_eq_of_lt hlt]
      omega
  · have hlt : place % C < B := (Nat.mod_lt _ hC).trans_le (Nat.le_of_dvd hB hBC)
    rw [and_iff_left hlt]
    constructor
    · intro heq
      have hmod : (start + place) % B = place % B := by
        rw [← heq, Nat.add_comm, Nat.add_mul_mod_self_right, Nat.mod_mod]
      have hsub := Nat.sub_mod_eq_zero_of_mod_eq hmod
      rw [Nat.add_sub_cancel] at hsub
      exact Nat.dvd_of_mod_eq_zero hsub
    · intro hdvd
      have hdiv : (start + place / C * C) / B = start / B + place / B := by
        obtain ⟨k, rfl⟩ := hdvd
        obtain ⟨m, rfl⟩ := hBC
        have hm : 0 < m := Nat.pos_of_mul_pos_left hB
        rw [Nat.mul_add_div hB, Nat.mul_div_cancel_left _ hB, Nat.mul_comm (place / C),
          Nat.mul_div_mul_left _ _ hC, Nat.div_div_eq_div_mul]
      rw [hdiv, Nat.add_mul, Nat.div_mul_cancel hdvd]
      omega

variable {fs : FsInfo} {disk : Disk} {file n : Nat}

/-- Sizes are powers of two, so that one is a multiple of the other. -/
theorem blockSize_dvd_or (fs : FsInfo) :
    fs.blockSize ∣ fs.clustSize ∨ fs.clustSize ∣ fs.blockSize := by
  rcases Nat.le_total fs.blockShift fs.clustByteShift with h | h
  · exact Or.inl (Nat.pow_dvd_pow 2 h)
  · exact Or.inr (Nat.pow_dvd_pow 2 h)

theorem clustSize_pos (fs : FsInfo) : 0 < fs.clustSize := Nat.two_pow_pos _

theorem mftRecordSize_pos (fs : FsInfo) : 0 < fs.mftRecordSize := Nat.two_pow_pos _

/-- The first place is the one of the record exactly when the record is aligned. -/
theorem probePos_eq_iff (fs : FsInfo) (file : Nat) :
    fs.probePos file = fs.recordPos file ↔ fs.Aligned file := by
  have hB := blockSize_pos fs
  have hC := clustSize_pos fs
  have hdvd := blockSize_dvd_or fs
  have haligned : fs.Aligned file ↔ file * fs.mftRecordSize < 2 ^ 32 ∧
      (fs.blockSize ∣ file * fs.mftRecordSize ∨ fs.blockSize ∣ fs.mftLcn * fs.clustSize) ∧
      file * fs.mftRecordSize % fs.clustSize < fs.blockSize :=
    ⟨fun h => ⟨h.fits, h.start, h.first⟩, fun h => ⟨h.1, h.2.1, h.2.2⟩⟩
  rw [haligned, FsInfo.probePos, FsInfo.recordPos, u32, Nat.add_mul]
  generalize file * fs.mftRecordSize = place at *
  have hstart : fs.clustSize ∣ fs.mftLcn * fs.clustSize := Nat.dvd_mul_left _ _
  generalize fs.mftLcn * fs.clustSize = start at *
  generalize fs.clustSize = C at *
  generalize fs.blockSize = B at *
  have hle : place % 2 ^ 32 / C * C ≤ place % 2 ^ 32 := Nat.div_mul_le_self _ _
  have hmodB := Nat.mod_le (place % 2 ^ 32) B
  have hdivB := Nat.div_mul_le_self (start + place % 2 ^ 32 / C * C) B
  by_cases hfits : place < 2 ^ 32
  · rw [and_iff_right hfits, Nat.mod_eq_of_lt hfits]
    by_cases hzero : place % B = 0
    · rw [if_pos hzero, and_iff_right (Or.inl (Nat.dvd_of_mod_eq_zero hzero)),
        Nat.mul_comm _ B, Nat.div_add_mod, ← cluster_eq_iff hB hdvd hzero]
      omega
    · have hnot : ¬ B ∣ place := fun h => hzero (Nat.mod_eq_zero_of_dvd h)
      rw [if_neg hzero, or_iff_right hnot, block_eq_iff hB hC hdvd hstart]
  · -- The place has lost at least `2 ^ 32`, and the offset gives back less.
    have hmod := Nat.mod_add_div place (2 ^ 32)
    have hlost : 1 ≤ place / 2 ^ 32 := Nat.div_pos (Nat.le_of_not_lt hfits) (Nat.two_pow_pos _)
    have hlt : place % 2 ^ 32 < 2 ^ 32 := Nat.mod_lt _ (Nat.two_pow_pos _)
    constructor
    · intro heq
      exfalso
      split at heq
      · rw [Nat.mul_comm _ B, Nat.div_add_mod] at heq
        omega
      · omega
    · exact fun h => absurd h.1 hfits

/-- What is taken away from a 64-bit number and added again. -/
theorem u64_subBlk_add {a b : Nat} (ha : a < 2 ^ 64) (hb : b ≤ 2 ^ 64) :
    u64 (subBlk a b + b) = a := by
  rw [subBlk, u64, u64]
  omega

/-- The first block of the MFT. -/
theorem mftBlk_eq (h : fs.mftLcn * fs.clustSize < 2 ^ 64) :
    fs.mftBlk = fs.mftLcn * fs.clustSize / fs.blockSize := by
  rw [FsInfo.clustSize, FsInfo.clustByteShift, Nat.pow_add, ← Nat.mul_assoc] at h ⊢
  have hle := Nat.le_mul_of_pos_right (fs.mftLcn * 2 ^ fs.clustShift)
    (Nat.two_pow_pos fs.sectorShift)
  have hinner : u64 (fs.mftLcn * 2 ^ fs.clustShift) = fs.mftLcn * 2 ^ fs.clustShift :=
    Nat.mod_eq_of_lt (hle.trans_lt h)
  rw [FsInfo.mftBlk, Nat.shiftLeft_eq, Nat.shiftLeft_eq, Nat.shiftRight_eq_div_pow, hinner, u64,
    Nat.mod_eq_of_lt h, FsInfo.blockSize]

/-- The first iteration reads a record at the first place. -/
theorem ntfsRead_probe (hfs : fs.WellFormed) (hcache : fs.blockShift < 16)
    (hpos : fs.recordPos file < 2 ^ 64) (disk : Disk) :
    ∃ r, ntfsRead fs disk fs.mftRecordSize fs.mftRecordSize
        (u64 ((fs.probe file).curBlk + fs.mftBlk)) (fs.probe file).offset (fs.probe file).lcn =
          some (some r) ∧
      r.buf = bytesAt disk (fs.probePos file) fs.mftRecordSize := by
  have hrecord : fs.mftRecordSize ≤ fs.blockSize := Nat.pow_le_pow_right (by decide) hfs.record_le
  have hB : 2 ^ 9 ≤ fs.blockSize :=
    Nat.pow_le_pow_right (by decide) (hfs.record.trans hfs.record_le)
  rw [FsInfo.recordPos] at hpos
  have hmod : u32 (file * fs.mftRecordSize) ≤ file * fs.mftRecordSize := Nat.mod_le _ _
  have hle := Nat.div_mul_le_self (u32 (file * fs.mftRecordSize)) fs.clustSize
  obtain ⟨lcn, hlcn⟩ : ∃ lcn, fs.mftLcn + u32 (file * fs.mftRecordSize) / fs.clustSize = lcn :=
    ⟨_, rfl⟩
  have hfit : lcn * fs.clustSize < 2 ^ 64 := by
    rw [← hlcn, Nat.add_mul]
    omega
  have hprobe : (fs.probe file).lcn = lcn := by
    rw [FsInfo.probe]
    dsimp only
    rw [Nat.shiftLeft_eq, Nat.shiftRight_eq_div_pow, ← hlcn]
    refine Nat.mod_eq_of_lt (Nat.lt_of_le_of_lt ?_ hfit)
    rw [← hlcn]
    exact Nat.le_mul_of_pos_right _ (clustSize_pos fs)
  have hshift : u64 (lcn <<< fs.clustByteShift) = lcn * fs.clustSize := by
    rw [Nat.shiftLeft_eq]
    exact Nat.mod_eq_of_lt hfit
  have hdiv := Nat.div_le_div (Nat.le_of_lt hfit) hB (by decide)
  have hmft : fs.mftBlk ≤ 2 ^ 64 := by
    rw [mftBlk_eq (by omega)]
    exact (Nat.div_le_self _ _).trans (by omega)
  have hcur : u64 ((fs.probe file).curBlk + fs.mftBlk) = lcn * fs.clustSize / fs.blockSize := by
    have hcurBlk : (fs.probe file).curBlk =
        subBlk (u64 ((fs.probe file).lcn <<< fs.clustByteShift) >>> fs.blockShift) fs.mftBlk := rfl
    rw [hcurBlk, hprobe, hshift, Nat.shiftRight_eq_div_pow]
    exact u64_subBlk_add ((Nat.div_le_self _ _).trans_lt hfit) hmft
  have hoffset : (fs.probe file).offset = u32 (file * fs.mftRecordSize) % fs.blockSize := by
    rw [FsInfo.probe]
    dsimp only
    rw [Nat.shiftLeft_eq, FsInfo.mftRecordSize]
  obtain ⟨r, hread, hbuf⟩ := ntfsRead_buf disk hcache hrecord
    (Nat.mod_lt (u32 (file * fs.mftRecordSize)) (blockSize_pos fs))
    (Nat.lt_of_le_of_lt (Nat.add_le_add_right hdiv 1) (by decide)) lcn
  rw [hcur, hoffset, hprobe]
  refine ⟨r, hread, ?_⟩
  rw [hbuf, FsInfo.probePos, FsInfo.readOffset, hlcn, hshift]

/-- A lookup that accepts the record at the first place returns it. -/
theorem runLoop_lookupStep {accept : List UInt8 → Bool} (hfs : fs.WellFormed)
    (hcache : fs.blockShift < 16) (hpos : fs.recordPos file < 2 ^ 64)
    (hmagic : magic (bytesAt disk (fs.probePos file) fs.mftRecordSize) = magicFile)
    (hfixups : ValidFixups fs.sectorSize (bytesAt disk (fs.probePos file) fs.mftRecordSize))
    (haccept : accept (applyFixups fs.sectorSize
      (bytesAt disk (fs.probePos file) fs.mftRecordSize)) = true) (n : Nat) :
    runLoop (lookupStep fs disk accept) (n + 1) (fs.probe file) =
      some (some (applyFixups fs.sectorSize (bytesAt disk (fs.probePos file) fs.mftRecordSize),
        (fs.probe file).curBlk)) := by
  obtain ⟨r, hread, hbuf⟩ := ntfsRead_probe hfs hcache hpos disk
  rw [runLoop, lookupStep, hread]
  dsimp only
  rw [hbuf, fixupsWriteback_eq (Or.inl hmagic) hfixups]
  dsimp only
  rw [if_pos haccept]

/-- A lookup with larger blocks than the cache has does not return. -/
theorem runLoop_lookupStep_large {accept : List UInt8 → Bool} (hlarge : 16 ≤ fs.blockShift)
    (s : Probe) : ∀ n, runLoop (lookupStep fs disk accept) n s = none := by
  intro n
  cases n with
  | zero => rfl
  | succ n =>
    rw [runLoop, lookupStep, ntfsRead_large hlarge (mftRecordSize_pos fs)]

/-- The front of a sector is longer than the header of a record. -/
theorem header_applyFixups (hfs : fs.WellFormed) (nrec : List UInt8) :
    magic (applyFixups fs.sectorSize nrec) = magic nrec ∧
      mftRecordNo (applyFixups fs.sectorSize nrec) = mftRecordNo nrec := by
  have hsector : 2 ^ 9 ≤ fs.sectorSize := Nat.pow_le_pow_right (by decide) hfs.sector
  exact ⟨readLe_applyFixups (by omega), readLe_applyFixups (by omega)⟩

/-! ## A disk of records -/

/-- A unit of the disk that looks like a record, without fixups. -/
def unitBytes (number : Nat) : List UInt8 :=
  [0x46, 0x49, 0x4c, 0x45, 48, 0, 1, 0] ++ List.replicate 36 0 ++ leBytes number 4

/-- The number of the record that starts at a place, or a wrong one when none does. -/
def FsInfo.numberAt (fs : FsInfo) (n file pos : Nat) : Nat :=
  let m := (pos - fs.mftLcn * fs.clustSize) / fs.mftRecordSize
  if pos = fs.recordPos m ∧ m < n then m else (file + 1) % 2 ^ 32

/-- A disk on which each unit looks like a record, and those of the MFT have their numbers. -/
def FsInfo.unitDisk (fs : FsInfo) (n file : Nat) : Disk := fun pos =>
  let unit := min fs.mftRecordSize fs.clustSize
  (unitBytes (fs.numberAt n file (pos / unit * unit))).getD (pos % unit) 0

/-- The bytes of a unit start with the magic of a record. -/
@[simp] theorem magic_unitBytes (number : Nat) : magic (unitBytes number) = magicFile := by
  have hbytes : magic (unitBytes number) = leNat [0x46, 0x49, 0x4c, 0x45] := rfl
  rw [hbytes]
  decide

/-- The update sequence of a unit follows its header. -/
@[simp] theorem usaOfs_unitBytes (number : Nat) : usaOfs (unitBytes number) = 48 := rfl

/-- A unit has no fixups. -/
@[simp] theorem usaCount_unitBytes (number : Nat) : usaCount (unitBytes number) = 1 := rfl

/-- A unit says its own number. -/
theorem mftRecordNo_unitBytes {number : Nat} (h : number < 2 ^ 32) :
    mftRecordNo (unitBytes number) = number := by
  have hbytes : mftRecordNo (unitBytes number) = leNat (leBytes number 4) := rfl
  rw [hbytes, leNat_leBytes]
  exact Nat.mod_eq_of_lt h

/-- The header of a unit of the disk. -/
theorem readLe_unitDisk (hfs : fs.WellFormed) {pos : Nat}
    (hpos : min fs.mftRecordSize fs.clustSize ∣ pos) {off len : Nat} (h : off + len ≤ 48) :
    readLe (bytesAt (fs.unitDisk n file) pos fs.mftRecordSize) off len =
      readLe (unitBytes (fs.numberAt n file pos)) off len := by
  have hrecord : 2 ^ 9 ≤ fs.mftRecordSize := Nat.pow_le_pow_right (by decide) hfs.record
  have hclust : 2 ^ 9 ≤ fs.clustSize :=
    Nat.pow_le_pow_right (by decide) (hfs.sector.trans (Nat.le_add_left _ _))
  apply readLe_congr
  intro i hi
  obtain ⟨k, rfl⟩ := hpos
  rw [getElem?_bytesAt _ _ (by omega), FsInfo.unitDisk,
    Nat.mul_add_div (by omega), Nat.mul_add_mod, Nat.div_eq_of_lt (by omega),
    Nat.mod_eq_of_lt (by omega), Nat.add_zero, Nat.mul_comm k]
  have hlen : off + i < (unitBytes (fs.numberAt n file
      (min fs.mftRecordSize fs.clustSize * k))).length := by
    simp only [unitBytes, List.length_append, List.length_cons, List.length_nil,
      List.length_replicate, length_leBytes]
    omega
  rw [List.getElem?_eq_getElem hlen, List.getD_eq_getElem?_getD, List.getElem?_eq_getElem hlen,
    Option.getD_some]

/-- A unit of the disk is a record with valid fixups and the number of its place. -/
theorem unitDisk_record (hfs : fs.WellFormed) {pos : Nat}
    (hpos : min fs.mftRecordSize fs.clustSize ∣ pos)
    (hnumber : fs.numberAt n file pos < 2 ^ 32) :
    magic (bytesAt (fs.unitDisk n file) pos fs.mftRecordSize) = magicFile ∧
      ValidFixups fs.sectorSize (bytesAt (fs.unitDisk n file) pos fs.mftRecordSize) ∧
      mftRecordNo (bytesAt (fs.unitDisk n file) pos fs.mftRecordSize) =
        fs.numberAt n file pos := by
  have hrecord : 2 ^ 9 ≤ fs.mftRecordSize := Nat.pow_le_pow_right (by decide) hfs.record
  have hsector : 2 ^ 9 ≤ fs.sectorSize := Nat.pow_le_pow_right (by decide) hfs.sector
  have hcount : usaCount (bytesAt (fs.unitDisk n file) pos fs.mftRecordSize) = 1 :=
    (readLe_unitDisk hfs hpos (by decide)).trans (usaCount_unitBytes _)
  have hofs : usaOfs (bytesAt (fs.unitDisk n file) pos fs.mftRecordSize) = 48 :=
    (readLe_unitDisk hfs hpos (by decide)).trans (usaOfs_unitBytes _)
  refine ⟨(readLe_unitDisk hfs hpos (by decide)).trans (magic_unitBytes _), ?_,
    (readLe_unitDisk hfs hpos (by decide)).trans (mftRecordNo_unitBytes hnumber)⟩
  constructor
  · rw [hcount]
  · rw [hcount, hofs, length_bytesAt]
    omega
  · rw [hcount, hofs]
    omega
  · rw [hcount, Nat.sub_self, Nat.zero_mul]
    exact Nat.zero_le _
  · intro j hj
    rw [hcount] at hj
    exact absurd hj (Nat.not_lt_zero j)

/-- Records and clusters start at units. -/
theorem unit_dvd (fs : FsInfo) : min fs.mftRecordSize fs.clustSize ∣ fs.mftRecordSize ∧
    min fs.mftRecordSize fs.clustSize ∣ fs.clustSize := by
  rcases Nat.le_total fs.mftRecordShift fs.clustByteShift with h | h
  · have hle : fs.mftRecordSize ≤ fs.clustSize := Nat.pow_le_pow_right (by decide) h
    rw [Nat.min_eq_left hle]
    exact ⟨Nat.dvd_refl _, Nat.pow_dvd_pow 2 h⟩
  · have hle : fs.clustSize ≤ fs.mftRecordSize := Nat.pow_le_pow_right (by decide) h
    rw [Nat.min_eq_right hle]
    exact ⟨Nat.pow_dvd_pow 2 h, Nat.dvd_refl _⟩

/-- A record starts at a multiple of the unit. -/
theorem unit_dvd_recordPos (fs : FsInfo) (m : Nat) :
    min fs.mftRecordSize fs.clustSize ∣ fs.recordPos m :=
  Nat.dvd_add (Nat.dvd_trans (unit_dvd fs).2 (Nat.dvd_mul_left _ _))
    (Nat.dvd_trans (unit_dvd fs).1 (Nat.dvd_mul_left _ _))

/-- The lookups read first at a unit. -/
theorem unit_dvd_probePos (hfs : fs.WellFormed) (file : Nat) :
    min fs.mftRecordSize fs.clustSize ∣ fs.probePos file := by
  have hblock : fs.mftRecordSize ∣ fs.blockSize := Nat.pow_dvd_pow 2 hfs.record_le
  have hunit := unit_dvd fs
  rw [FsInfo.probePos]
  split
  · rw [Nat.mul_comm _ fs.blockSize, Nat.div_add_mod]
    exact Nat.dvd_trans hunit.2 (Nat.dvd_mul_left _ _)
  · have hwrap : fs.mftRecordSize ∣ 2 ^ 32 := Nat.pow_dvd_pow 2 (by
      have := hfs.record_le
      have := hfs.block
      omega)
    refine Nat.dvd_add (Nat.dvd_trans hunit.1 (Nat.dvd_trans hblock (Nat.dvd_mul_left _ _))) ?_
    refine Nat.dvd_trans hunit.1 ((Nat.dvd_mod_iff hblock).mpr ?_)
    exact (Nat.dvd_mod_iff hwrap).mpr (Nat.dvd_mul_left _ _)

/-- The number at the place of a record. -/
theorem numberAt_recordPos {m : Nat} (hm : m < n) :
    fs.numberAt n file (fs.recordPos m) = m := by
  have hdiv : (fs.recordPos m - fs.mftLcn * fs.clustSize) / fs.mftRecordSize = m := by
    rw [FsInfo.recordPos, Nat.add_sub_cancel_left, Nat.mul_div_cancel _ (mftRecordSize_pos fs)]
  rw [FsInfo.numberAt]
  rw [hdiv, if_pos ⟨rfl, hm⟩]

/-- The number at another place than that of the record looked up. -/
theorem numberAt_ne {pos : Nat} (hpos : pos ≠ fs.recordPos file) :
    fs.numberAt n file pos ≠ file := by
  rw [FsInfo.numberAt]
  split
  · rename_i h
    intro heq
    rw [heq] at h
    exact hpos h.1
  · omega

/-- The number of a unit fits into 32 bits. -/
theorem numberAt_lt (fs : FsInfo) (hn : n ≤ 2 ^ 32) (file pos : Nat) :
    fs.numberAt n file pos < 2 ^ 32 := by
  rw [FsInfo.numberAt]
  split
  · omega
  · exact Nat.mod_lt _ (Nat.two_pow_pos _)

/-- The disk of units is a master file table. -/
theorem unitDisk_isMft (hfs : fs.WellFormed) (hn : n ≤ 2 ^ 32) (file : Nat) :
    IsMft fs (fs.unitDisk n file) n := by
  have hrecord := fun m : Nat => unitDisk_record (n := n) hfs (unit_dvd_recordPos fs m)
    (numberAt_lt fs hn file (fs.recordPos m))
  exact ⟨fun m _ => (hrecord m).1, fun m _ => (hrecord m).2.1,
    fun m hm => (hrecord m).2.2.trans (numberAt_recordPos hm)⟩

/-! ## Both lookups -/

/-- Both lookups return the record of every MFT, with its fixups applied, exactly when the cache
has blocks of that size and the record is aligned. -/
theorem lookups_return_iff_aligned (hfs : fs.WellFormed) (hn : n ≤ 2 ^ 32) (hfile : file < n)
    (hend : fs.recordPos n ≤ 2 ^ 64) :
    (∀ disk, IsMft fs disk n → ∃ iterations blk,
      ntfsMftRecordLookup30 fs disk file iterations =
        some (some (applyFixups fs.sectorSize (fs.record disk file), blk)) ∧
      ntfsMftRecordLookup31 fs disk file iterations =
        some (some (applyFixups fs.sectorSize (fs.record disk file), blk))) ↔
      fs.blockShift < 16 ∧ fs.Aligned file := by
  have hpos : fs.recordPos file < 2 ^ 64 := by
    have hmul : file * fs.mftRecordSize < n * fs.mftRecordSize :=
      Nat.mul_lt_mul_of_pos_right hfile (mftRecordSize_pos fs)
    rw [FsInfo.recordPos] at *
    omega
  rw [← probePos_eq_iff]
  constructor
  · intro h
    obtain ⟨iterations, blk, h30, -⟩ := h _ (unitDisk_isMft hfs hn file)
    have hcache : fs.blockShift < 16 := by
      by_contra hlarge
      rw [ntfsMftRecordLookup30, runLoop_lookupStep_large (Nat.le_of_not_lt hlarge)] at h30
      cases h30
    refine ⟨hcache, ?_⟩
    by_contra hne
    have hunit := unitDisk_record (n := n) hfs (unit_dvd_probePos hfs file)
      (numberAt_lt fs hn file _)
    obtain ⟨hmagic, hfixups, hnumber⟩ := hunit
    cases iterations with
    | zero => cases h30
    | succ k =>
      rw [ntfsMftRecordLookup30, runLoop_lookupStep hfs hcache hpos hmagic hfixups (by
        rw [(header_applyFixups hfs _).1, hmagic]
        exact decide_eq_true rfl)] at h30
      -- The record that is returned has another number.
      have heq := congrArg (fun r => mftRecordNo r.1) (Option.some.inj (Option.some.inj h30))
      dsimp only at heq
      rw [(header_applyFixups hfs _).2, (header_applyFixups hfs _).2, hnumber,
        (unitDisk_isMft hfs hn file).number file hfile] at heq
      exact numberAt_ne hne heq
  · rintro ⟨hcache, heq⟩ disk hmft
    have hmagic := hmft.magic file hfile
    have hfixups := hmft.fixups file hfile
    have hnumber := hmft.number file hfile
    have hrecord : fs.record disk file = bytesAt disk (fs.probePos file) fs.mftRecordSize := by
      rw [FsInfo.record, heq]
    rw [hrecord] at hmagic hfixups hnumber ⊢
    obtain ⟨hmagic', hnumber'⟩ := header_applyFixups hfs
      (bytesAt disk (fs.probePos file) fs.mftRecordSize)
    refine ⟨1, (fs.probe file).curBlk, ?_, ?_⟩
    · exact runLoop_lookupStep hfs hcache hpos hmagic hfixups
        (decide_eq_true (hmagic'.trans hmagic)) 0
    · exact runLoop_lookupStep hfs hcache hpos hmagic hfixups
        (decide_eq_true ⟨hmagic'.trans hmagic, hnumber'.trans hnumber⟩) 0

/-- Clusters and index blocks of 4 KiB. -/
def largeFs : FsInfo := ⟨9, 12, 3, 10, 786432⟩

/-- A volume with large clusters, record 3. -/
theorem lookups_return_iff_aligned_volume :
    (∀ disk, IsMft largeFs disk 16 → ∃ iterations blk,
      ntfsMftRecordLookup30 largeFs disk 3 iterations =
        some (some (applyFixups largeFs.sectorSize (largeFs.record disk 3), blk)) ∧
      ntfsMftRecordLookup31 largeFs disk 3 iterations =
        some (some (applyFixups largeFs.sectorSize (largeFs.record disk 3), blk))) ∧
      largeFs.Aligned 3 := by
  have haligned : largeFs.blockShift < 16 ∧ largeFs.Aligned 3 :=
    ⟨by decide, by decide, by decide, by decide⟩
  exact ⟨(lookups_return_iff_aligned ⟨by decide, by decide, by decide, by decide⟩ (by decide)
    (by decide) (by decide)).mpr haligned, haligned.2⟩

/-- Clusters of 512 bytes, index blocks of 4 KiB, and an MFT that starts inside a block. -/
def insideFs : FsInfo := ⟨9, 12, 0, 10, 4⟩

/-- An MFT of two records, with fixups for both of their sectors. -/
def insideDisk : Disk := fun pos =>
  let m := (pos - 2048) / 1024
  let i := (pos - 2048) % 1024
  if pos < 2048 ∨ 4096 ≤ pos then 0
  else if i < 54 then
    ([0x46, 0x49, 0x4c, 0x45, 48, 0, 3, 0] ++ List.replicate 36 0 ++
      [UInt8.ofNat m, 0, 0, 0, 1, 0, 2, 0, 3, 0]).getD i 0
  else if i % 512 = 510 then 1 else 0

/-- The lookup of record 1 does not return it: the one for NTFS 3.0 finds record 0. -/
theorem record_inside_block_not_returned :
    IsMft insideFs insideDisk 2 ∧ ¬ ∃ iterations blk,
      ntfsMftRecordLookup30 insideFs insideDisk 1 iterations =
        some (some (applyFixups insideFs.sectorSize (insideFs.record insideDisk 1), blk)) ∧
      ntfsMftRecordLookup31 insideFs insideDisk 1 iterations =
        some (some (applyFixups insideFs.sectorSize (insideFs.record insideDisk 1), blk)) := by
  refine ⟨⟨by decide +kernel, ?_, by decide +kernel⟩, ?_⟩
  · intro m hm
    have hcases : m = 0 ∨ m = 1 := by omega
    rcases hcases with rfl | rfl
    · exact ⟨by decide +kernel, by decide +kernel, by decide +kernel, by decide +kernel,
        by decide +kernel⟩
    · exact ⟨by decide +kernel, by decide +kernel, by decide +kernel, by decide +kernel,
        by decide +kernel⟩
  · rintro ⟨iterations, blk, h30, -⟩
    have hfirst : (ntfsMftRecordLookup30 insideFs insideDisk 1 2).map
        (Option.map fun r => mftRecordNo r.1) = some (some 0) := by decide +kernel
    obtain ⟨found, hfound, hnumber⟩ := Option.map_eq_some_iff.mp hfirst
    have heq := runLoop_unique hfound h30
    simp only [heq, Option.map_some] at hnumber
    have hone : some (mftRecordNo (applyFixups insideFs.sectorSize (insideFs.record insideDisk 1)))
        ≠ some 0 := by
      decide +kernel
    exact hone hnumber

end Liigboot.Fs.Ntfs
