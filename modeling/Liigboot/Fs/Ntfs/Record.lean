import Liigboot.Fs.Extent
import Liigboot.Lib.Bytes
import Liigboot.Lib.Loop

/-!
# The records of an NTFS volume

`ntfs_read` copies a record out of the cached blocks, and `ntfs_fixups_writeback` puts back the
last word of each of its sectors. The words are kept in an array in the first sector; on the disk
the update sequence number stands in their place.
-/

namespace Liigboot.Fs.Ntfs

/-! ## The source -/

/-- What `ntfs_fs_init` keeps of the boot sector: the sizes, as shifts, and the first cluster of
the MFT. -/
structure FsInfo where
  sectorShift : Nat
  blockShift : Nat
  clustShift : Nat
  mftRecordShift : Nat
  mftLcn : Nat
  deriving DecidableEq, Repr

def FsInfo.clustByteShift (fs : FsInfo) : Nat := fs.clustShift + fs.sectorShift

def FsInfo.sectorSize (fs : FsInfo) : Nat := 2 ^ fs.sectorShift

def FsInfo.blockSize (fs : FsInfo) : Nat := 2 ^ fs.blockShift

def FsInfo.clustSize (fs : FsInfo) : Nat := 2 ^ fs.clustByteShift

def FsInfo.mftRecordSize (fs : FsInfo) : Nat := 2 ^ fs.mftRecordShift

/-- `mft_blk`. -/
def FsInfo.mftBlk (fs : FsInfo) : Nat :=
  u64 (u64 (fs.mftLcn <<< fs.clustShift) <<< fs.sectorShift) >>> fs.blockShift

def magicFile : Nat := 0x454C4946

def magicIndx : Nat := 0x58444E49

/-- The bytes of a disk. -/
abbrev Disk := Nat → UInt8

/-- Some bytes of a disk. -/
def bytesAt (disk : Disk) (pos len : Nat) : List UInt8 :=
  (List.range len).map fun i => disk (pos + i)

/-- `cache_block_size`, a 16-bit field. -/
def FsInfo.cacheBlockSize (fs : FsInfo) : Nat := 2 ^ fs.blockShift % 2 ^ 16

/-- Copy from the data of a cached block. There is nothing to copy behind its end. -/
def copyData (fs : FsInfo) (disk : Disk) (blk offset len : Nat) : Option (List UInt8) :=
  if offset + len ≤ fs.cacheBlockSize then some (bytesAt disk (blk * fs.blockSize + offset) len)
  else none

/-- The variables of the loop of `ntfs_read`. -/
structure Copy where
  buf : List UInt8
  bytes : Nat
  lbytes : Nat
  offset : Nat
  loffset : Nat
  blk : Nat

/-- An iteration of the loop of `ntfs_read`. -/
def copyStep (fs : FsInfo) (disk : Disk) (c : Copy) : Step Copy Copy :=
  if c.bytes = 0 then .stop c
  else
    match copyData fs disk c.blk c.offset c.lbytes with
    | none => .hang
    | some copied =>
      let buf := c.buf ++ copied
      let bytes := c.bytes - c.lbytes
      let loffset := c.offset
      let offset := c.offset + c.lbytes
      if offset ≥ fs.blockSize then .next ⟨buf, bytes, bytes, 0, offset, u64 (c.blk + 1)⟩
      else .next ⟨buf, bytes, c.lbytes, offset, loffset, c.blk⟩

/-- What `ntfs_read` stores. -/
structure Read where
  buf : List UInt8
  blk : Nat
  blkOffset : Nat
  blkNextOffset : Nat
  lcn : Nat
  deriving DecidableEq, Repr

/-- `ntfs_read`. There is no result when it does not return, and none inside when it fails. -/
def ntfsRead (fs : FsInfo) (disk : Disk) (len count blk blkOffset lcn : Nat) :
    Option (Option Read) :=
  if count > len then some none
  else
    let offset :=
      if blkOffset = 0 then u64 (lcn <<< fs.clustByteShift) % fs.blockSize else blkOffset
    let lbytes := fs.blockSize - offset
    let copied :=
      if lbytes ≥ count then
        (copyData fs disk blk offset count).map fun buf =>
          ⟨buf, count, lbytes, offset + count, offset, blk⟩
      -- Each iteration copies something.
      else runLoop (copyStep fs disk) (count + 1) ⟨[], count, lbytes, offset, 0, blk⟩
    copied.map fun c =>
      let loffset := if c.loffset ≥ fs.blockSize then 0 else c.loffset
      some ⟨c.buf, c.blk, loffset, c.offset, u64 (lcn + fs.blockSize / count)⟩

/-- The loop of `ntfs_fixups_writeback`: `count` more sectors, the first of which ends at
`blk + 2`. There is no result when it leaves the record. -/
def fixupsLoop (sectorSize usaNo : Nat) : Nat → Nat → Nat → List UInt8 → Option (List UInt8)
  | 0, _, _, nrec => some nrec
  | count + 1, usa, blk, nrec =>
    if blk + 2 > nrec.length then none
    else if readLe nrec blk 2 ≠ usaNo then some nrec
    else if usa + 2 > nrec.length then none
    else
      fixupsLoop sectorSize usaNo count (usa + 2) (blk + sectorSize)
        (blit nrec blk (slice nrec usa 2))

/-- `magic`. -/
def magic (nrec : List UInt8) : Nat := readLe nrec 0 4

def usaOfs (nrec : List UInt8) : Nat := readLe nrec 4 2

def usaCount (nrec : List UInt8) : Nat := readLe nrec 6 2

/-- `ntfs_fixups_writeback`. There is no result when it leaves the record. -/
def fixupsWriteback (sectorSize : Nat) (nrec : List UInt8) : Option (List UInt8) :=
  if magic nrec ≠ magicFile ∧ magic nrec ≠ magicIndx then some nrec
  else if usaOfs nrec + 2 > nrec.length then none
  else
    fixupsLoop sectorSize (readLe nrec (usaOfs nrec) 2) ((usaCount nrec + (2 ^ 16 - 1)) % 2 ^ 16)
      (usaOfs nrec + 2) (sectorSize - 2) nrec

/-! ## Reading -/

variable {fs : FsInfo} {disk : Disk}

@[simp] theorem length_bytesAt (disk : Disk) (pos len : Nat) :
    (bytesAt disk pos len).length = len := by
  simp only [bytesAt, List.length_map, List.length_range]

theorem getElem?_bytesAt (disk : Disk) (pos : Nat) {len i : Nat} (h : i < len) :
    (bytesAt disk pos len)[i]? = some (disk (pos + i)) := by
  rw [bytesAt, List.getElem?_map, List.getElem?_range h, Option.map_some]

theorem bytesAt_append (disk : Disk) (pos a b : Nat) :
    bytesAt disk pos a ++ bytesAt disk (pos + a) b = bytesAt disk pos (a + b) := by
  rw [bytesAt, bytesAt, bytesAt, List.range_add, List.map_append, List.map_map]
  simp only [Function.comp_def, Nat.add_assoc]

/-- The place in its block at which `ntfs_read` starts. -/
def FsInfo.readOffset (fs : FsInfo) (blkOffset lcn : Nat) : Nat :=
  if blkOffset = 0 then u64 (lcn <<< fs.clustByteShift) % fs.blockSize else blkOffset

theorem blockSize_pos (fs : FsInfo) : 0 < fs.blockSize := Nat.two_pow_pos _

theorem readOffset_lt {blkOffset : Nat} (h : blkOffset < fs.blockSize) (lcn : Nat) :
    fs.readOffset blkOffset lcn < fs.blockSize := by
  rw [FsInfo.readOffset]
  split
  · exact Nat.mod_lt _ (blockSize_pos fs)
  · exact h

/-- The cache has whole blocks up to 32 KiB. -/
theorem cacheBlockSize_eq (h : fs.blockShift < 16) : fs.cacheBlockSize = fs.blockSize :=
  Nat.mod_eq_of_lt (Nat.pow_lt_pow_right (by decide) h)

/-- The cache has no data of larger blocks. -/
theorem cacheBlockSize_eq_zero (h : 16 ≤ fs.blockShift) : fs.cacheBlockSize = 0 :=
  Nat.mod_eq_zero_of_dvd (Nat.pow_dvd_pow 2 h)

theorem copyData_eq {blk offset len : Nat} (hcache : fs.blockShift < 16)
    (h : offset + len ≤ fs.blockSize) :
    copyData fs disk blk offset len = some (bytesAt disk (blk * fs.blockSize + offset) len) := by
  rw [copyData, cacheBlockSize_eq hcache, if_pos h]

/-- The loop copies the rest of the first block, and then the front of the next one. -/
theorem runLoop_copyStep (disk : Disk) {count blk offset : Nat} (hcache : fs.blockShift < 16)
    (hoff : offset < fs.blockSize) (hsplit : fs.blockSize - offset < count)
    (hcount : count ≤ fs.blockSize) :
    ∃ c, runLoop (copyStep fs disk) (count + 1)
        ⟨[], count, fs.blockSize - offset, offset, 0, blk⟩ = some c ∧
      c.buf = bytesAt disk (blk * fs.blockSize + offset) (fs.blockSize - offset) ++
        bytesAt disk (u64 (blk + 1) * fs.blockSize) (count - (fs.blockSize - offset)) := by
  obtain ⟨k, rfl⟩ : ∃ k, count = k + 2 := ⟨count - 2, by omega⟩
  rw [runLoop, copyStep]
  dsimp only
  rw [if_neg (by omega), copyData_eq hcache (by omega)]
  dsimp only
  rw [if_pos (by omega)]
  dsimp only
  rw [runLoop, copyStep]
  dsimp only
  rw [if_neg (by omega), copyData_eq hcache (by omega)]
  dsimp only
  rw [if_neg (by omega)]
  dsimp only
  rw [runLoop, copyStep]
  dsimp only
  rw [if_pos (by omega)]
  exact ⟨_, rfl, rfl⟩

/-- A read of no more than a block is one out of the cached blocks. -/
theorem ntfsRead_cached (disk : Disk) {count blkOffset : Nat} (hcache : fs.blockShift < 16)
    (hcount : count ≤ fs.blockSize) (hoff : blkOffset < fs.blockSize) (blk lcn : Nat) :
    ∃ r, ntfsRead fs disk count count blk blkOffset lcn = some (some r) ∧
      r.buf =
        if count ≤ fs.blockSize - fs.readOffset blkOffset lcn then
          bytesAt disk (blk * fs.blockSize + fs.readOffset blkOffset lcn) count
        else
          bytesAt disk (blk * fs.blockSize + fs.readOffset blkOffset lcn)
              (fs.blockSize - fs.readOffset blkOffset lcn) ++
            bytesAt disk (u64 (blk + 1) * fs.blockSize)
              (count - (fs.blockSize - fs.readOffset blkOffset lcn)) := by
  have hlt := readOffset_lt hoff lcn
  rw [FsInfo.readOffset] at *
  rw [ntfsRead, if_neg (Nat.lt_irrefl _)]
  dsimp only
  generalize (if blkOffset = 0 then u64 (lcn <<< fs.clustByteShift) % fs.blockSize
    else blkOffset) = offset at *
  by_cases hfit : fs.blockSize - offset ≥ count
  · rw [if_pos hfit, if_pos hfit, copyData_eq hcache (by omega)]
    exact ⟨_, rfl, rfl⟩
  · rw [if_neg hfit, if_neg hfit]
    obtain ⟨c, hrun, hbuf⟩ := runLoop_copyStep disk hcache hlt (Nat.lt_of_not_le hfit) hcount
    rw [hrun]
    exact ⟨_, rfl, hbuf⟩

/-- Such a read copies the bytes at its place, also when they lie in two blocks. -/
theorem ntfsRead_buf (disk : Disk) {count blk blkOffset : Nat} (hcache : fs.blockShift < 16)
    (hcount : count ≤ fs.blockSize) (hoff : blkOffset < fs.blockSize) (hblk : blk + 1 < 2 ^ 64)
    (lcn : Nat) :
    ∃ r, ntfsRead fs disk count count blk blkOffset lcn = some (some r) ∧
      r.buf = bytesAt disk (blk * fs.blockSize + fs.readOffset blkOffset lcn) count := by
  have hlt := readOffset_lt hoff lcn
  obtain ⟨r, hread, hbuf⟩ := ntfsRead_cached disk hcache hcount hoff blk lcn
  refine ⟨r, hread, ?_⟩
  rw [hbuf]
  generalize fs.readOffset blkOffset lcn = offset at *
  split_ifs with hfit
  · rfl
  · have hnext : u64 (blk + 1) * fs.blockSize =
        blk * fs.blockSize + offset + (fs.blockSize - offset) := by
      rw [u64, Nat.mod_eq_of_lt hblk, Nat.add_one_mul]
      omega
    have hsum : fs.blockSize - offset + (count - (fs.blockSize - offset)) = count := by omega
    rw [hnext, bytesAt_append, hsum]

/-- A read from a larger block does not return. -/
theorem ntfsRead_large (hlarge : 16 ≤ fs.blockShift) {count : Nat} (hcount : 0 < count)
    (blk blkOffset lcn : Nat) : ntfsRead fs disk count count blk blkOffset lcn = none := by
  have hnone : ∀ {offset len : Nat}, 0 < offset + len → copyData fs disk blk offset len = none := by
    intro offset len hpos
    rw [copyData, cacheBlockSize_eq_zero hlarge, if_neg (by omega)]
  rw [ntfsRead, if_neg (Nat.lt_irrefl _)]
  dsimp only
  generalize (if blkOffset = 0 then u64 (lcn <<< fs.clustByteShift) % fs.blockSize
    else blkOffset) = offset
  have hblock := blockSize_pos fs
  split
  · rw [hnone (by omega), Option.map_none, Option.map_none]
  · rw [runLoop, copyStep]
    dsimp only
    rw [if_neg (by omega), hnone (by omega), Option.map_none]

/-! ## Fixups -/

/-- The update sequence array lies in front of the last word of the first sector. It has an entry
for each of the first sectors, and each of them ends with the update sequence number. -/
structure ValidFixups (sectorSize : Nat) (nrec : List UInt8) : Prop where
  count_pos : 1 ≤ usaCount nrec
  array_le : usaOfs nrec + 2 * usaCount nrec ≤ nrec.length
  array_front : usaOfs nrec + 2 * usaCount nrec + 2 ≤ sectorSize
  sectors_le : (usaCount nrec - 1) * sectorSize ≤ nrec.length
  ends : ∀ j < usaCount nrec - 1,
    readLe nrec ((j + 1) * sectorSize - 2) 2 = readLe nrec (usaOfs nrec) 2

/-- A byte of a record when the first sectors have their own words back. -/
def fixedByte (sectorSize : Nat) (nrec : List UInt8) (sectors i : Nat) : Option UInt8 :=
  if i / sectorSize < sectors ∧ sectorSize - 2 ≤ i % sectorSize then
    nrec[usaOfs nrec + 2 * (i / sectorSize + 1) + (i % sectorSize - (sectorSize - 2))]?
  else nrec[i]?

/-- A record with its fixups applied. -/
def applyFixups (sectorSize : Nat) (nrec : List UInt8) : List UInt8 :=
  (List.range nrec.length).map fun i =>
    (fixedByte sectorSize nrec (usaCount nrec - 1) i).getD 0

variable {sectorSize : Nat} {nrec : List UInt8}

/-- A byte in front of the ends of the sectors is not changed. -/
theorem fixedByte_front (sectors : Nat) {i : Nat} (h : i + 2 < sectorSize) :
    fixedByte sectorSize nrec sectors i = nrec[i]? := by
  rw [fixedByte, Nat.mod_eq_of_lt (by omega), if_neg (by omega)]

/-- A byte of a sector. -/
theorem fixedByte_sector (sectors : Nat) {q r : Nat} (hr : r < sectorSize) :
    fixedByte sectorSize nrec sectors (q * sectorSize + r) =
      if q < sectors ∧ sectorSize - 2 ≤ r then
        nrec[usaOfs nrec + 2 * (q + 1) + (r - (sectorSize - 2))]?
      else nrec[q * sectorSize + r]? := by
  have hdiv : (q * sectorSize + r) / sectorSize = q := by
    rw [Nat.add_comm, Nat.add_mul_div_right _ _ (by omega), Nat.div_eq_of_lt hr, Nat.zero_add]
  have hmod : (q * sectorSize + r) % sectorSize = r := by
    rw [Nat.add_comm, Nat.add_mul_mod_self_right, Nat.mod_eq_of_lt hr]
  rw [fixedByte, hdiv, hmod]

/-- The store of one iteration gives the next sector its own word back. -/
theorem getElem?_blit_fixed {j : Nat} {cur : List UInt8}
    (hcur : ∀ i, cur[i]? = fixedByte sectorSize nrec j i)
    (hss : 2 ≤ sectorSize) (hlen : (j + 1) * sectorSize ≤ cur.length)
    (husa : usaOfs nrec + 2 * (j + 1) + 4 ≤ sectorSize) (i : Nat) :
    (blit cur ((j + 1) * sectorSize - 2) (slice cur (usaOfs nrec + 2 * (j + 1)) 2))[i]? =
      fixedByte sectorSize nrec (j + 1) i := by
  have hpos : 0 < sectorSize := by omega
  have hj : (j + 1) * sectorSize = j * sectorSize + sectorSize := Nat.add_one_mul j sectorSize
  obtain ⟨q, r, hr, rfl⟩ : ∃ q r, r < sectorSize ∧ i = q * sectorSize + r :=
    ⟨i / sectorSize, i % sectorSize, Nat.mod_lt _ hpos, by rw [Nat.mul_comm, Nat.div_add_mod]⟩
  have hslice : (slice cur (usaOfs nrec + 2 * (j + 1)) 2).length = 2 := by
    rw [length_slice]
    omega
  rw [getElem?_blit (by omega), hslice, hcur, fixedByte_sector _ hr, fixedByte_sector _ hr]
  rcases Nat.lt_trichotomy q j with hq | rfl | hq
  · have hmul : q * sectorSize + sectorSize ≤ j * sectorSize := by
      rw [← Nat.add_one_mul]
      exact Nat.mul_le_mul_right _ hq
    rw [if_pos (by omega)]
    by_cases hend : sectorSize - 2 ≤ r
    · rw [if_pos ⟨hq, hend⟩, if_pos ⟨by omega, hend⟩]
    · rw [if_neg (by omega), if_neg (by omega)]
  · by_cases hend : sectorSize - 2 ≤ r
    · have hplace : q * sectorSize + r - ((q + 1) * sectorSize - 2) = r - (sectorSize - 2) := by
        omega
      rw [if_neg (by omega), if_pos (by omega), if_pos ⟨Nat.lt_succ_self q, hend⟩, getElem?_slice,
        if_pos (by omega), hplace, hcur, fixedByte_front _ (by omega)]
    · rw [if_pos (by omega), if_neg (by omega), if_neg (by omega)]
  · have hmul : j * sectorSize + sectorSize ≤ q * sectorSize := by
      rw [← Nat.add_one_mul]
      exact Nat.mul_le_mul_right _ hq
    rw [if_neg (by omega), if_neg (by omega), if_neg (by omega), if_neg (by omega)]

/-- The loop gives the sectors that are left their own words back. -/
theorem fixupsLoop_eq (h : ValidFixups sectorSize nrec) (count : Nat) {j : Nat} {cur : List UInt8}
    (hj : j + count = usaCount nrec - 1) (hlen : cur.length = nrec.length)
    (hcur : ∀ i, cur[i]? = fixedByte sectorSize nrec j i) :
    ∃ out, fixupsLoop sectorSize (readLe nrec (usaOfs nrec) 2) count (usaOfs nrec + 2 * (j + 1))
        ((j + 1) * sectorSize - 2) cur = some out ∧ out.length = nrec.length ∧
      ∀ i, out[i]? = fixedByte sectorSize nrec (usaCount nrec - 1) i := by
  have hfront := h.array_front
  induction count generalizing j cur with
  | zero =>
    obtain rfl : j = usaCount nrec - 1 := hj
    exact ⟨cur, rfl, hlen, hcur⟩
  | succ count ih =>
    have hsectors : (j + 1) * sectorSize ≤ nrec.length :=
      Nat.le_trans (Nat.mul_le_mul_right _ (by omega)) h.sectors_le
    have hmul : (j + 1) * sectorSize = j * sectorSize + sectorSize := Nat.add_one_mul j sectorSize
    -- The word at the end of the sector is still the one of the record.
    have hword : readLe cur ((j + 1) * sectorSize - 2) 2 = readLe nrec (usaOfs nrec) 2 := by
      rw [← h.ends j (by omega)]
      apply readLe_congr
      intro i hi
      have hplace : (j + 1) * sectorSize - 2 + i = j * sectorSize + (sectorSize - 2 + i) := by omega
      rw [hcur, hplace, fixedByte_sector _ (by omega), if_neg (by omega)]
    have hlenBlit : (blit cur ((j + 1) * sectorSize - 2)
        (slice cur (usaOfs nrec + 2 * (j + 1)) 2)).length = nrec.length := by
      rw [length_blit, hlen]
      rw [length_slice]
      omega
    have hnext : (j + 1) * sectorSize - 2 + sectorSize = (j + 1 + 1) * sectorSize - 2 := by
      rw [Nat.add_one_mul (j + 1)]
      omega
    rw [fixupsLoop, if_neg (by omega), hword, if_neg (fun hne => hne rfl), if_neg (by omega), hnext]
    exact ih (by omega) hlenBlit
      (getElem?_blit_fixed hcur (by omega) (by omega) (by omega))

/-- Valid fixups are applied. -/
theorem fixupsWriteback_eq (hmagic : magic nrec = magicFile ∨ magic nrec = magicIndx)
    (h : ValidFixups sectorSize nrec) :
    fixupsWriteback sectorSize nrec = some (applyFixups sectorSize nrec) := by
  have hpos := h.count_pos
  have harray := h.array_le
  have hlt : usaCount nrec < 256 ^ 2 := readLe_lt nrec 6 2
  have hcount : (usaCount nrec + (2 ^ 16 - 1)) % 2 ^ 16 = usaCount nrec - 1 := by omega
  have hstart : ∀ i, nrec[i]? = fixedByte sectorSize nrec 0 i := by
    intro i
    rw [fixedByte, if_neg (fun h => Nat.not_lt_zero _ h.1)]
  obtain ⟨out, hloop, hlen, hget⟩ := fixupsLoop_eq h (usaCount nrec - 1) (Nat.zero_add _) rfl hstart
  rw [Nat.zero_add, Nat.one_mul, Nat.mul_one] at hloop
  have hout : out = applyFixups sectorSize nrec := by
    apply List.ext_getElem
    · rw [hlen, applyFixups, List.length_map, List.length_range]
    · intro i hi _
      have hbyte := hget i
      rw [List.getElem?_eq_getElem hi] at hbyte
      simp only [applyFixups, List.getElem_map, List.getElem_range, ← hbyte, Option.getD_some]
  rw [fixupsWriteback, if_neg (fun hne => hmagic.elim hne.1 hne.2), if_neg (by omega), hcount,
    hloop, hout]

/-- The front of the first sector stays as it is. -/
theorem readLe_applyFixups {off len : Nat} (h : off + len + 2 ≤ sectorSize) :
    readLe (applyFixups sectorSize nrec) off len = readLe nrec off len := by
  apply readLe_congr
  intro i hi
  rw [applyFixups, List.getElem?_map]
  by_cases hlt : off + i < nrec.length
  · rw [List.getElem?_range hlt, Option.map_some, fixedByte_front _ (by omega),
      List.getElem?_eq_getElem hlt, Option.getD_some]
  · rw [List.getElem?_eq_none (by rw [List.length_range]; omega), Option.map_none,
      List.getElem?_eq_none (by omega)]

end Liigboot.Fs.Ntfs
