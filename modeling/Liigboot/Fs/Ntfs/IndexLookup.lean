import Liigboot.Fs.Ntfs.IndexNode
import Liigboot.Fs.Ntfs.RunList

/-!
# Looking up a name in a directory

`ntfs_index_lookup` reads the entries of the index root, and then those of the blocks at every
few clusters of the runs of the index, whether they are in use or not. It does not go by the tree.
It returns an inode for the record that the entry names, if `index_inode_setup` can fill one.
-/

namespace Liigboot.Fs.Ntfs

/-! ## The source -/

/-- `struct ntfs_bpb`: the sizes. -/
structure Bpb where
  secPerClust : UInt8
  mftLclust : Nat
  clustPerMftRecord : Int
  clustPerIdxRecord : UInt8
  deriving DecidableEq, Repr

/-- `ilog2`. -/
def ilog2 (v : Nat) : Nat := Nat.log2 v

/-- `ntfs_fs_init`. -/
def ntfsFsInit (ntfs : Bpb) (sectorShift : Nat) : FsInfo :=
  let clustShift := ilog2 ntfs.secPerClust.toNat
  { sectorShift
    clustShift
    mftRecordShift :=
      if ntfs.clustPerMftRecord < 0 then (-ntfs.clustPerMftRecord).toNat
      else ilog2 ntfs.secPerClust.toNat + sectorShift + ilog2 ntfs.clustPerMftRecord.toNat
    blockShift := ilog2 ntfs.clustPerIdxRecord.toNat + (clustShift + sectorShift)
    mftLcn := ntfs.mftLclust }

/-- A value in a `uint64_t`. -/
def toU64 (n : Int) : Nat := (n % 2 ^ 64).toNat

/-- The block of a cluster. -/
def FsInfo.blkOf (fs : FsInfo) (lcn : Int) : Nat := toU64 (i64 (lcn * fs.clustSize) / fs.blockSize)

/-- The index block at a cluster: it ends the lookup, or the lookup goes on. -/
def indexBlock (fs : FsInfo) (disk : Disk) (dname : List UInt8) (lcn : Int) :
    Step Unit (Option Nat) :=
  match ntfsRead fs disk fs.blockSize fs.blockSize (fs.blkOf lcn) 0 (toU64 lcn) with
  | none => .hang
  | some none => .stop none
  | some (some r) =>
    match fixupsWriteback fs.sectorSize r.buf with
    | none => .hang
    | some iblk =>
      if magic iblk ≠ magicIndx then .stop none
      else
        match scanEntries dname iblk 24 with
        | none => .hang
        | some .indexErr => .stop none
        | some (.found indexedFile) => .stop (some indexedFile)
        | some (.last _) => .next ()

/-- An iteration of the loop over the blocks of a run: the end of the lookup, or of the run. -/
def runStep (fs : FsInfo) (disk : Disk) (dname : List UInt8) (chunk : MappingChunk) (vcn : Nat) :
    Step Nat (Option (Option Nat)) :=
  if vcn < chunk.len then
    match indexBlock fs disk dname (chunk.lcn + vcn) with
    | .hang => .hang
    | .stop result => .stop (some result)
    | .next () => .next (vcn + fs.blockSize / fs.clustSize)
  else .stop none

/-- An iteration of the loop over the runs. The blocks of a run are at different clusters of it,
or all at the first one. -/
def chunkStep (fs : FsInfo) (disk : Disk) (dname : List UInt8) (stream : Nat → UInt8)
    (attrLen : Nat) (s : Nat × MappingChunk) : Step (Nat × MappingChunk) (Option Nat) :=
  match parseDataRun stream s.1 attrLen s.2 with
  | (true, _, _) => .stop none
  | (false, offset, chunk) =>
    let again : Step (Nat × MappingChunk) (Option Nat) :=
      if chunk.flags &&& mapEnd ≠ 0 then .stop none else .next (offset, chunk)
    if chunk.flags &&& mapUnallocated ≠ 0 then again
    else if chunk.flags &&& mapAllocated ≠ 0 then
      match runLoop (runStep fs disk dname chunk) (chunk.len + 1) 0 with
      | none => .hang
      | some (some result) => .stop result
      | some none => again
    else again

/-- `NTFS_AT_INDEX_ROOT`. -/
def atIndexRoot : Nat := 0x90

/-- `NTFS_AT_INDEX_ALLOCATION`. -/
def atIndexAllocation : Nat := 0xA0

/-- `NTFS_AT_DATA`. -/
def atData : Nat := 0x80

/-- A mounted volume: its sizes and its bytes, the function that `mft_record_lookup` points to,
with the block that it stores, and `ntfs_attr_lookup`, which returns the record with the attribute
and the place of it there. -/
structure Volume where
  fs : FsInfo
  disk : Disk
  mftRecordLookup : Nat → Option (List UInt8)
  startBlk : Nat → Nat
  ntfsAttrLookup : Nat → List UInt8 → List UInt8 → Option (List UInt8 × Nat)

/-- The place of the index header in an index root attribute. -/
def rootIndex (mrec : List UInt8) (attr : Nat) : Nat := attr + readLe mrec (attr + 20) 2 + 16

/-- `attr->non_resident`. -/
def nonResident (mrec : List UInt8) (attr : Nat) : Nat := readLe mrec (attr + 8) 1

/-- The place of the mapping pairs in the attribute. -/
def mappingPairsOffset (mrec : List UInt8) (attr : Nat) : Nat := readLe mrec (attr + 32) 2

/-- `attr->len`. -/
def attrLen (mrec : List UInt8) (attr : Nat) : Nat := readLe mrec (attr + 4) 4

/-- The mapping pairs. -/
def pairsStream (mrec : List UInt8) (attr i : Nat) : UInt8 :=
  mrec.getD (attr + mappingPairsOffset mrec attr + i) 0

/-- `attr->data.resident.value_len`. -/
def valueLen (mrec : List UInt8) (attr : Nat) : Nat := readLe mrec (attr + 16) 4

/-- `attr->data.non_resident.initialized_size`. -/
def initializedSize (mrec : List UInt8) (attr : Nat) : Nat := readLe mrec (attr + 56) 8

/-- `get_inode_mode`: the record of a directory. -/
def isDirectory (mrec : List UInt8) : Bool := readLe mrec 22 2 &&& 2 != 0

/-- `seq_no`. -/
def seqNo (mrec : List UInt8) : Nat := readLe mrec 16 2

/-- An inode: the number and the sequence number of its MFT record, whether that is one of a
directory, and what a file is read by. -/
structure NtfsInode where
  mftNo : Nat
  seqNo : Nat
  directory : Bool
  file : Inode NtfsPvt

/-- `index_inode_setup`: the inode that it fills. There is none when it fails. A call of
`parse_data_run` gets at least a byte further, so that there are enough. -/
def Volume.indexInodeSetup (v : Volume) (mftNo : Nat) : Option NtfsInode :=
  match v.mftRecordLookup mftNo with
  | none => none
  | some lmrec =>
    let inode (file : Inode NtfsPvt) : NtfsInode :=
      ⟨mftNo, Ntfs.seqNo lmrec, isDirectory lmrec, file⟩
    if isDirectory lmrec then
      match v.ntfsAttrLookup atIndexRoot lmrec lmrec with
      | none => none
      | some _ => some (inode (Inode.fresh 0 ⟨false, [], v.startBlk mftNo⟩))
    else
      match v.ntfsAttrLookup atData lmrec lmrec with
      | none => none
      | some (mrec, attr) =>
        if nonResident mrec attr = 0 then
          some (inode (Inode.fresh (UInt32.ofNat (valueLen mrec attr))
            ⟨false, [], v.startBlk mftNo⟩))
        -- The mapping pairs start behind the end of the attribute.
        else if mappingPairsOffset mrec attr > attrLen mrec attr then none
        else
          (Ntfs.indexInodeSetup (pairsStream mrec attr)
            (attrLen mrec attr - mappingPairsOffset mrec attr) (attrLen mrec attr + 2)
            (v.startBlk mftNo) (initializedSize mrec attr)).map inode

/-- The part of `ntfs_index_lookup` in front of `found`: what the entry that it finds refers to, or
none. There is no result when it does not return. -/
def ntfsIndexFind (v : Volume) (dname : List UInt8) (mftNo : Nat) : Option (Option Nat) :=
  match v.mftRecordLookup mftNo with
  | none => some none
  | some lmrec =>
    match v.ntfsAttrLookup atIndexRoot lmrec lmrec with
    | none => some none
    | some (mrec, attr) =>
      match scanEntries dname mrec (rootIndex mrec attr) with
      | none => none
      | some .indexErr => some none
      | some (.found indexedFile) => some (some indexedFile)
      | some (.last false) => some none
      | some (.last true) =>
        match v.ntfsAttrLookup atIndexAllocation mrec lmrec with
        | none => some none
        | some (mrec, attr) =>
          if nonResident mrec attr = 0 then some none
          -- The mapping pairs start behind the end of the attribute.
          else if mappingPairsOffset mrec attr > attrLen mrec attr then some none
          else
            runLoop
              (chunkStep v.fs v.disk dname (pairsStream mrec attr)
                (attrLen mrec attr - mappingPairsOffset mrec attr))
              (attrLen mrec attr + 2) (0, mappingChunkInit)

/-- `ntfs_index_lookup`: the inode it returns, or none. There is no result when it does not return.
The number of a record has 32 bits. -/
def ntfsIndexLookup (v : Volume) (dname : List UInt8) (mftNo : Nat) : Option (Option NtfsInode) :=
  (ntfsIndexFind v dname mftNo).map fun found =>
    found.bind fun indexedFile => v.indexInodeSetup (u32 indexedFile)

/-! ## The inode that is returned -/

/-- The mapping pairs of an attribute can be read to their end, and one of the runs is not a
hole. -/
def HasRun (mrec : List UInt8) (attr : Nat) : Prop :=
  mappingPairsOffset mrec attr ≤ attrLen mrec attr ∧
    ∃ chunks, decodeRuns (pairsStream mrec attr)
      (attrLen mrec attr - mappingPairsOffset mrec attr) (attrLen mrec attr + 2) 0
      mappingChunkInit = some chunks ∧ ∃ c ∈ chunks, c.lcn ≠ 0

/-- A record can be opened: it is found, it has an index root or data, and data that are not
resident have a run. -/
def Volume.Opens (v : Volume) (mftNo : Nat) : Prop :=
  ∃ lmrec, v.mftRecordLookup mftNo = some lmrec ∧
    if isDirectory lmrec then ∃ found, v.ntfsAttrLookup atIndexRoot lmrec lmrec = some found
    else ∃ mrec attr, v.ntfsAttrLookup atData lmrec lmrec = some (mrec, attr) ∧
      (nonResident mrec attr ≠ 0 → HasRun mrec attr)

/-- The blocks at some clusters are read one by one. -/
def readBlocks (block : Int → Step Unit (Option Nat)) : List Int → Step Unit (Option Nat)
  | [] => .next ()
  | lcn :: lcns =>
    match block lcn with
    | .hang => .hang
    | .stop result => .stop result
    | .next () => readBlocks block lcns

/-- The lookup behind some blocks. -/
def answered : Step Unit (Option Nat) → Option (Option Nat)
  | .hang => none
  | .stop result => some result
  | .next () => some none

/-- The clusters of a run at which blocks are read. -/
def runReads (step len : Nat) (lcn : Int) : List Int :=
  (List.range ((len + step - 1) / step)).map fun i => lcn + (i * step : Nat)

/-- The clusters at which blocks are read, for the runs behind one that starts at `base`. -/
def readsFrom (step : Nat) (base : Int) : List Run → List Int
  | [] => []
  | r :: rs => runReads step (readLen r.len) (r.start base) ++ readsFrom step (r.start base) rs

variable {fs : FsInfo} {disk : Disk} {dname : List UInt8} {block : Int → Step Unit (Option Nat)}

theorem readBlocks_append (xs ys : List Int) : readBlocks block (xs ++ ys) =
    match readBlocks block xs with
    | .hang => .hang
    | .stop result => .stop result
    | .next () => readBlocks block ys := by
  induction xs with
  | nil => rfl
  | cons x xs ih =>
    rw [List.cons_append, readBlocks, readBlocks]
    cases block x with
    | hang => rfl
    | stop result => rfl
    | next u => exact ih

/-- The loop over the blocks of a run, from the one at `i * step` on. -/
theorem runStep_readBlocks (fs : FsInfo) (disk : Disk) (dname : List UInt8) (chunk : MappingChunk)
    {i m : Nat}
    (hm : ∀ i, i * (fs.blockSize / fs.clustSize) < chunk.len ↔ i < m) {d iterations : Nat}
    (hd : i + d = m) (henough : d < iterations) :
    runLoop (runStep fs disk dname chunk) iterations (i * (fs.blockSize / fs.clustSize)) =
      match readBlocks (indexBlock fs disk dname) ((List.range' i d).map fun i =>
        chunk.lcn + (i * (fs.blockSize / fs.clustSize) : Nat)) with
      | .hang => none
      | .stop result => some (some result)
      | .next () => some none := by
  induction d generalizing i iterations with
  | zero =>
    obtain ⟨n, rfl⟩ : ∃ n, iterations = n + 1 := ⟨iterations - 1, by omega⟩
    rw [runLoop, runStep, if_neg (by rw [hm]; omega)]
    rfl
  | succ d ih =>
    obtain ⟨n, rfl⟩ : ∃ n, iterations = n + 1 := ⟨iterations - 1, by omega⟩
    rw [runLoop, runStep, if_pos ((hm i).mpr (by omega)), List.range'_succ, List.map_cons, readBlocks]
    cases hblock : indexBlock fs disk dname
        (chunk.lcn + (i * (fs.blockSize / fs.clustSize) : Nat)) with
    | hang => rfl
    | stop result => rfl
    | next u =>
      dsimp only
      rw [← Nat.add_one_mul]
      exact ih (by omega) (by omega)

/-- The loop over the blocks of a run reads them one by one. -/
theorem runLoop_runStep (fs : FsInfo) (disk : Disk) (dname : List UInt8) (chunk : MappingChunk)
    (hstep : 0 < fs.blockSize / fs.clustSize) :
    runLoop (runStep fs disk dname chunk) (chunk.len + 1) 0 =
      match readBlocks (indexBlock fs disk dname)
        (runReads (fs.blockSize / fs.clustSize) chunk.len chunk.lcn) with
      | .hang => none
      | .stop result => some (some result)
      | .next () => some none := by
  have hm : ∀ i, i * (fs.blockSize / fs.clustSize) < chunk.len ↔
      i < (chunk.len + fs.blockSize / fs.clustSize - 1) / (fs.blockSize / fs.clustSize) := by
    intro i
    rw [Nat.lt_iff_add_one_le, Nat.lt_iff_add_one_le, Nat.le_div_iff_mul_le hstep, Nat.add_one_mul]
    omega
  have hle : (chunk.len + fs.blockSize / fs.clustSize - 1) / (fs.blockSize / fs.clustSize) ≤
      chunk.len := by
    by_contra hlt
    have hmul := (hm chunk.len).mpr (Nat.lt_of_not_le hlt)
    exact absurd (Nat.le_mul_of_pos_right chunk.len hstep) (Nat.not_le_of_lt hmul)
  have hrun := runStep_readBlocks fs disk dname chunk hm (Nat.zero_add _)
    (Nat.lt_succ_of_le hle)
  rw [Nat.zero_mul] at hrun
  rw [hrun, runReads, List.range_eq_range']

/-- The runs of an index: they are allocated and not empty, and do not start at cluster 0. -/
def Allocated (base : Int) : List Run → Prop
  | [] => True
  | r :: rs => r.delta ≠ [] ∧ 0 < leNat r.len ∧ 0 < r.start base ∧ Allocated (r.start base) rs

/-- The cluster number that `parse_data_run` stores for an allocated run. -/
theorem nextLcn_eq {base : Int} {r : Run} (hdelta : r.delta ≠ [])
    (hrange : -2 ^ 63 ≤ r.start base ∧ r.start base < 2 ^ 63) : nextLcn base r = r.start base := by
  rw [Run.start, if_neg hdelta] at hrange ⊢
  rw [nextLcn, if_neg hdelta, i64_of_range hrange.1 hrange.2]

/-- The loop over the runs reads their blocks one by one. -/
theorem chunkStep_readBlocks {stream : Nat → UInt8} {attrLen offset : Nat} {chunk : MappingChunk}
    {runs : List Run} (hstep : 0 < fs.blockSize / fs.clustSize)
    (hat : At stream offset (encodeRuns runs ++ [0]))
    (hend : offset + (encodeRuns runs).length ≤ attrLen) (hlt : attrLen < 2 ^ 32)
    (hrange : InRange chunk.lcn runs) (hruns : Allocated chunk.lcn runs) {iterations : Nat}
    (henough : attrLen + 1 < offset + iterations) :
    runLoop (chunkStep fs disk dname stream attrLen) iterations (offset, chunk) =
      answered (readBlocks (indexBlock fs disk dname)
        (readsFrom (fs.blockSize / fs.clustSize) chunk.lcn runs)) := by
  induction runs generalizing offset chunk iterations with
  | nil =>
    obtain ⟨n, rfl⟩ : ∃ n, iterations = n + 1 := by
      simp only [encodeRuns, List.flatMap_nil, List.length_nil] at hend
      exact ⟨iterations - 1, by omega⟩
    obtain ⟨chunk', hparse, hunalloc, halloc, hflag⟩ :=
      @parseDataRun_end stream offset attrLen chunk hat.cons.1
    rw [runLoop, chunkStep, hparse]
    dsimp only
    rw [if_neg (not_not.mpr hunalloc), if_neg (not_not.mpr halloc), if_pos hflag]
    rfl
  | cons r runs ih =>
    rw [encodeRuns_cons, List.append_assoc] at hat
    rw [encodeRuns_cons, List.length_append] at hend
    obtain ⟨n, rfl⟩ : ∃ n, iterations = n + 1 := ⟨iterations - 1, by omega⟩
    obtain ⟨chunk', hparse, -, hlen, hlcn, hunalloc, halloc, hflag⟩ :=
      @parseDataRun_run stream offset attrLen chunk r _ hat (by omega)
    obtain ⟨hdelta, -, hpos, hrest⟩ := hruns
    rw [nextLcn_eq hdelta hrange.1] at hlcn
    have hne : chunk'.lcn ≠ 0 := by
      rw [hlcn]
      omega
    have hoff : u32 (offset + r.bytes.length) = offset + r.bytes.length :=
      Nat.mod_eq_of_lt (by omega)
    have hbytes := length_bytes r
    have hread := runLoop_runStep fs disk dname chunk' hstep
    rw [hlen, hlcn] at hread
    rw [runLoop, chunkStep, hparse]
    dsimp only
    rw [if_neg fun h => hne (hunalloc.mp h), if_pos (halloc.mpr hne), if_neg (not_not.mpr hflag),
      hoff, hlen, hread, readsFrom, readBlocks_append]
    cases readBlocks (indexBlock fs disk dname)
        (runReads (fs.blockSize / fs.clustSize) (readLen r.len) (r.start chunk.lcn)) with
    | hang => rfl
    | stop result => rfl
    | next u =>
      dsimp only
      have hnext := hrange.2
      rw [← hlcn] at hnext hrest ⊢
      exact ih hat.append.2 (by omega) hnext hrest (by omega)

/-! ## One block -/

theorem toU64_cast {n : Nat} (h : n < 2 ^ 64) : toU64 n = n := by
  rw [toU64]
  omega

/-- The block of a cluster. -/
theorem blkOf_eq {k : Nat} (h : k * fs.clustSize < 2 ^ 63) :
    fs.blkOf k = k * fs.clustSize / fs.blockSize := by
  have hi64 : i64 ((k : Int) * fs.clustSize) = ((k * fs.clustSize : Nat) : Int) := by
    rw [← Int.natCast_mul]
    exact i64_of_range (by omega) (by omega)
  rw [FsInfo.blkOf, hi64, ← Int.natCast_ediv]
  exact toU64_cast ((Nat.div_le_self _ _).trans_lt (by omega))

/-- A block is read from the start of its cluster on. -/
theorem ntfsRead_cluster (disk : Disk) {k : Nat} (hcache : fs.blockShift < 16)
    (hblock : 2 ≤ fs.blockSize) (h : k * fs.clustSize < 2 ^ 63) :
    ∃ r, ntfsRead fs disk fs.blockSize fs.blockSize (fs.blkOf k) 0 (toU64 k) = some (some r) ∧
      r.buf = bytesAt disk (k * fs.clustSize) fs.blockSize := by
  have hclust : 0 < fs.clustSize := Nat.two_pow_pos _
  have hk : k < 2 ^ 64 := (Nat.le_mul_of_pos_right k hclust).trans_lt (by omega)
  have hdiv : k * fs.clustSize / fs.blockSize ≤ k * fs.clustSize / 2 :=
    Nat.div_le_div_left hblock (by decide)
  obtain ⟨r, hread, hbuf⟩ := ntfsRead_buf disk hcache (Nat.le_refl fs.blockSize)
    (blockSize_pos fs) (by omega : k * fs.clustSize / fs.blockSize + 1 < 2 ^ 64) k
  refine ⟨r, by rw [blkOf_eq h, toU64_cast hk]; exact hread, ?_⟩
  have hmod : u64 (k * fs.clustSize) = k * fs.clustSize := Nat.mod_eq_of_lt (by omega)
  rw [hbuf, FsInfo.readOffset, if_pos rfl, Nat.shiftLeft_eq]
  change bytesAt disk (_ + u64 (k * fs.clustSize) % _) _ = _
  rw [hmod, Nat.mul_comm _ fs.blockSize, Nat.div_add_mod]

end Liigboot.Fs.Ntfs
