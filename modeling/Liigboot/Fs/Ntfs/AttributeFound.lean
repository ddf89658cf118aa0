import Liigboot.Fs.Ntfs.FileRecord

/-!
# Which attribute is found

The lookup of an attribute is right when the attribute is in the base record, or the entry for it is
where the list is searched: the bound of a list in the record is too low by the offset of the
value, and of a list in clusters only the block at its first cluster is read right.
-/

namespace Liigboot.Fs.Ntfs

open Relation

/-! ## Files -/

/-- Where the entries of a list lie. -/
inductive ListPlace where
  | resident (valueOffset : Nat)
  | nonResident (runs : List Run)

/-- An attribute list. -/
structure AttrList where
  entries : List ListEntry
  place : ListPlace
  nonempty : entries ≠ []

/-- A file: the attributes of its base record, and its attribute list. -/
structure FileRecord where
  attrs : List AttrHeader
  list : Option AttrList

/-- The clusters of some runs. -/
def runClusters (runs : List Run) : List Nat :=
  (meaning 0 runs).flatMap fun d => (List.range d.len).map fun i => d.lcn.toNat + i

/-- A byte of what lies in some runs. -/
def runByte (fs : FsInfo) (disk : Disk) (runs : List Run) : Memory := fun i =>
  disk ((runClusters runs).getD (i / fs.clustSize) 0 * fs.clustSize + i % fs.clustSize)

/-- A list in the record. -/
structure ResidentAt (mem : Memory) (attr valueOffset : Nat) (es : List ListEntry) : Prop where
  resident : Attr.nonResident mem attr = 0
  offset : Attr.valueOffset mem attr = valueOffset
  size : Attr.valueLen mem attr = entriesLen es
  inMemory : attr + valueOffset + entriesLen es < 2 ^ 32
  headers : HeadersAt mem (attr + valueOffset) es
  refs : RefsAt mem (attr + valueOffset) es

/-- A list in some runs of clusters. The buffer for a block does not lie at the end of memory. -/
structure NonResidentAt (v : Mount) (mem : Memory) (attr : Nat) (runs : List Run)
    (es : List ListEntry) : Prop where
  nonResident : Attr.nonResident mem attr ≠ 0
  dataSize : Attr.dataSize mem attr = entriesLen es
  inMemory : attr + Attr.len mem attr < 2 ^ 32
  fits : Attr.mappingPairsOffset mem attr + (encodeRuns runs).length ≤ Attr.len mem attr
  pairs : At (fun i => mem (u32 (attr + Attr.mappingPairsOffset mem attr + i))) 0
    (encodeRuns runs ++ [0])
  allocated : Allocated 0 runs
  inRange : InRange 0 runs
  volume : ∀ k ∈ runClusters runs, (k + 1) * v.fs.clustSize ≤ 2 ^ 62
  covers : entriesLen es ≤ (runClusters runs).length * v.fs.clustSize
  headers : HeadersAt (runByte v.fs v.disk runs) 0 es
  refs : RefsAt (runByte v.fs v.disk runs) 0 es
  sector : 9 ≤ v.fs.sectorShift
  block : v.fs.clustByteShift ≤ v.fs.blockShift
  buffer : v.buf + entriesLen es < 2 ^ 32

/-- A list at an attribute. -/
def ListAt (v : Mount) (mem : Memory) (attr : Nat) (list : AttrList) : Prop :=
  match list.place with
  | .resident valueOffset => ResidentAt mem attr valueOffset list.entries
  | .nonResident runs => NonResidentAt v mem attr runs list.entries

/-- The record with a number has an attribute of a type, and no list. -/
structure ExtensionAt (v : Mount) (number type : Nat) (ext : Mrec) (attrs : List AttrHeader)
    (attr : Nat) : Prop where
  lookup : ∃ n, v.mftRecordLookup n number = some (some ext)
  record : RecordAt ext attrs
  noList : ∀ h ∈ attrs, h.type ≠ atAttrList
  first : ext.find attrs type = some attr

/-- A file on a volume. An entry for a type that is not in the base record names a record with an
attribute of it. -/
structure FileAt (v : Mount) (mrec : Mrec) (f : FileRecord) : Prop where
  record : RecordAt mrec f.attrs
  noList : f.list = none → ∀ h ∈ f.attrs, h.type ≠ atAttrList
  oneList : (f.attrs.filter fun h => h.type = atAttrList).length ≤ 1
  list : ∀ l, f.list = some l → ∃ attr, mrec.find f.attrs atAttrList = some attr ∧
    ListAt v mrec.mem attr l
  extension : ∀ l, f.list = some l → ∀ e ∈ l.entries, (∀ h ∈ f.attrs, h.type ≠ e.type) →
    ∃ ext attrs attr, ExtensionAt v e.number e.type ext attrs attr

/-- The first entry of a type. -/
def FileRecord.entry (f : FileRecord) (type : Nat) : Option ListEntry :=
  f.list.bind fun l => l.entries.find? fun e => e.type = type

/-- The first attribute of the type in the base record, else the one in the record that the list
names, else none. -/
def Right (v : Mount) (mrec : Mrec) (f : FileRecord) (type : Nat)
    (result : Option (Mrec × Nat)) : Prop :=
  match mrec.find f.attrs type with
  | some attr => result = some (mrec, attr)
  | none =>
    match f.entry type with
    | none => result = none
    | some e => ∃ ext attrs attr, ExtensionAt v e.number type ext attrs attr ∧
        result = some (ext, attr)

/-- The lookup returns what it should. -/
def FindsAttr (v : Mount) (mrec : Mrec) (f : FileRecord) (type : Nat) : Prop :=
  ∃ n result, ntfsAttrLookup v type n mrec = some result ∧ Right v mrec f type result

/-! ## The condition -/

/-- The search of a list gets to the first entry of a type, or through the list when there is none.
In the record the entry begins in front of the length of the value, counted from the attribute on.
In clusters the entry lies in the block at the first cluster, and in the first run; without an
entry the list has one run, of no more than a block, and its last entry begins in this block. -/
def ListRead (fs : FsInfo) (type : Nat) (l : AttrList) : Prop :=
  match l.place with
  | .resident valueOffset => ∀ o, entryOffset type l.entries = some o →
      valueOffset + o < entriesLen l.entries
  | .nonResident runs => fs.blockShift < 16 ∧
      match entryOffset type l.entries with
      | some o => ∃ r, runs.head? = some r ∧ o + 24 ≤ fs.blockSize ∧
          o + 24 ≤ leNat r.len * fs.clustSize
      | none => entriesLen l.entries.dropLast < fs.blockSize ∧
          ∃ r, runs = [r] ∧ readLen r.len ≤ fs.blockSize / fs.clustSize

/-- The type is not the one of lists when there is a list, and it is the end of a record, or in the
base record, or the list is read. -/
def Found (fs : FsInfo) (type : Nat) (f : FileRecord) : Prop :=
  (type = atAttrList → f.list = none) ∧
    (type = atEnd ∨ (∃ h ∈ f.attrs, h.type = type) ∨ ∀ l, f.list = some l → ListRead fs type l)

variable {v : Mount} {mem : Memory} {mrec ext : Mrec} {f : FileRecord} {type attr a n : Nat}
  {es : List ListEntry} {e : ListEntry} {attrs : List AttrHeader} {l : AttrList}

/-! ## The search of a list in the record -/

/-- The list is searched up to its length, counted from the attribute on. -/
theorem listSearch_resident {valueOffset : Nat} (h : ResidentAt mem attr valueOffset es) (n : Nat) :
    listSearch v type n mem attr =
      runLoop (listStep type (attr + entriesLen es) mem) n (attr + valueOffset) := by
  have hmem := h.inMemory
  rw [listSearch, if_pos h.resident, h.size, h.offset, u32_of_lt (by omega),
    u32_of_lt (by omega)]

/-- An entry in a resident list is found when it begins in front of the bound. -/
theorem resident_found {valueOffset o : Nat} (h : ResidentAt mem attr valueOffset es)
    (ho : entryOffset type es = some o) (hlimit : valueOffset + o < entriesLen es) :
    ∃ n e, e ∈ es ∧ es.find? (fun e => e.type = type) = some e ∧
      listSearch v type n mem attr = some (some e.mftRef) := by
  obtain ⟨before, e, after, rfl, htype, hbefore, rfl⟩ := entryOffset_some ho
  have hmem := h.inMemory
  have hsplit : before ++ e :: after = (before ++ [e]) ++ after := by
    rw [List.append_assoc, List.singleton_append]
  have hheaders := h.headers
  have hrefs := h.refs
  rw [hsplit] at hheaders
  obtain ⟨-, href, -⟩ := refsAt_append.mp hrefs
  obtain ⟨n, hrun⟩ := listLoop_found (attr + entriesLen (before ++ e :: after))
    (headersAt_append.mp hheaders).1 hbefore htype (by omega) (by omega)
  refine ⟨n, e, List.mem_append_right _ List.mem_cons_self, ?_, ?_⟩
  · rw [List.find?_eq_some_iff_append]
    refine ⟨decide_eq_true htype, before, after, rfl, fun x hx => ?_⟩
    rw [Bool.not_eq_true', decide_eq_false_iff_not]
    exact hbefore x hx
  · rw [listSearch_resident h, hrun, href]

/-- An entry that begins behind the bound is not found. -/
theorem resident_missed {valueOffset : Nat} (h : ResidentAt mem attr valueOffset es)
    (hmiss : ∀ o, entryOffset type es = some o → entriesLen es ≤ valueOffset + o) :
    ∃ n, listSearch v type n mem attr = some none := by
  have hmem := h.inMemory
  obtain ⟨n, hrun⟩ := listLoop_none (attr + entriesLen es) h.headers
    (fun o ho => by
      have hle := hmiss o ho
      omega) (by omega) hmem
  exact ⟨n, (listSearch_resident h n).trans hrun⟩

/-! ## The search of a list in clusters -/

section NonResident

variable {r : Run} {rs : List Run}

/-- The first cluster of a list. -/
def Run.first (r : Run) : Nat := (r.start 0).toNat

/-- The bytes of the first run. -/
theorem runByte_first (fs : FsInfo) (disk : Disk) (rs : List Run) {i : Nat}
    (hi : i < leNat r.len * fs.clustSize) :
    runByte fs disk (r :: rs) i = disk (r.first * fs.clustSize + i) := by
  have hdiv : i / fs.clustSize < leNat r.len :=
    (Nat.div_lt_iff_lt_mul (Nat.two_pow_pos _)).mpr hi
  have hcluster : (runClusters (r :: rs))[i / fs.clustSize]? =
      some (r.first + i / fs.clustSize) := by
    rw [runClusters, meaning, List.flatMap_cons,
      List.getElem?_append_left (by rw [List.length_map, List.length_range]; exact hdiv),
      List.getElem?_map, List.getElem?_range hdiv, Option.map_some, Run.first]
  rw [runByte, List.getD_eq_getElem?_getD, hcluster, Option.getD_some, Nat.add_mul, Nat.add_assoc,
    Nat.mul_comm (i / fs.clustSize), Nat.div_add_mod]

/-- The memory when the block at a cluster is in the buffer. -/
def Mount.clusterMem (v : Mount) (k : Nat) : Memory :=
  v.blockMem (bytesAt v.disk (k * v.fs.clustSize) v.fs.blockSize)

/-- The buffer has the bytes of the block. -/
theorem clusterMem_add (v : Mount) (k : Nat) {i : Nat} (hi : i < v.fs.blockSize) :
    v.clusterMem k (v.buf + i) = v.disk (k * v.fs.clustSize + i) :=
  Memory.write_add (getElem?_bytesAt _ _ hi)

/-- Behind the buffer is what the stack has. -/
theorem clusterMem_behind (v : Mount) (k : Nat) {i : Nat} (hi : v.fs.blockSize ≤ i) :
    v.clusterMem k (v.buf + i) = v.stack (v.buf + i) :=
  Memory.write_behind (by rw [length_bytesAt]; exact hi)

/-- The search of the block at a cluster. -/
theorem listBlock_eq (hcache : v.fs.blockShift < 16) (hblock : 2 ≤ v.fs.blockSize) {k size : Nat}
    (hk : k * v.fs.clustSize < 2 ^ 63) (hsize : v.buf + size < 2 ^ 32) (n : Nat) :
    listBlock v type size n k =
      match runLoop (listStep type (v.buf + size) (v.clusterMem k)) n v.buf with
      | none => .hang
      | some none => .next ()
      | some (some mftRef) => .stop (some mftRef) := by
  obtain ⟨r, hread, hbuf⟩ := ntfsRead_cluster v.disk hcache hblock hk
  rw [listBlock, hread]
  dsimp only
  rw [hbuf, u32_of_lt hsize]
  rfl

/-- A block that the cache cannot hold is not searched. -/
theorem listBlock_large (hlarge : 16 ≤ v.fs.blockShift) (size n : Nat) (lcn : Int) :
    listBlock v type size n lcn = .hang := by
  rw [listBlock, ntfsRead_large hlarge (blockSize_pos _)]

variable (h : NonResidentAt v mem attr (r :: rs) es)

include h

/-- A block is a whole number of clusters, and these of entries. -/
theorem NonResidentAt.sizes : 8 ∣ v.fs.clustSize ∧ 8 ∣ v.fs.blockSize ∧ 2 ≤ v.fs.blockSize ∧
    v.fs.blockSize = v.fs.blockSize / v.fs.clustSize * v.fs.clustSize ∧
    0 < v.fs.blockSize / v.fs.clustSize := by
  have hclust : 9 ≤ v.fs.clustByteShift := h.sector.trans (Nat.le_add_left _ _)
  have hdvd : v.fs.clustSize ∣ v.fs.blockSize := Nat.pow_dvd_pow 2 h.block
  refine ⟨Nat.pow_dvd_pow 2 (by omega : 3 ≤ v.fs.clustByteShift),
    Nat.pow_dvd_pow 2 (by have := h.block; omega : 3 ≤ v.fs.blockShift),
    Nat.pow_le_pow_right (by decide : 0 < 2) (by have := h.block; omega : 1 ≤ v.fs.blockShift),
    (Nat.div_mul_cancel hdvd).symm,
    Nat.div_pos (Nat.le_of_dvd (blockSize_pos _) hdvd) (Nat.two_pow_pos _)⟩

/-- The first run is on the volume. -/
theorem NonResidentAt.first_lt : r.first * v.fs.clustSize < 2 ^ 63 := by
  have hmem : r.first ∈ runClusters (r :: rs) := by
    rw [runClusters, meaning, List.flatMap_cons]
    refine List.mem_append_left _ (List.mem_map.mpr ⟨0, List.mem_range.mpr h.allocated.2.1, ?_⟩)
    exact Nat.add_zero _
  have hvolume := h.volume _ hmem
  rw [Nat.add_one_mul] at hvolume
  omega

/-- The first run is parsed. -/
theorem NonResidentAt.parse_first :
    ∃ chunk, parseRun mem (u32 (attr + Attr.mappingPairsOffset mem attr))
        (u32 (attr + Attr.len mem attr)) 0 mappingChunkInit = (false, r.bytes.length, chunk) ∧
      chunk.len = readLen r.len ∧ chunk.lcn = (r.first : Int) ∧
      chunk.flags &&& mapUnallocated = 0 ∧ chunk.flags &&& mapEnd = 0 ∧
      chunk.flags &&& mapAllocated ≠ 0 := by
  have hmem := h.inMemory
  have hfits := h.fits
  have hpairs := h.pairs
  obtain ⟨hdelta, -, hpos, -⟩ := h.allocated
  rw [encodeRuns_cons, List.append_assoc] at hpairs
  rw [encodeRuns_cons, List.length_append] at hfits
  have hlength := length_bytes r
  have hlen := r.len_le
  have hdeltaLe := r.delta_le
  have hstream : u32 (attr + Attr.mappingPairsOffset mem attr) =
      attr + Attr.mappingPairsOffset mem attr := u32_of_lt (by omega)
  have hend : u32 (attr + Attr.len mem attr) = attr + Attr.len mem attr := u32_of_lt hmem
  rw [parseRun, hstream, hend, Nat.add_zero, hstream, if_neg (by omega)]
  obtain ⟨chunk, hparse, -, hchunk, hlcn, hunalloc, halloc, hflag⟩ :=
    @parseDataRun_run _ 0 0 mappingChunkInit r _ hpairs (Nat.le_refl 0)
  have hstart : nextLcn mappingChunkInit.lcn r = r.start 0 := nextLcn_eq hdelta h.inRange.1
  have hne : chunk.lcn ≠ 0 := by
    rw [hlcn, hstart]
    exact hpos.ne'
  refine ⟨chunk, ?_, hchunk, ?_, ?_, hflag, halloc.mpr hne⟩
  · rw [hparse, Nat.zero_add, u32_of_lt (by omega)]
  · rw [hlcn, hstart, Run.first]
    exact (Int.toNat_of_nonneg hpos.le).symm
  · exact not_not.mp fun hflag => hne (hunalloc.mp hflag)

/-- The search in a list that is not resident goes over its runs. -/
theorem NonResidentAt.listSearch_eq (n : Nat) : listSearch v type n mem attr =
    runLoop (listRunStep v type (entriesLen es) mem (u32 (attr + Attr.mappingPairsOffset mem attr))
      (u32 (attr + Attr.len mem attr)) n) n (0, mappingChunkInit) := by
  rw [listSearch, if_neg h.nonResident, h.dataSize,
    u32_of_lt ((Nat.le_add_left _ _).trans_lt h.buffer)]

/-- The search ends in a block that it comes to. -/
theorem NonResidentAt.search_stop (vcn : Nat) {m : Nat} {result : Option Nat}
    (hreach : ∀ chunk : MappingChunk, chunk.len = readLen r.len → chunk.lcn = (r.first : Int) →
      ReflTransGen (Goes (blockStep v type (entriesLen es) chunk)) 0 vcn)
    (hvcn : vcn < readLen r.len)
    (hblock : listBlock v type (entriesLen es) m ((r.first + vcn : Nat) : Int) = .stop result) :
    ∃ n, listSearch v type n mem attr = some result := by
  obtain ⟨chunk, hparse, hlen, hlcn, hunalloc, hend, halloc⟩ := h.parse_first
  have hstep : blockStep v type (entriesLen es) chunk m vcn = .stop (some result) := by
    rw [blockStep, hlen, if_pos hvcn, hlcn, ← Int.natCast_add, hblock]
  have hsteady := blockStep_steady v type (entriesLen es) chunk
  obtain ⟨k, hrun⟩ := hsteady.ends_of_reaches (hreach chunk hlen hlcn) (hsteady.ends_of_stop hstep)
  have hstop : listRunStep v type (entriesLen es) mem
      (u32 (attr + Attr.mappingPairsOffset mem attr)) (u32 (attr + Attr.len mem attr)) k
      (0, mappingChunkInit) = .stop result := by
    rw [listRunStep, hparse]
    dsimp only
    rw [if_neg (not_not.mpr hunalloc), if_neg (not_not.mpr hend), if_pos halloc, hrun]
  obtain ⟨n, hsearch⟩ := (listRunStep_steady _ _ _ _ _ _).ends_of_stop hstop
  exact ⟨n, (h.listSearch_eq n).trans hsearch⟩

/-- The search does not end behind a block that hangs. -/
theorem NonResidentAt.search_hang (vcn : Nat)
    (hreach : ∀ chunk : MappingChunk, chunk.len = readLen r.len → chunk.lcn = (r.first : Int) →
      ReflTransGen (Goes (blockStep v type (entriesLen es) chunk)) 0 vcn)
    (hvcn : vcn < readLen r.len)
    (hblock : ∀ m, listBlock v type (entriesLen es) m ((r.first + vcn : Nat) : Int) = .hang)
    (n : Nat) : listSearch v type n mem attr = none := by
  obtain ⟨chunk, hparse, hlen, hlcn, hunalloc, hend, halloc⟩ := h.parse_first
  have hhang : ∀ m, runLoop (blockStep v type (entriesLen es) chunk m) m 0 = none := by
    intro m
    refine (blockStep_steady _ _ _ _).runLoop_hang (hreach chunk hlen hlcn) (fun n => ?_) m m
    rw [blockStep, hlen, if_pos hvcn, hlcn, ← Int.natCast_add, hblock]
  rw [h.listSearch_eq]
  refine (listRunStep_steady _ _ _ _ _ _).runLoop_hang .refl (fun m => ?_) n n
  rw [listRunStep, hparse]
  dsimp only
  rw [if_neg (not_not.mpr hunalloc), if_neg (not_not.mpr hend), if_pos halloc, hhang]

/-- The block behind the first one is searched when that one has no entry of the type. -/
theorem NonResidentAt.goes_behind (hcache : v.fs.blockShift < 16) {m : Nat}
    (hblock : listBlock v type (entriesLen es) m (r.first : Int) = .next ()) (chunk : MappingChunk)
    (hlen : chunk.len = readLen r.len) (hlcn : chunk.lcn = (r.first : Int)) :
    Goes (blockStep v type (entriesLen es) chunk) 0 (v.fs.blockSize / v.fs.clustSize) := by
  have hsize : v.fs.blockSize < 2 ^ 64 := Nat.pow_lt_pow_right (by decide) (by omega)
  refine ⟨m, ?_⟩
  rw [blockStep, hlen, if_pos (readLen_pos r.len_le h.allocated.2.1), hlcn,
    Int.natCast_zero, Int.add_zero, hblock, Nat.zero_add,
    u64_of_lt ((Nat.div_le_self _ _).trans_lt hsize)]

end NonResident

/-- A list in one run of no more than a block is searched when its block has no entry of the
type. -/
theorem NonResidentAt.search_one {r : Run} (h : NonResidentAt v mem attr [r] es)
    (hcache : v.fs.blockShift < 16) (hrun : readLen r.len ≤ v.fs.blockSize / v.fs.clustSize)
    {m : Nat} (hblock : listBlock v type (entriesLen es) m (r.first : Int) = .next ()) :
    ∃ n, listSearch v type n mem attr = some none := by
  obtain ⟨chunk, hparse, hlen, hlcn, hunalloc, hend, halloc⟩ := h.parse_first
  have hmem := h.inMemory
  have hfits := h.fits
  have hpairs := h.pairs
  have hlength := length_bytes r
  have hlenLe := r.len_le
  have hdeltaLe := r.delta_le
  have hsteady := blockStep_steady v type (entriesLen es) chunk
  have hbehind : blockStep v type (entriesLen es) chunk 0 (v.fs.blockSize / v.fs.clustSize) =
      .stop none := by
    rw [blockStep, hlen, if_neg (Nat.not_lt.mpr hrun)]
  obtain ⟨k, hblocks⟩ := hsteady.ends_of_goes (h.goes_behind hcache hblock chunk hlen hlcn)
    (hsteady.ends_of_stop hbehind)
  have hrunSteady := listRunStep_steady v type (entriesLen es) mem
    (u32 (attr + Attr.mappingPairsOffset mem attr)) (u32 (attr + Attr.len mem attr))
  -- the mapping pairs end behind the run
  have hlast : listRunStep v type (entriesLen es) mem
      (u32 (attr + Attr.mappingPairsOffset mem attr)) (u32 (attr + Attr.len mem attr)) 0
      (r.bytes.length, chunk) = .stop none := by
    rw [encodeRuns_cons, List.append_assoc] at hpairs
    rw [encodeRuns_cons, List.length_append] at hfits
    have hzero := hpairs.append.2.cons.1
    rw [Nat.zero_add] at hzero
    have hstream : u32 (attr + Attr.mappingPairsOffset mem attr) =
        attr + Attr.mappingPairsOffset mem attr := u32_of_lt (by omega)
    have hendAt : u32 (attr + Attr.len mem attr) = attr + Attr.len mem attr := u32_of_lt hmem
    have hoffset : u32 (attr + Attr.mappingPairsOffset mem attr + r.bytes.length) =
        attr + Attr.mappingPairsOffset mem attr + r.bytes.length := u32_of_lt (by omega)
    obtain ⟨chunk', hparse', hunalloc', -, hend'⟩ :=
      @parseDataRun_end (fun i => mem (u32 (attr + Attr.mappingPairsOffset mem attr + i)))
        r.bytes.length r.bytes.length chunk hzero
    rw [listRunStep, parseRun, hstream, hendAt]
    dsimp only
    rw [hoffset, if_neg (by omega), hparse']
    dsimp only
    rw [if_neg (not_not.mpr hunalloc'), if_pos hend']
  obtain ⟨n, hsearch⟩ := hrunSteady.ends_of_goes (s := (0, mappingChunkInit))
    (t := (r.bytes.length, chunk)) ⟨k, by
      rw [listRunStep, hparse]
      dsimp only
      rw [if_neg (not_not.mpr hunalloc), if_neg (not_not.mpr hend), if_pos halloc, hblocks]⟩
    (hrunSteady.ends_of_stop hlast)
  exact ⟨n, (h.listSearch_eq n).trans hsearch⟩

/-! ## The block at the first cluster -/

section FirstBlock

variable {r : Run} {rs : List Run}

/-- The front of a list lies in this block and in the first run. -/
theorem clusterMem_first (v : Mount) (rs : List Run) {i : Nat} (hblock : i < v.fs.blockSize)
    (hrun : i < leNat r.len * v.fs.clustSize) :
    v.clusterMem r.first (v.buf + i) = runByte v.fs v.disk (r :: rs) (0 + i) := by
  rw [clusterMem_add v r.first hblock, Nat.zero_add, runByte_first v.fs v.disk rs hrun]

variable (h : NonResidentAt v mem attr (r :: rs) es)

include h

/-- An entry in the first block is found. -/
theorem NonResidentAt.block_found (hcache : v.fs.blockShift < 16) {o : Nat}
    (ho : entryOffset type es = some o) (hblock : o + 24 ≤ v.fs.blockSize)
    (hrun : o + 24 ≤ leNat r.len * v.fs.clustSize) :
    ∃ m e, e ∈ es ∧ es.find? (fun e => e.type = type) = some e ∧
      listBlock v type (entriesLen es) m (r.first : Int) = .stop (some e.mftRef) := by
  obtain ⟨-, -, htwo, -, -⟩ := h.sizes
  obtain ⟨before, e, after, rfl, htype, hbefore, rfl⟩ := entryOffset_some ho
  have hbuffer := h.buffer
  have hlen := e.length_ge
  have hsize : entriesLen (before ++ e :: after) =
      entriesLen before + (e.length + entriesLen after) := entriesLen_append before (e :: after)
  have hsplit : before ++ e :: after = (before ++ [e]) ++ after := by
    rw [List.append_assoc, List.singleton_append]
  have hheaders := h.headers
  rw [hsplit] at hheaders
  have hfront : HeadersAt (v.clusterMem r.first) v.buf (before ++ [e]) := by
    refine headersAt_congr (k := entriesLen before + 24) (headersAt_append.mp hheaders).1 ?_ ?_
    · intro i hi
      exact clusterMem_first v rs (by omega) (by omega)
    · intro _
      rw [List.dropLast_concat]
      omega
  have href : AttrListEntry.mftRef (v.clusterMem r.first) (v.buf + entriesLen before) =
      e.mftRef := by
    obtain ⟨-, href, -⟩ := refsAt_append.mp h.refs
    rw [← href]
    refine memLe_congr fun i hi => ?_
    rw [Nat.add_assoc, Nat.add_assoc, Nat.add_assoc, Nat.add_assoc]
    exact clusterMem_first v rs (by omega) (by omega)
  obtain ⟨m, hrunLoop⟩ := listLoop_found (v.buf + entriesLen (before ++ e :: after)) hfront
    hbefore htype (by omega) h.buffer
  refine ⟨m, e, List.mem_append_right _ List.mem_cons_self, ?_, ?_⟩
  · rw [List.find?_eq_some_iff_append]
    refine ⟨decide_eq_true htype, before, after, rfl, fun x hx => ?_⟩
    rw [Bool.not_eq_true', decide_eq_false_iff_not]
    exact hbefore x hx
  · rw [listBlock_eq hcache htwo h.first_lt h.buffer, hrunLoop, href]

/-- The first entries have their headers in this block when they begin there. -/
theorem NonResidentAt.headers_first {xs ys : List ListEntry} (hsplit : es = xs ++ ys)
    (hne : xs ≠ []) (hlast : entriesLen xs.dropLast < v.fs.blockSize)
    (hrun : entriesLen es ≤ leNat r.len * v.fs.clustSize) :
    HeadersAt (v.clusterMem r.first) v.buf xs := by
  obtain ⟨-, hdvd, -⟩ := h.sizes
  have haligned := entriesLen_dvd xs.dropLast
  have hroom := entriesLen_dropLast hne
  have hheaders := h.headers
  rw [hsplit, entriesLen_append] at hrun
  rw [hsplit] at hheaders
  refine headersAt_congr (k := entriesLen xs.dropLast + 6) (headersAt_append.mp hheaders).1 ?_
    fun _ => Nat.le_refl _
  intro i hi
  exact clusterMem_first v rs (by omega) (by omega)

/-- A block without the entry is got through when its entries end in it. -/
theorem NonResidentAt.block_none (hcache : v.fs.blockShift < 16)
    (ho : entryOffset type es = none) (hne : es ≠ [])
    (hlast : entriesLen es.dropLast < v.fs.blockSize)
    (hrun : entriesLen es ≤ leNat r.len * v.fs.clustSize) :
    ∃ m, listBlock v type (entriesLen es) m (r.first : Int) = .next () := by
  obtain ⟨-, -, htwo, -, -⟩ := h.sizes
  have hmiss : ∀ o, entryOffset type es = some o → v.buf + entriesLen es ≤ v.buf + o := by
    intro o ho'
    rw [ho] at ho'
    cases ho'
  obtain ⟨m, hrunLoop⟩ := listLoop_none (v.buf + entriesLen es)
    (h.headers_first (List.append_nil es).symm hne hlast hrun) hmiss (Nat.le_refl _) h.buffer
  exact ⟨m, by rw [listBlock_eq hcache htwo h.first_lt h.buffer, hrunLoop]⟩

end FirstBlock

/-- The list covers one run. -/
theorem NonResidentAt.one_covers {r : Run} (h : NonResidentAt v mem attr [r] es) :
    entriesLen es ≤ leNat r.len * v.fs.clustSize := by
  have hcovers := h.covers
  have hlen : (runClusters [r]).length = leNat r.len := by
    rw [runClusters, meaning, meaning, List.flatMap_cons, List.flatMap_nil, List.append_nil,
      List.length_map, List.length_range]
  rwa [hlen] at hcovers

/-- An entry without a place is not in the list. -/
theorem find?_of_entryOffset_none (h : entryOffset type es = none) :
    es.find? (fun e => e.type = type) = none := by
  rw [List.find?_eq_none]
  intro e he
  rw [decide_eq_true_eq]
  exact entryOffset_eq_none_iff.mp h e he

/-- A list that is read gives the reference in the first entry of the type. -/
theorem listSearch_of_listRead (h : ListAt v mem attr l) (hread : ListRead v.fs type l) :
    ∃ n, listSearch v type n mem attr =
      some ((l.entries.find? fun e => e.type = type).map ListEntry.mftRef) := by
  obtain ⟨es, place, hne⟩ := l
  rw [ListRead] at hread
  cases place with
  | resident valueOffset =>
    change ResidentAt mem attr valueOffset es at h
    dsimp only at hread ⊢
    cases ho : entryOffset type es with
    | none =>
      have hmiss : ∀ o, entryOffset type es = some o → entriesLen es ≤ valueOffset + o := by
        intro o ho'
        rw [ho] at ho'
        cases ho'
      obtain ⟨n, hsearch⟩ := resident_missed (v := v) h hmiss
      refine ⟨n, ?_⟩
      rw [hsearch, find?_of_entryOffset_none ho, Option.map_none]
    | some o =>
      obtain ⟨n, e, -, hfind, hsearch⟩ := resident_found (v := v) h ho (hread o ho)
      refine ⟨n, ?_⟩
      rw [hsearch, hfind, Option.map_some]
  | nonResident runs =>
    change NonResidentAt v mem attr runs es at h
    dsimp only at hread ⊢
    obtain ⟨hcache, hread⟩ := hread
    cases ho : entryOffset type es with
    | none =>
      rw [ho] at hread
      obtain ⟨hlast, r, rfl, hone⟩ := hread
      obtain ⟨m, hblock⟩ := h.block_none hcache ho hne hlast h.one_covers
      obtain ⟨n, hsearch⟩ := h.search_one hcache hone hblock
      refine ⟨n, ?_⟩
      rw [hsearch, find?_of_entryOffset_none ho, Option.map_none]
    | some o =>
      rw [ho] at hread
      obtain ⟨r, hhead, hblock, hrun⟩ := hread
      obtain ⟨rs, rfl⟩ := List.head?_eq_some_iff.mp hhead
      obtain ⟨m, e, -, hfind, hstop⟩ := h.block_found hcache ho hblock hrun
      obtain ⟨n, hsearch⟩ := h.search_stop 0 (fun _ _ _ => .refl)
        (readLen_pos r.len_le h.allocated.2.1) hstop
      refine ⟨n, ?_⟩
      rw [hsearch, hfind, Option.map_some]

/-! ## The records -/

/-- An attribute is not found if no header has its type. -/
theorem Mrec.find_eq_none_iff : mrec.find attrs type = none ↔ ∀ h ∈ attrs, h.type ≠ type :=
  firstAttrAt_eq_none_iff

/-- An attribute that is in the record is found there. -/
theorem recordStep_found (h : RecordAt mrec attrs) (htype : type ≠ atAttrList)
    (hfind : mrec.find attrs type = some attr) :
    ∃ n, recordStep v type n mrec = .stop (some (mrec, attr)) := by
  obtain ⟨n, list, hrun, hne⟩ := attrLoop_found h.attrs htype hfind none
  refine ⟨n, ?_⟩
  rw [recordStep, Mrec.firstAttr, u32_of_lt h.inMemory, hrun]
  exact if_neg hne

/-- Without an attribute list nothing more is found. -/
theorem recordStep_none (h : RecordAt mrec attrs)
    (hnone : type = atAttrList ∨ mrec.find attrs type = none)
    (hlist : ∀ h ∈ attrs, h.type ≠ atAttrList) :
    ∃ n, recordStep v type n mrec = .stop none := by
  obtain ⟨n, p, hrun, hend⟩ := attrLoop_end h.attrs hnone none
  rw [lastListAt_none (firstAttrAt_eq_none_iff.mpr hlist)] at hrun
  refine ⟨n, ?_⟩
  rw [recordStep, Mrec.firstAttr, u32_of_lt h.inMemory, hrun]
  exact if_pos hend

/-- In front of the list in the base record. -/
theorem FileAt.recordStep_eq (hs : FileAt v mrec f) {list : Nat}
    (hnone : type = atAttrList ∨ mrec.find f.attrs type = none)
    (hlist : mrec.find f.attrs atAttrList = some list) :
    ∃ n, ∀ m, recordStep v type (max n m) mrec =
      match ntfsAttrListLookup v type (max n m) list mrec with
      | none => .hang
      | some none => .stop none
      | some (some retval) => .next retval := by
  obtain ⟨n, p, hrun, hend⟩ := attrLoop_end hs.record.attrs hnone none
  rw [lastListAt_eq hs.oneList] at hrun
  change firstAttrAt _ _ _ = _ at hlist
  rw [hlist] at hrun
  refine ⟨n, fun m => ?_⟩
  have hmore := runLoop_add hrun (max n m - n)
  rw [Nat.add_sub_cancel' (Nat.le_max_left n m)] at hmore
  rw [recordStep, Mrec.firstAttr, u32_of_lt hs.record.inMemory, hmore]
  exact if_pos hend

/-- The number of a record has 32 bits. -/
theorem Mrec.mftRecordNo_lt (mrec : Mrec) : mrec.mftRecordNo < 2 ^ 32 := memLe_lt _ _ 4

/-- A reference with a sequence number is not the number of a record. -/
theorem Mrec.mftRecordNo_ne (mrec : Mrec) (e : ListEntry) : mrec.mftRecordNo ≠ e.mftRef := by
  have hlt := mrec.mftRecordNo_lt
  have hge := e.mftRef_ge
  omega

/-- The record that a list names is looked up by its number. -/
theorem ntfsAttrListLookup_found {list number : Nat} (hnumber : e.number = number)
    (hsearch : ∃ n, listSearch v type n mrec.mem list = some (some e.mftRef))
    (hlookup : ∃ n, v.mftRecordLookup n number = some (some ext)) :
    ∃ n, ntfsAttrListLookup v type n list mrec = some (some ext) := by
  obtain ⟨m, hsearch⟩ := hsearch
  obtain ⟨n, hlookup⟩ := hlookup
  refine ⟨max m n, ?_⟩
  rw [ntfsAttrListLookup, listSearch_le (Nat.le_max_left m n) hsearch]
  dsimp only
  rw [if_neg (mrec.mftRecordNo_ne e), e.u32_mftRef, hnumber]
  exact v.lookup_le (Nat.le_max_right m n) hlookup

/-- A lookup that ends in the first record. -/
theorem lookup_of_stop {result : Option (Mrec × Nat)} (hend : type ≠ atEnd)
    (hstep : ∃ n, recordStep v type n mrec = .stop result) :
    ∃ n, ntfsAttrLookup v type n mrec = some result := by
  obtain ⟨m, hm⟩ := hstep
  simp only [ntfsAttrLookup, if_neg hend]
  exact (recordStep_steady v type).ends_of_stop hm

/-- A lookup that goes on in another record. -/
theorem lookup_of_goes {result : Option (Mrec × Nat)} (hend : type ≠ atEnd)
    (hstep : ∃ n, recordStep v type n mrec = .next ext)
    (hrest : ∃ n, recordStep v type n ext = .stop result) :
    ∃ n, ntfsAttrLookup v type n mrec = some result := by
  obtain ⟨m, hm⟩ := hrest
  simp only [ntfsAttrLookup, if_neg hend]
  exact (recordStep_steady v type).ends_of_goes hstep ((recordStep_steady v type).ends_of_stop hm)

/-- The lookup is right under the condition. -/
theorem findsAttr_of_found (hs : FileAt v mrec f) (hfound : Found v.fs type f) :
    FindsAttr v mrec f type := by
  obtain ⟨htype, hread⟩ := hfound
  by_cases hend : type = atEnd
  · -- no attribute and no entry has this type
    have hnone : mrec.find f.attrs type = none := by
      rw [Mrec.find_eq_none_iff, hend]
      exact fun h _ => h.type_ne
    have hentry : f.entry type = none := by
      rw [FileRecord.entry, Option.bind_eq_none_iff]
      intro l _
      rw [List.find?_eq_none, hend]
      intro e _
      rw [decide_eq_true_eq]
      exact e.type_ne
    refine ⟨0, none, if_pos hend, ?_⟩
    rw [Right, hnone]
    dsimp only
    rw [hentry]
  have hread' := hread.resolve_left hend
  cases hfind : mrec.find f.attrs type with
  | some attr =>
    have hne : type ≠ atAttrList := by
      intro heq
      have hno : mrec.find f.attrs atAttrList = none :=
        Mrec.find_eq_none_iff.mpr (hs.noList (htype heq))
      rw [← heq, hfind] at hno
      cases hno
    obtain ⟨n, hlookup⟩ := lookup_of_stop hend (recordStep_found (v := v) hs.record hne hfind)
    refine ⟨n, _, hlookup, ?_⟩
    rw [Right, hfind]
  | none =>
    cases hlist : f.list with
    | none =>
      obtain ⟨n, hlookup⟩ := lookup_of_stop hend
        (recordStep_none (v := v) hs.record (Or.inr hfind) (hs.noList hlist))
      refine ⟨n, _, hlookup, ?_⟩
      rw [Right, hfind, FileRecord.entry, hlist]
      rfl
    | some l =>
      have hbase : ∀ h ∈ f.attrs, h.type ≠ type := Mrec.find_eq_none_iff.mp hfind
      have hlistRead := hread'.resolve_left (fun ⟨h, hmem, heq⟩ => hbase h hmem heq) l hlist
      obtain ⟨list, hat, hl⟩ := hs.list l hlist
      obtain ⟨n, hstep⟩ := hs.recordStep_eq (v := v) (Or.inr hfind) hat
      obtain ⟨m, hsearch⟩ := listSearch_of_listRead (v := v) hl hlistRead
      have hentry : f.entry type = l.entries.find? fun e => e.type = type := by
        rw [FileRecord.entry, hlist]
        rfl
      cases he : l.entries.find? fun e => e.type = type with
      | none =>
        rw [he] at hsearch hentry
        have hstop : recordStep v type (max n m) mrec = .stop none := by
          rw [hstep, ntfsAttrListLookup, listSearch_le (Nat.le_max_right n m) hsearch]
          rfl
        obtain ⟨k, hlookup⟩ := lookup_of_stop hend ⟨_, hstop⟩
        refine ⟨k, _, hlookup, ?_⟩
        rw [Right, hfind]
        dsimp only
        rw [hentry]
      | some e =>
        rw [he] at hsearch hentry
        have hetype : e.type = type := by simpa using List.find?_some he
        obtain ⟨ext, attrs, attr, hext⟩ := hs.extension l hlist e (List.mem_of_find?_eq_some he)
          (by rw [hetype]; exact hbase)
        rw [hetype] at hext
        have hne : type ≠ atAttrList := by
          intro heq
          have hno := htype heq
          rw [hlist] at hno
          cases hno
        obtain ⟨k, hk⟩ := ntfsAttrListLookup_found rfl ⟨m, hsearch⟩ hext.lookup
        obtain ⟨i, hlookup⟩ := lookup_of_goes (v := v) hend ⟨max n k, by
            rw [hstep, ntfsAttrListLookup_le (Nat.le_max_right n k) hk]⟩
          (recordStep_found hext.record hne hext.first)
        refine ⟨i, _, hlookup, ?_⟩
        rw [Right, hfind]
        dsimp only
        rw [hentry]
        exact ⟨ext, attrs, attr, hext, rfl⟩

end Liigboot.Fs.Ntfs
