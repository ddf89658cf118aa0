import Liigboot.Fs.Ntfs.IndexLookup

/-!
# NTFS directories

The names of a directory are in a B-tree: its root is in the MFT record, the other nodes are in the
blocks of an index that lies in some runs of clusters. A block of the index need not be in use.
`ntfs_index_lookup` finds an entry when the blocks that it reads are those in use, and then returns
an inode when the record that the first entry with the name refers to can be opened.
-/

namespace Liigboot.Fs.Ntfs

/-! ## Directories -/

/-- The sizes of a volume, the runs of the index of a directory there, and the index blocks in
use. -/
structure Layout where
  ntfs : Bpb
  sectorShift : Nat
  runs : List Run
  used : Nat → Bool

namespace Layout

variable (l : Layout)

def fs : FsInfo := ntfsFsInit l.ntfs l.sectorShift

/-- The size of an index block: a number of clusters, or a power of two with a negative number. -/
def recordSize : Nat :=
  if l.ntfs.clustPerIdxRecord < 0x80 then l.ntfs.clustPerIdxRecord.toNat * l.fs.clustSize
  else 2 ^ (256 - l.ntfs.clustPerIdxRecord.toNat)

/-- The clusters of the index. -/
def clusters : List Nat :=
  (meaning 0 l.runs).flatMap fun d => (List.range d.len).map fun i => d.lcn.toNat + i

/-- The place of a byte of the index on the disk. -/
def pos (x : Nat) : Nat :=
  l.clusters.getD (x / l.fs.clustSize) 0 * l.fs.clustSize + x % l.fs.clustSize

/-- An index block. -/
def record (disk : Disk) (b : Nat) : List UInt8 :=
  (List.range l.recordSize).map fun i => disk (l.pos (b * l.recordSize + i))

/-- The distance of two index blocks in the numbers that the entries hold: in clusters, or in
units of 512 bytes when a block is smaller than a cluster. -/
def vcnStep : Nat := l.recordSize / if l.fs.clustSize ≤ l.recordSize then l.fs.clustSize else 512

/-- The sizes are powers of two, and the runs hold whole index blocks. -/
structure WellFormed : Prop where
  sector : 9 ≤ l.sectorShift
  secPerClust : ∃ k, l.ntfs.secPerClust.toNat = 2 ^ k
  idxRecord : (l.ntfs.clustPerIdxRecord < 0x80 ∧ ∃ k, l.ntfs.clustPerIdxRecord.toNat = 2 ^ k) ∨
    (0x80 ≤ l.ntfs.clustPerIdxRecord ∧ l.fs.sectorSize ≤ l.recordSize ∧
      l.recordSize < l.fs.clustSize)
  allocated : Allocated 0 l.runs
  inRange : InRange 0 l.runs
  pairs : (encodeRuns l.runs).length < 2 ^ 16
  nodup : l.clusters.Nodup
  volume : ∀ k ∈ l.clusters, (k + 1) * l.fs.clustSize ≤ 2 ^ 62
  size : l.clusters.length * l.fs.clustSize ≤ 2 ^ 62
  whole : l.recordSize ∣ l.clusters.length * l.fs.clustSize
  used : ∀ b, l.used b = true → (b + 1) * l.recordSize ≤ l.clusters.length * l.fs.clustSize

/-- The clusters at which the lookup reads blocks. -/
def reads : List Int := readsFrom (l.fs.blockSize / l.fs.clustSize) 0 l.runs

/-- A block that the lookup reads at a cluster is the block `b`: it lies in the clusters from
there on. -/
def Starts (b k : Nat) : Prop :=
  ∀ j < l.fs.blockSize / l.fs.clustSize,
    l.clusters[b * (l.fs.blockSize / l.fs.clustSize) + j]? = some (k + j)

/-- The lookup reads the blocks in use, and no others. -/
structure Readable : Prop where
  cached : l.fs.blockShift < 16
  only : ∀ k ∈ l.reads, ∃ b k', l.used b = true ∧ k = (k' : Nat) ∧ l.Starts b k'
  all : ∀ b, l.used b = true → ∃ k : Nat, (k : Int) ∈ l.reads ∧ l.Starts b k

/-- The block in use whose first cluster is the one at which a block is read. -/
def blockAt (lcn : Int) : Option Nat :=
  (List.range l.clusters.length).find? fun b =>
    l.used b && decide (l.clusters[b * (l.fs.blockSize / l.fs.clustSize)]? = some lcn.toNat)

end Layout

/-- The children of a node. -/
def Node.children (node : Node) : List Nat :=
  node.entries.filterMap IndexEntry.child ++ node.last.toList

/-- A node has a child at each of its entries, or none. -/
def Node.Uniform (node : Node) : Prop :=
  ∀ e ∈ node.entries, e.child.isSome = node.last.isSome

/-- The B-tree of a directory: its root, and the nodes in its index blocks. -/
structure Directory where
  root : Node
  node : Nat → Node

/-- The index blocks of the tree. -/
inductive Directory.InTree (d : Directory) (vcnStep : Nat) : Nat → Prop
  | root {b : Nat} (h : b * vcnStep ∈ d.root.children) : d.InTree vcnStep b
  | child {a b : Nat} (ha : d.InTree vcnStep a) (h : b * vcnStep ∈ (d.node a).children) :
      d.InTree vcnStep b

/-- An entry of the tree. -/
def Directory.HasEntry (d : Directory) (vcnStep : Nat) (e : IndexEntry) : Prop :=
  e ∈ d.root.entries ∨ ∃ b, d.InTree vcnStep b ∧ e ∈ (d.node b).entries

/-- The record that an entry refers to. The number of a record has 32 bits. -/
def IndexEntry.mftNo (e : IndexEntry) : Nat := u32 e.indexedFile

/-- The attribute with the runs of an index. -/
structure AllocationAt (mrec : List UInt8) (attr : Nat) (runs : List Run) : Prop where
  nonResident : nonResident mrec attr ≠ 0
  pairs : At (pairsStream mrec attr) 0 (encodeRuns runs ++ [0])
  fits : mappingPairsOffset mrec attr + (encodeRuns runs).length ≤ attrLen mrec attr

/-- A directory on a volume. The blocks that are not in use hold any bytes. -/
structure Stored (l : Layout) (v : Volume) (mftNo : Nat) (d : Directory) : Prop where
  fs : v.fs = l.fs
  root : ∃ lmrec mrec attr, v.mftRecordLookup mftNo = some lmrec ∧
    v.ntfsAttrLookup atIndexRoot lmrec lmrec = some (mrec, attr) ∧
    NodeAt mrec (rootIndex mrec attr) d.root ∧
    (l.runs ≠ [] → ∃ mrec' attr', v.ntfsAttrLookup atIndexAllocation mrec lmrec =
      some (mrec', attr') ∧ AllocationAt mrec' attr' l.runs)
  magic : ∀ b, l.used b = true → magic (l.record v.disk b) = magicIndx
  fixups : ∀ b, l.used b = true → ValidFixups l.fs.sectorSize (l.record v.disk b)
  node : ∀ b, l.used b = true →
    NodeAt (applyFixups l.fs.sectorSize (l.record v.disk b)) 24 (d.node b)
  tree : ∀ b, l.used b = true ↔ d.InTree l.vcnStep b
  uniform : d.root.Uniform ∧ ∀ b, l.used b = true → (d.node b).Uniform
  children : ∀ vcn ∈ d.root.children, ∃ b, vcn = b * l.vcnStep

/-- The lookup returns the inode of an entry of the tree that matches, and none when there is no
such entry. -/
def Answers (l : Layout) (v : Volume) (mftNo : Nat) (d : Directory) (dname : List UInt8) : Prop :=
  (∃ e inode, d.HasEntry l.vcnStep e ∧ e.Matches dname ∧
    ntfsIndexLookup v dname mftNo = some (some inode) ∧ inode.mftNo = e.mftNo) ∨
  ((∀ e, d.HasEntry l.vcnStep e → ¬e.Matches dname) ∧ ntfsIndexLookup v dname mftNo = some none)

/-! ## Sizes -/

variable {l : Layout} {v : Volume} {d : Directory} {mftNo : Nat} {dname : List UInt8}

namespace Layout

/-- Sectors have 512 bytes at least. -/
theorem sectorSize_ge (hl : l.WellFormed) : 512 ≤ l.fs.sectorSize :=
  Nat.pow_le_pow_right (by decide : 0 < 2) hl.sector

/-- Clusters have 512 bytes at least, as a shift. -/
theorem clustByteShift_ge (hl : l.WellFormed) : 9 ≤ l.fs.clustByteShift :=
  hl.sector.trans (Nat.le_add_left _ _)

/-- Clusters have 512 bytes at least. -/
theorem clustSize_ge (hl : l.WellFormed) : 512 ≤ l.fs.clustSize :=
  Nat.pow_le_pow_right (by decide : 0 < 2) (clustByteShift_ge hl)

/-- A block of the cache is an index block, when the cache has blocks of that size. -/
theorem blockSize_eq (hl : l.WellFormed) (hcache : l.fs.blockShift < 16) :
    l.fs.blockSize = l.recordSize ∧
      l.fs.blockSize = l.fs.blockSize / l.fs.clustSize * l.fs.clustSize ∧
      0 < l.fs.blockSize / l.fs.clustSize := by
  have hshift : l.fs.blockShift =
      Nat.log2 l.ntfs.clustPerIdxRecord.toNat + l.fs.clustByteShift := rfl
  have hclust := clustByteShift_ge hl
  have hpos : 0 < l.fs.clustSize := Nat.two_pow_pos _
  rcases hl.idxRecord with ⟨hlt, k, hk⟩ | ⟨hge, -⟩
  · rw [hk, Nat.log2_two_pow] at hshift
    have hblock : l.fs.blockSize = 2 ^ k * l.fs.clustSize := by
      rw [FsInfo.blockSize, hshift, Nat.pow_add, FsInfo.clustSize]
    have hdiv : l.fs.blockSize / l.fs.clustSize = 2 ^ k := by
      rw [hblock, Nat.mul_div_cancel _ hpos]
    refine ⟨?_, ?_, ?_⟩
    · rw [hblock, recordSize, if_pos hlt, hk]
    · rw [hdiv, hblock]
    · rw [hdiv]
      exact Nat.two_pow_pos k
  · -- A negative number is read as one that is at least 128.
    have hge' : 2 ^ 7 ≤ l.ntfs.clustPerIdxRecord.toNat := UInt8.le_iff_toNat_le.mp hge
    have hlog : 7 ≤ Nat.log2 l.ntfs.clustPerIdxRecord.toNat := (Nat.le_log2 (by omega)).mpr hge'
    omega

theorem step_pos (l : Layout) : 0 < l.fs.blockSize / l.fs.clustSize :=
  Nat.div_pos (Nat.pow_le_pow_right (by decide) (Nat.le_add_left _ _)) (Nat.two_pow_pos _)

theorem recordSize_pos (hl : l.WellFormed) : 0 < l.recordSize := by
  rw [recordSize]
  rcases hl.idxRecord with ⟨hlt, k, hk⟩ | ⟨hge, -⟩
  · rw [if_pos hlt, hk]
    exact Nat.mul_pos (Nat.two_pow_pos k) (Nat.two_pow_pos _)
  · rw [if_neg (UInt8.not_lt.mpr hge)]
    exact Nat.two_pow_pos _

/-- The bytes of a block that lies in the clusters from `k` on. -/
theorem record_eq (hl : l.WellFormed) (hcache : l.fs.blockShift < 16) {b k : Nat}
    (h : l.Starts b k) (disk : Disk) :
    l.record disk b = bytesAt disk (k * l.fs.clustSize) l.fs.blockSize := by
  obtain ⟨hrecord, hblock, -⟩ := blockSize_eq hl hcache
  have hpos : 0 < l.fs.clustSize := Nat.two_pow_pos _
  rw [record, ← hrecord, bytesAt]
  refine List.map_congr_left fun i hi => ?_
  rw [List.mem_range] at hi
  have hplace : b * l.fs.blockSize + i =
      l.fs.clustSize * (b * (l.fs.blockSize / l.fs.clustSize)) + i := by
    rw [Nat.mul_comm l.fs.clustSize, Nat.mul_assoc, ← hblock]
  have hi' : i / l.fs.clustSize < l.fs.blockSize / l.fs.clustSize := by
    rw [Nat.div_lt_iff_lt_mul hpos, ← hblock]
    exact hi
  rw [pos, hplace, Nat.mul_add_div hpos, Nat.mul_add_mod, List.getD_eq_getElem?_getD,
    h _ hi', Option.getD_some, Nat.add_mul, Nat.add_assoc, Nat.mul_comm (i / _),
    Nat.div_add_mod]

/-- One block starts at a cluster. -/
theorem starts_unique (hl : l.WellFormed) (hcache : l.fs.blockShift < 16) {a b k : Nat}
    (ha : l.Starts a k) (hb : l.Starts b k) : a = b := by
  obtain ⟨-, -, hstep⟩ := blockSize_eq hl hcache
  have hfirst := (ha 0 hstep).trans (hb 0 hstep).symm
  have hlt := (List.getElem?_eq_some_iff.mp (ha 0 hstep)).1
  have heq := (List.getElem?_inj hlt hl.nodup).mp hfirst
  exact Nat.eq_of_mul_eq_mul_right hstep heq

end Layout

/-- The last child is a child. -/
theorem last_mem_children {node : Node} {vcn : Nat} (h : node.last = some vcn) :
    vcn ∈ node.children := by
  rw [Node.children, h]
  exact List.mem_append_right _ List.mem_cons_self

/-- A root without children is the whole tree. -/
theorem not_inTree (hs : Stored l v mftNo d) (hlast : d.root.last = none) (b : Nat) :
    ¬d.InTree l.vcnStep b := by
  have hchildren : d.root.children = [] := by
    rw [Node.children, hlast, Option.toList_none, List.append_nil, List.filterMap_eq_nil_iff]
    intro e he
    have hchild := hs.uniform.1 e he
    rw [hlast] at hchild
    exact Option.isSome_eq_false_iff.mp hchild |> Option.isNone_iff_eq_none.mp
  intro h
  induction h with
  | root h =>
    rw [hchildren] at h
    exact absurd h List.not_mem_nil
  | child _ _ ih => exact ih

/-- A root with children has index blocks. -/
theorem runs_ne_nil (hl : l.WellFormed) (hs : Stored l v mftNo d) {vcn : Nat}
    (hlast : d.root.last = some vcn) : l.runs ≠ [] := by
  have hmem := last_mem_children hlast
  obtain ⟨b, rfl⟩ := hs.children vcn hmem
  have hused := (hs.tree b).mpr (.root hmem)
  have hfits := hl.used b hused
  have hrecord := Layout.recordSize_pos hl
  intro hnil
  have hclusters : l.clusters = [] := by rw [Layout.clusters, hnil, meaning, List.flatMap_nil]
  rw [hclusters, List.length_nil, Nat.zero_mul, Nat.add_one_mul] at hfits
  omega

/-- Behind a root with children, blocks are read one by one. -/
theorem ntfsIndexFind_blocks (hl : l.WellFormed) (hs : Stored l v mftNo d)
    (hascii : Ascii dname) (hfind : (d.root.entries.find? fun e => e.Matches dname) = none)
    {vcn : Nat} (hlast : d.root.last = some vcn) :
    ntfsIndexFind v dname mftNo =
      answered (readBlocks (indexBlock v.fs v.disk dname) l.reads) := by
  obtain ⟨lmrec, mrec, attr, hmft, hattr, hroot, halloc⟩ := hs.root
  obtain ⟨mrec', attr', hattr', halloc⟩ := halloc (runs_ne_nil hl hs hlast)
  have hfits := halloc.fits
  have hlen : attrLen mrec' attr' < 256 ^ 4 := readLe_lt mrec' (attr' + 4) 4
  rw [ntfsIndexFind, hmft]
  dsimp only
  rw [hattr]
  dsimp only
  rw [scanEntries_eq hroot hascii, hfind, hlast]
  dsimp only [Option.isSome_some]
  rw [hattr']
  dsimp only
  rw [if_neg halloc.nonResident, if_neg (by omega), hs.fs]
  exact chunkStep_readBlocks (Layout.step_pos l) halloc.pairs (by omega) (by omega) hl.inRange
    hl.allocated (by omega)

end Liigboot.Fs.Ntfs
