import Liigboot.Lib.Memory
import Liigboot.Fs.Ntfs.IndexLookup

/-!
# Reading a directory

`ntfs_readdir` returns an entry at each call. In the index root its place is an address in the
buffer that the directory's record was in at an earlier call. In the index blocks it is in a record
that all directories share: the number of the run, the cluster in the run, and the number of the
entry in the block there.
-/

namespace Liigboot.Fs.Ntfs

/-! ## The source -/

/-- `struct ntfs_readdir_state`. -/
structure ReaddirState where
  mftNo : Nat
  inIdxRoot : Bool
  idxBlksCount : Nat
  entriesCount : Nat
  lastVcn : Nat
  deriving DecidableEq, Repr

/-- `file->offset`, and what `readdir_state` points to. -/
structure DirState where
  offset : Nat
  readdirState : ReaddirState
  deriving DecidableEq, Repr

/-- `struct dirent`, with the bytes that are stored in `d_name`. -/
structure Dirent where
  dIno : Nat
  dOff : Nat
  dReclen : Nat
  isDirectory : Bool
  dName : List UInt8
  deriving DecidableEq, Repr

/-! `struct ntfs_idx_entry`, at an address -/

namespace IdxEntry

def indexedFile (mem : Memory) (ie : Nat) : Nat := memLe mem ie 8

def len (mem : Memory) (ie : Nat) : Nat := memLe mem (ie + 8) 2

def flags (mem : Memory) (ie : Nat) : Nat := memLe mem (ie + 12) 2

def fileNameLen (mem : Memory) (ie : Nat) : Nat := memLe mem (ie + 80) 1

end IdxEntry

/-- `ntfs_cvt_filename`: the characters that it stores in front of the zero. -/
def ntfsCvtFilename (mem : Memory) (ie : Nat) : List UInt8 :=
  (List.range (IdxEntry.fileNameLen mem ie)).map fun i =>
    UInt8.ofNat (memLe mem (ie + 82 + 2 * i) 2)

/-- `is_filename_printable`. -/
def isFilenamePrintable (s : List UInt8) : Bool := s.headD 0 != 0x2e && s.headD 0 != 0x24

/-- The code at `idx_root_next_entry`, in the root: the entry to return and the address behind it,
or the last entry. -/
def rootStep (mem : Memory) (offset : Nat) : Step Nat (Nat × Option Nat) :=
  if IdxEntry.flags mem offset &&& indexEntryEnd ≠ 0 then .stop (offset, none)
  else if isFilenamePrintable (ntfsCvtFilename mem offset) then
    .stop (offset, some (u32 (offset + IdxEntry.len mem offset)))
  else .next (u32 (offset + IdxEntry.len mem offset))

/-- The loop at `next_run`, for `count` more runs: there is no chunk when it goes to `out`. -/
def nextRun (mrec : List UInt8) (attr : Nat) : Nat → Nat → MappingChunk → Option MappingChunk
  | 0, _, chunk => some chunk
  | count + 1, offset, chunk =>
    -- The mapping pairs start behind the end of the attribute.
    if mappingPairsOffset mrec attr > attrLen mrec attr then none
    else
      match parseDataRun (pairsStream mrec attr) offset
        (attrLen mrec attr - mappingPairsOffset mrec attr) chunk with
      | (true, _, _) => none
      | (false, offset, chunk) =>
        if chunk.flags &&& mapUnallocated ≠ 0 then some chunk
        else if chunk.flags &&& mapEnd ≠ 0 then none
        else nextRun mrec attr count offset chunk

/-- How the loop at `idx_block_next_entry` ends. -/
inductive Skipped where
  | indexErr
  | last
  | entry (ie : Nat)
  deriving DecidableEq, Repr

/-- The loop at `idx_block_next_entry`, over `count` more entries of the block at `iblk`. -/
def skipEntries (mem : Memory) (iblk limit : Nat) : Nat → Nat → Skipped
  | 0, ie => .entry ie
  | count + 1, ie =>
    if ie < iblk ∨ u32 (ie + 16) > limit ∨ u32 (ie + IdxEntry.len mem ie) > limit then .indexErr
    else if IdxEntry.flags mem ie &&& indexEntryEnd ≠ 0 then .last
    else skipEntries mem iblk limit count (u32 (ie + IdxEntry.len mem ie))

/-- The labels behind `descend_into_child_node`: the chunk that is parsed, and the memory with the
block in the buffer. -/
inductive Label where
  | nextRun
  | nextVcn (chunk : MappingChunk)
  | idxBlockNextEntry (chunk : MappingChunk) (mem : Memory)

/-- What a call of `ntfs_readdir` finds: the memory, the buffer that it gets for the record with the
index root, and the place of its own buffer for a block. -/
structure Call where
  mem : Memory
  addr : Nat
  buf : Nat

/-- The memory in a call. -/
def Call.memory (c : Call) (mrec : List UInt8) : Memory := c.mem.write c.addr mrec

/-- The code behind a label, up to the next one: it ends at `done`, with the memory and the entry to
return, or at `out`. -/
def labelStep (fs : FsInfo) (disk : Disk) (mem : Memory) (buf : Nat) (mrec : List UInt8)
    (attr : Nat) (s : ReaddirState × Label) :
    Step (ReaddirState × Label) (ReaddirState × Option (Memory × Nat)) :=
  let st := s.1
  match s.2 with
  | .nextRun =>
    match nextRun mrec attr st.idxBlksCount 0 mappingChunkInit with
    | none => .stop (st, none)
    | some chunk =>
      if chunk.flags &&& mapUnallocated ≠ 0 then
        .next ({ st with idxBlksCount := u32 (st.idxBlksCount + 1) }, .nextRun)
      else .next (st, .nextVcn chunk)
  | .nextVcn chunk =>
    if st.lastVcn ≥ chunk.len then
      .next ({ st with lastVcn := 0, idxBlksCount := u32 (st.idxBlksCount + 1) }, .nextRun)
    else
      match ntfsRead fs disk fs.blockSize fs.blockSize (fs.blkOf (chunk.lcn + st.lastVcn)) 0
        (toU64 chunk.lcn) with
      | none => .hang
      | some none => .stop (st, none)
      | some (some r) =>
        match fixupsWriteback fs.sectorSize r.buf with
        | none => .hang
        | some iblk =>
          if magic iblk ≠ magicIndx then .stop (st, none)
          else .next (st, .idxBlockNextEntry chunk (mem.write buf iblk))
  | .idxBlockNextEntry chunk mem =>
    match skipEntries mem buf (u32 (buf + 24 + memLe mem (buf + 28) 4)) st.entriesCount
      (u32 (buf + 24 + memLe mem (buf + 24) 4)) with
    | .indexErr => .stop (st, none)
    | .last =>
      .next ({ st with
        lastVcn := u64 (st.lastVcn + fs.blockSize / fs.clustSize)
        entriesCount := 0 }, .nextVcn chunk)
    | .entry ie =>
      let st := { st with entriesCount := u32 (st.entriesCount + 1) }
      if IdxEntry.flags mem ie &&& indexEntryEnd ≠ 0 then .next (st, .nextVcn chunk)
      else if isFilenamePrintable (ntfsCvtFilename mem ie) then .stop (st, some (mem, ie))
      else .next (st, .idxBlockNextEntry chunk mem)

/-- The code at `out`. -/
def readdirOut (s : DirState) : DirState × Option Dirent :=
  ({ s with readdirState := { s.readdirState with inIdxRoot := true } }, none)

/-- The code at `done`. The name starts at offset 12. -/
def readdirDone (v : Volume) (s : DirState) (mem : Memory) (ie : Nat) : DirState × Option Dirent :=
  match v.mftRecordLookup (u32 (IdxEntry.indexedFile mem ie)) with
  | none => readdirOut s
  | some mrec => (s, some {
      dIno := u32 (IdxEntry.indexedFile mem ie)
      dOff := s.offset
      dReclen := 12 + (ntfsCvtFilename mem ie).length + 1
      isDirectory := isDirectory mrec
      dName := ntfsCvtFilename mem ie ++ [0] })

/-- The code from `descend_into_child_node` on, for a number of iterations. -/
def descendIntoChildNode (v : Volume) (n : Nat) (c : Call) (mem : Memory) (mrec lmrec : List UInt8)
    (s : DirState) (ie : Nat) : Option (DirState × Option Dirent) :=
  if IdxEntry.flags mem ie &&& indexEntryNode = 0 then some (readdirOut s)
  else
    match v.ntfsAttrLookup atIndexAllocation mrec lmrec with
    | none => some (readdirOut s)
    | some (mrec, attr) =>
      if nonResident mrec attr = 0 then some (readdirOut s)
      else
        match runLoop (labelStep v.fs v.disk mem c.buf mrec attr) n (s.readdirState, .nextRun) with
        | none => none
        | some (st, none) => some (readdirOut { s with readdirState := st })
        | some (st, some (mem, ie)) => some (readdirDone v { s with readdirState := st } mem ie)

/-- `ntfs_readdir`, for a number of iterations: the entry, or none at the end. There is no result
while it runs. -/
def ntfsReaddir (v : Volume) (mftNo n : Nat) (c : Call) (s : DirState) :
    Option (DirState × Option Dirent) :=
  match v.mftRecordLookup mftNo with
  | none => some (readdirOut s)
  | some lmrec =>
    match v.ntfsAttrLookup atIndexRoot lmrec lmrec with
    | none => some (readdirOut s)
    | some (mrec, attr) =>
      let mem := c.memory mrec
      if s.readdirState.inIdxRoot then
        let offset := if s.offset = 0 then
            u32 (c.addr + rootIndex mrec attr + readLe mrec (rootIndex mrec attr) 4)
          else s.offset
        match runLoop (rootStep mem) n offset with
        | none => none
        | some (ie, some offset) => some (readdirDone v { s with offset } mem ie)
        | some (ie, none) =>
          descendIntoChildNode v n c mem mrec lmrec
            ⟨0, ⟨s.readdirState.mftNo, false, 1, 0, 0⟩⟩ ie
      -- The pointer to the entry is NULL.
      else descendIntoChildNode v n c mem mrec lmrec s 0

/-- The part of `index_inode_setup` that a directory has: a state from `malloc`. -/
def indexInodeSetupDir (garbage : ReaddirState) (mftNo : Nat) (s : DirState) : DirState :=
  { s with readdirState := { garbage with mftNo, inIdxRoot := true } }

end Liigboot.Fs.Ntfs
