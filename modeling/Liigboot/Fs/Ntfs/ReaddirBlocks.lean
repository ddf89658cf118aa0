import Liigboot.Fs.Ntfs.ReaddirEntry

/-!
# The blocks that are read

From a place in the index blocks on, `ntfs_readdir` gets to the next printable entry of the blocks
that it has yet to read, and stores the place behind it.
-/

namespace Liigboot.Fs.Ntfs

open Relation

variable {fs : FsInfo} {disk : Disk} {mem : Memory} {buf attr limit ie a k n : Nat}
  {mrec nrec iblk : List UInt8} {e : IndexEntry} {es : List IndexEntry} {child : Option Nat}
  {st : ReaddirState} {chunk : MappingChunk} {node : Node} {r : Run} {runs : List Run}

/-! ## A block -/

/-- The loop over the entries of a block gets to any of them. -/
theorem skipEntries_drop (h : EntriesAt nrec limit ie es child) (hlimit : limit ≤ nrec.length)
    (hat : At mem a nrec) (hmem : a + limit < 2 ^ 32) (hk : k ≤ es.length) :
    ∃ ie', EntriesAt nrec limit ie' (es.drop k) child ∧
      ∀ m, skipEntries mem a (a + limit) (k + m) (a + ie) =
        skipEntries mem a (a + limit) m (a + ie') := by
  induction k generalizing ie es with
  | zero => exact ⟨ie, h, fun m => by rw [Nat.zero_add]⟩
  | succ k ih =>
    cases h with
    | last h => cases hk
    | @entry _ e es _ h rest =>
      have hread := h.readAt hlimit hat
      have hfits := h.fits
      have hlen := h.len_ge
      obtain ⟨ie', hrest, hskip⟩ := ih rest (Nat.le_of_succ_le_succ hk)
      refine ⟨ie', hrest, fun m => ?_⟩
      rw [Nat.succ_add, skipEntries, h.len_eq hlimit hat, u32_of_lt (by omega),
        u32_of_lt (by omega), if_neg (by omega), if_neg (not_not.mpr hread.not_last), ← hskip,
        Nat.add_assoc]

/-- The last entry is not passed. -/
theorem skipEntries_last (h : LastAt nrec limit ie child) (hlimit : limit ≤ nrec.length)
    (hat : At mem a nrec) (hmem : a + limit < 2 ^ 32) :
    skipEntries mem a (a + limit) 1 (a + ie) = .last := by
  have hheader := h.header
  have hfits := h.fits
  rw [skipEntries, h.len_eq hlimit hat, u32_of_lt (by omega), u32_of_lt (by omega),
    if_neg (by omega), h.flags_eq hlimit hat, if_pos h.last]

/-- A block in the buffer. -/
structure Buffered (mem : Memory) (buf : Nat) (iblk : List UInt8) (node : Node) : Prop where
  at_ : At mem buf iblk
  node : NodeAt iblk 24 node
  header : 32 ≤ iblk.length
  size : iblk.length < 2 ^ 16
  inMemory : buf + iblk.length < 2 ^ 32

/-- The code at `idx_block_next_entry`, for an entry behind some others. -/
theorem Buffered.labelStep_eq (h : Buffered mem buf iblk node) (mem' : Memory) :
    labelStep fs disk mem' buf mrec attr (st, .idxBlockNextEntry chunk mem) =
      match skipEntries mem buf (buf + indexLimit iblk 24) st.entriesCount
        (buf + (24 + readLe iblk 24 4)) with
      | .indexErr => .stop (st, none)
      | .last =>
        .next ({ st with
          lastVcn := u64 (st.lastVcn + fs.blockSize / fs.clustSize)
          entriesCount := 0 }, .nextVcn chunk)
      | .entry ie =>
        if IdxEntry.flags mem ie &&& indexEntryEnd ≠ 0 then
          .next ({ st with entriesCount := u32 (st.entriesCount + 1) }, .nextVcn chunk)
        else if isFilenamePrintable (ntfsCvtFilename mem ie) then
          .stop ({ st with entriesCount := u32 (st.entriesCount + 1) }, some (mem, ie))
        else
          .next ({ st with entriesCount := u32 (st.entriesCount + 1) },
            .idxBlockNextEntry chunk mem) := by
  have hheader := h.header
  have hmem := h.inMemory
  have hlimit := h.node.limit_le
  have hfirst := h.node.entries.length_le
  have hlast : u32 (buf + 24 + memLe mem (buf + 28) 4) = buf + indexLimit iblk 24 := by
    rw [memLe_of_at h.at_ (by omega), Nat.add_assoc]
    exact u32_of_lt ((Nat.add_le_add_left hlimit buf).trans_lt hmem)
  have hstart : u32 (buf + 24 + memLe mem (buf + 24) 4) = buf + (24 + readLe iblk 24 4) := by
    rw [memLe_of_at h.at_ (by omega), Nat.add_assoc, u32_of_lt (by omega)]
  rw [labelStep]
  dsimp only
  rewrite [hlast, hstart]
  rfl

/-- In a block the code gets to the next printable entry, or behind the last entry. -/
theorem Buffered.next (h : Buffered mem buf iblk node) (mem' : Memory) (mrec : List UInt8)
    (attr : Nat) (chunk : MappingChunk) (hk : st.entriesCount ≤ node.entries.length) :
    ((node.entries.drop st.entriesCount).filter IndexEntry.printable = [] ∧
      ReflTransGen (Goes fun _ => labelStep fs disk mem' buf mrec attr)
        (st, .idxBlockNextEntry chunk mem)
        ({ st with entriesCount := node.entries.length + 1 }, .nextVcn chunk)) ∨
    ∃ e k, k ≤ node.entries.length ∧
      (node.entries.drop st.entriesCount).filter IndexEntry.printable =
        e :: (node.entries.drop k).filter IndexEntry.printable ∧
      ∃ n ie, runLoop (labelStep fs disk mem' buf mrec attr) n
          (st, .idxBlockNextEntry chunk mem) =
        some ({ st with entriesCount := k }, some (mem, ie)) ∧ ReadAt mem ie e := by
  have hlimit := h.node.limit_le
  have hsize := h.size
  have hmem := h.inMemory
  have hcount := h.node.entries.length_le
  induction hd : node.entries.length - st.entriesCount generalizing st with
  | zero =>
    have hall : st.entriesCount = node.entries.length := by omega
    obtain ⟨ie, hrest, hskip⟩ := skipEntries_drop h.node.entries hlimit h.at_ (by omega) hk
    have hdrop : node.entries.drop st.entriesCount = [] := List.drop_eq_nil_of_le (by omega)
    rw [hdrop] at hrest ⊢
    cases hrest with
    | last hlast =>
      refine Or.inl ⟨rfl, .single ⟨0, ?_⟩⟩
      change labelStep fs disk mem' buf mrec attr _ = _
      have hskip0 := hskip 0
      rw [Nat.add_zero] at hskip0
      rw [h.labelStep_eq, hskip0, skipEntries]
      dsimp only
      rw [hlast.flags_eq hlimit h.at_, if_pos hlast.last, u32_of_lt (by omega), hall]
  | succ d ih =>
    have hlt : st.entriesCount < node.entries.length := by omega
    obtain ⟨ie, hrest, hskip⟩ := skipEntries_drop h.node.entries hlimit h.at_ (by omega) hk
    have hskip0 := hskip 0
    rw [Nat.add_zero] at hskip0
    rw [List.drop_eq_getElem_cons hlt] at hrest ⊢
    cases hrest with
    | entry he hrest =>
      have hread := he.readAt hlimit h.at_
      by_cases hprint : node.entries[st.entriesCount].printable = true
      · refine Or.inr ⟨_, st.entriesCount + 1, hlt, List.filter_cons_of_pos hprint, 1, buf + ie,
          runLoop_stop ?_, hread⟩
        rw [h.labelStep_eq, hskip0, skipEntries]
        dsimp only
        rw [if_neg (not_not.mpr hread.not_last), hread.printable_eq, if_pos hprint,
          u32_of_lt (by omega)]
      · have hstep : labelStep fs disk mem' buf mrec attr (st, .idxBlockNextEntry chunk mem) =
            .next ({ st with entriesCount := st.entriesCount + 1 },
              .idxBlockNextEntry chunk mem) := by
          rw [h.labelStep_eq, hskip0, skipEntries]
          dsimp only
          rw [if_neg (not_not.mpr hread.not_last), hread.printable_eq, if_neg hprint,
            u32_of_lt (by omega)]
        rw [List.filter_cons_of_neg hprint]
        rcases @ih { st with entriesCount := st.entriesCount + 1 } hlt (by dsimp only; omega) with
          ⟨hnil, hgo⟩ | ⟨e, k, hle, hcons, n, found, hrun, hfound⟩
        · exact Or.inl ⟨hnil, .head ⟨0, hstep⟩ hgo⟩
        · exact Or.inr ⟨e, k, hle, hcons, n + 1, found, runLoop_next hstep hrun, hfound⟩

/-- Behind the last entry of a block the code goes on with the next block. -/
theorem Buffered.passed (h : Buffered mem buf iblk node) (mem' : Memory) (mrec : List UInt8)
    (attr : Nat) (chunk : MappingChunk) (hk : st.entriesCount = node.entries.length + 1) :
    labelStep fs disk mem' buf mrec attr (st, .idxBlockNextEntry chunk mem) =
      .next ({ st with
        lastVcn := u64 (st.lastVcn + fs.blockSize / fs.clustSize)
        entriesCount := 0 }, .nextVcn chunk) := by
  have hlimit := h.node.limit_le
  have hmem := h.inMemory
  obtain ⟨ie, hrest, hskip⟩ := skipEntries_drop h.node.entries hlimit h.at_ (by omega)
    (Nat.le_refl node.entries.length)
  rw [List.drop_length] at hrest
  cases hrest with
  | last hlast =>
    rw [h.labelStep_eq, hk, hskip, skipEntries_last hlast hlimit h.at_ (by omega)]

/-- A block on the disk, in the clusters from `k` on. -/
structure BlockAt (fs : FsInfo) (disk : Disk) (k : Nat) (node : Node) : Prop where
  place : k * fs.clustSize < 2 ^ 62
  magic : magic (bytesAt disk (k * fs.clustSize) fs.blockSize) = magicIndx
  fixups : ValidFixups fs.sectorSize (bytesAt disk (k * fs.clustSize) fs.blockSize)
  node : NodeAt (applyFixups fs.sectorSize (bytesAt disk (k * fs.clustSize) fs.blockSize)) 24 node

/-- The sizes of a volume: the cache has the index blocks, which are whole clusters, and the buffer
for one lies in memory. -/
structure BlockSizes (fs : FsInfo) (buf : Nat) : Prop where
  cached : fs.blockShift < 16
  sector : 512 ≤ fs.sectorSize
  clusters : fs.clustByteShift ≤ fs.blockShift
  clust : fs.sectorSize ≤ fs.clustSize
  inMemory : buf + fs.blockSize < 2 ^ 32

theorem BlockSizes.blockSize_eq (h : BlockSizes fs buf) :
    fs.blockSize = fs.blockSize / fs.clustSize * fs.clustSize :=
  (Nat.div_mul_cancel (Nat.pow_dvd_pow 2 h.clusters)).symm

/-- The block behind some others of a run, which is read with the place of the run. -/
theorem ntfsRead_run (h : BlockSizes fs buf) (disk : Disk) {lcn i : Nat}
    (hplace : (lcn + i * (fs.blockSize / fs.clustSize)) * fs.clustSize < 2 ^ 62) :
    ∃ r, ntfsRead fs disk fs.blockSize fs.blockSize
        (fs.blkOf ((lcn : Int) + (i * (fs.blockSize / fs.clustSize) : Nat))) 0 (toU64 lcn) =
          some (some r) ∧
      r.buf = bytesAt disk ((lcn + i * (fs.blockSize / fs.clustSize)) * fs.clustSize)
        fs.blockSize := by
  have hclust : 0 < fs.clustSize := Nat.two_pow_pos _
  have hpos := blockSize_pos fs
  have hsplit : (lcn + i * (fs.blockSize / fs.clustSize)) * fs.clustSize =
      lcn * fs.clustSize + i * fs.blockSize := by
    rw [Nat.add_mul, Nat.mul_assoc, ← h.blockSize_eq]
  have hlcn : lcn < 2 ^ 64 := by
    have hle := Nat.le_mul_of_pos_right lcn hclust
    omega
  have hdiv := Nat.div_le_self
    ((lcn + i * (fs.blockSize / fs.clustSize)) * fs.clustSize) fs.blockSize
  obtain ⟨r, hread, hbuf⟩ := ntfsRead_buf disk h.cached (Nat.le_refl fs.blockSize) hpos
    (by omega : (lcn + i * (fs.blockSize / fs.clustSize)) * fs.clustSize / fs.blockSize + 1 <
      2 ^ 64) lcn
  refine ⟨r, ?_, ?_⟩
  · rw [← Int.natCast_add, blkOf_eq (hplace.trans (by decide)), toU64_cast hlcn]
    exact hread
  · have hmod : u64 (lcn * fs.clustSize) % fs.blockSize =
        (lcn + i * (fs.blockSize / fs.clustSize)) * fs.clustSize % fs.blockSize := by
      rw [u64_of_lt (by omega), hsplit, Nat.add_mul_mod_self_right]
    rw [hbuf, FsInfo.readOffset, if_pos rfl, Nat.shiftLeft_eq]
    change bytesAt disk (_ + u64 (lcn * fs.clustSize) % _) _ = _
    rw [hmod, Nat.mul_comm _ fs.blockSize, Nat.div_add_mod]

/-- The buffer when a block is read. -/
theorem BlockAt.buffered (hb : BlockAt fs disk k node) (h : BlockSizes fs buf) (mem : Memory) :
    Buffered (mem.write buf
        (applyFixups fs.sectorSize (bytesAt disk (k * fs.clustSize) fs.blockSize))) buf
      (applyFixups fs.sectorSize (bytesAt disk (k * fs.clustSize) fs.blockSize)) node := by
  have hlength : (applyFixups fs.sectorSize
      (bytesAt disk (k * fs.clustSize) fs.blockSize)).length = fs.blockSize := by
    rw [applyFixups, List.length_map, List.length_range, length_bytesAt]
  have hsector := h.sector
  have hclust := h.clust
  have hblock : fs.clustSize ≤ fs.blockSize := Nat.pow_le_pow_right (by decide) h.clusters
  exact
    { at_ := at_write _ _ _
      node := hb.node
      header := by omega
      size := by
        rw [hlength]
        exact Nat.pow_lt_pow_right (by decide) h.cached
      inMemory := by
        rw [hlength]
        exact h.inMemory }

/-- The code at `next_vcn` reads the block there. -/
theorem BlockAt.goes {lcn i : Nat}
    (hb : BlockAt fs disk (lcn + i * (fs.blockSize / fs.clustSize)) node) (h : BlockSizes fs buf)
    (mem : Memory) (mrec : List UInt8) (attr : Nat) (hlcn : chunk.lcn = lcn)
    (hvcn : st.lastVcn = i * (fs.blockSize / fs.clustSize))
    (hlen : i * (fs.blockSize / fs.clustSize) < chunk.len) :
    ∃ mem' iblk, Buffered mem' buf iblk node ∧
      labelStep fs disk mem buf mrec attr (st, .nextVcn chunk) =
        .next (st, .idxBlockNextEntry chunk mem') := by
  obtain ⟨r, hread, hbuf⟩ := ntfsRead_run h disk hb.place
  have hsector := h.sector
  refine ⟨_, _, hb.buffered h mem, ?_⟩
  have hmagic : Ntfs.magic (applyFixups fs.sectorSize (bytesAt disk
      ((lcn + i * (fs.blockSize / fs.clustSize)) * fs.clustSize) fs.blockSize)) = magicIndx :=
    (readLe_applyFixups (by omega)).trans hb.magic
  rw [labelStep]
  dsimp only
  rw [hvcn, if_neg (Nat.not_le.mpr hlen), hlcn, hread]
  dsimp only
  rw [hbuf, fixupsWriteback_eq (Or.inr hb.magic) hb.fixups]
  dsimp only
  rw [if_neg (not_not.mpr hmagic)]

/-- From a place in a block on, the code gets to the next printable entry there, or to the block
behind. -/
theorem BlockAt.next {lcn i : Nat}
    (hb : BlockAt fs disk (lcn + i * (fs.blockSize / fs.clustSize)) node) (h : BlockSizes fs buf)
    (mem : Memory) (mrec : List UInt8) (attr : Nat) (hlcn : chunk.lcn = lcn)
    (hvcn : st.lastVcn = i * (fs.blockSize / fs.clustSize))
    (hlen : i * (fs.blockSize / fs.clustSize) < chunk.len)
    (hk : st.entriesCount ≤ node.entries.length) :
    ((node.entries.drop st.entriesCount).filter IndexEntry.printable = [] ∧
      ReflTransGen (Goes fun _ => labelStep fs disk mem buf mrec attr) (st, .nextVcn chunk)
        ({ st with
          lastVcn := (i + 1) * (fs.blockSize / fs.clustSize)
          entriesCount := 0 }, .nextVcn chunk)) ∨
    ∃ e k, k ≤ node.entries.length ∧
      (node.entries.drop st.entriesCount).filter IndexEntry.printable =
        e :: (node.entries.drop k).filter IndexEntry.printable ∧
      ∃ n mem' ie, runLoop (labelStep fs disk mem buf mrec attr) n (st, .nextVcn chunk) =
        some ({ st with entriesCount := k }, some (mem', ie)) ∧ ReadAt mem' ie e := by
  obtain ⟨mem', iblk, hbuffered, hstep⟩ := hb.goes h mem mrec attr hlcn hvcn hlen
  rcases hbuffered.next mem mrec attr chunk hk with
    ⟨hnil, hgo⟩ | ⟨e, k, hle, hcons, n, ie, hrun, hread⟩
  · -- the block is read once more, to get behind its last entry
    have hnext : u64 (st.lastVcn + fs.blockSize / fs.clustSize) =
        (i + 1) * (fs.blockSize / fs.clustSize) := by
      have hclust : 0 < fs.clustSize := Nat.two_pow_pos _
      have hplace := (Nat.le_mul_of_pos_right _ hclust).trans_lt hb.place
      have hblock : fs.blockSize < 2 ^ 16 := Nat.pow_lt_pow_right (by decide) h.cached
      have hstepLe := Nat.div_le_self fs.blockSize fs.clustSize
      rw [hvcn, Nat.add_one_mul, u64_of_lt (by omega)]
    obtain ⟨mem'', iblk', hbuffered', hagain⟩ : ∃ mem' iblk, Buffered mem' buf iblk node ∧
        labelStep fs disk mem buf mrec attr
          ({ st with entriesCount := node.entries.length + 1 }, .nextVcn chunk) =
        .next ({ st with entriesCount := node.entries.length + 1 },
          .idxBlockNextEntry chunk mem') := hb.goes h mem mrec attr hlcn hvcn hlen
    have hpassed : labelStep fs disk mem buf mrec attr
        ({ st with entriesCount := node.entries.length + 1 }, .idxBlockNextEntry chunk mem'') =
        .next ({ st with
          lastVcn := u64 (st.lastVcn + fs.blockSize / fs.clustSize)
          entriesCount := 0 }, .nextVcn chunk) := hbuffered'.passed mem mrec attr chunk rfl
    rw [hnext] at hpassed
    exact Or.inl ⟨hnil, .head ⟨0, hstep⟩ (hgo.tail ⟨0, hagain⟩ |>.tail ⟨0, hpassed⟩)⟩
  · exact Or.inr ⟨e, k, hle, hcons, n + 1, mem', ie, runLoop_next hstep hrun, hread⟩

end Liigboot.Fs.Ntfs
