import Liigboot.Lib.Memory
import Liigboot.Lib.Walk
import Liigboot.Fs.Extent

/-!
# Extent trees

`ext2_bmap` for the inodes of ext4 whose blocks are mapped by extents. The header of a node, its
index entries and its extents are read from the inode or from a block in the cache.
-/

namespace Liigboot.Fs.Ext2

/-! ## The model -/

/-- A mounted volume: the memory that `get_cache` returns for a block. That is the block of the disk
but for blocks of 64 KiB, which the cache does not fill. -/
structure Ext4Fs where
  sectorShift : Nat
  blockShift : Nat
  getCache : Nat → Memory
  sector_ge : 9 ≤ sectorShift
  sector_le : sectorShift ≤ blockShift
  /-- The blocks of ext4 have 64 KiB at most. -/
  block_le : blockShift ≤ 16

/-! `struct ext4_extent_header` -/

def ext4ExtMagic : Nat := 0xf30a

def ehMagic (eh : Memory) : Nat := memLe eh 0 2

def ehEntries (eh : Memory) : Nat := memLe eh 2 2

def ehDepth (eh : Memory) : Nat := memLe eh 6 2

/-! `struct ext4_extent_idx`, entry `i` behind a header -/

def eiBlock (eh : Memory) (i : Nat) : Nat := memLe eh (12 + 12 * i) 4

def eiLeafLo (eh : Memory) (i : Nat) : Nat := memLe eh (12 + 12 * i + 4) 4

def eiLeafHi (eh : Memory) (i : Nat) : Nat := memLe eh (12 + 12 * i + 8) 2

/-- `struct ext4_extent` -/
structure Ext4Extent where
  eeBlock : Nat
  eeLen : Nat
  eeStartHi : Nat
  eeStartLo : Nat
  deriving DecidableEq, Repr

/-- Extent `i` behind a header. -/
def extentAt (eh : Memory) (i : Nat) : Ext4Extent where
  eeBlock := memLe eh (12 + 12 * i) 4
  eeLen := memLe eh (12 + 12 * i + 4) 2
  eeStartHi := memLe eh (12 + 12 * i + 6) 2
  eeStartLo := memLe eh (12 + 12 * i + 8) 4

/-- `for (i = 0; i < entries; i++) if (block < key[i]) break;` -/
def entryLoop (key : Nat → Nat) (block : Nat) : Nat → Nat → Nat
  | 0, i => i
  | n + 1, i => if block < key i then i else entryLoop key block n (i + 1)

/-- The block that an index node leads to, where the loop of `ext4_find_leaf` goes on. -/
def leafNext (eh : Memory) (block : Nat) : Option Nat :=
  if ehMagic eh ≠ ext4ExtMagic then none
  else if ehDepth eh = 0 then none
  else
    let i := entryLoop (eiBlock eh) block (ehEntries eh) 0
    if i = 0 then none
    else some (eiLeafHi eh (i - 1) * 2 ^ 32 + eiLeafLo eh (i - 1))

/-- What `ext4_find_leaf` returns where its loop ends. -/
def leafResult (eh : Memory) : Option Memory :=
  if ehMagic eh ≠ ext4ExtMagic then none
  else if ehDepth eh = 0 then some eh
  else none

/-- `ext4_find_leaf`. There is no result while the loop runs. -/
def ext4FindLeaf (fs : Ext4Fs) (block : Nat) : Nat → Memory → Option (Option Memory)
  | 0, _ => none
  | fuel + 1, eh =>
    match leafNext eh block with
    | none => some (leafResult eh)
    | some blk => ext4FindLeaf fs block fuel (fs.getCache blk)

/-- What `bmap_extent` finds in a leaf. -/
def bmapLeaf (leaf : Memory) (block nblocks : Nat) : Nat × Nat :=
  let i := entryLoop (fun i => (extentAt leaf i).eeBlock) block (ehEntries leaf) 0
  if i = 0 then (0, nblocks)
  else
    let ext := extentAt leaf (i - 1)
    let block := block - ext.eeBlock
    if block ≥ ext.eeLen then (0, nblocks)
    else (ext.eeStartHi * 2 ^ 32 + ext.eeStartLo + block, ext.eeLen - block)

/-- `bmap_extent`: the block and the value of `*nblocks`, which has a value before. -/
def bmapExtent (fs : Ext4Fs) (iExtentHdr : Memory) (fuel block nblocks : Nat) :
    Option (Nat × Nat) :=
  (ext4FindLeaf fs (u32 block) fuel iExtentHdr).map fun leaf =>
    match leaf with
    | none => (0, nblocks)
    | some leaf => bmapLeaf leaf (u32 block) nblocks

/-- `ext2_next_extent` for an inode with `EXT4_EXTENTS_FLAG`. -/
def ext2NextExtent (fs : Ext4Fs) (iExtentHdr : Memory) (fuel lstart : Nat) : Option Extent :=
  let blktosec := fs.blockShift - fs.sectorShift
  let blkmask := 2 ^ blktosec - 1
  (bmapExtent fs iExtentHdr fuel (lstart / 2 ^ blktosec) 0).map fun (block, nblocks) =>
    { pstart :=
        if block = 0 then extentZero else u64 (block * 2 ^ blktosec) ||| (lstart &&& blkmask)
      lstart
      len := u32 (u32 (nblocks * 2 ^ blktosec) + 2 ^ 32 - (lstart &&& blkmask)) }

variable {fs : Ext4Fs} {eh : Memory} {block fuel : Nat} {key : Nat → Nat}

/-! ## The loop over the entries -/

/-- The loop stops behind the entries in front of the first one that is too large. -/
theorem entryLoop_spec (key : Nat → Nat) (block n i : Nat) :
    i ≤ entryLoop key block n i ∧ entryLoop key block n i ≤ i + n ∧
      (∀ j, i ≤ j → j < entryLoop key block n i → key j ≤ block) ∧
      (entryLoop key block n i < i + n → block < key (entryLoop key block n i)) := by
  induction n generalizing i with
  | zero =>
    refine ⟨Nat.le_refl _, Nat.le_refl _, fun j hi hj => ?_, fun h => absurd h (Nat.lt_irrefl _)⟩
    exact absurd hj (Nat.not_lt.mpr hi)
  | succ n ih =>
    rw [entryLoop]
    split_ifs with h
    · refine ⟨Nat.le_refl _, Nat.le_add_right _ _, fun j hi hj => ?_, fun _ => h⟩
      exact absurd hj (Nat.not_lt.mpr hi)
    · obtain ⟨hle, hend, hkeys, hstop⟩ := ih (i + 1)
      refine ⟨by omega, by omega, fun j hi hj => ?_, fun hlt => hstop (by omega)⟩
      obtain rfl | hij := Nat.eq_or_lt_of_le hi
      · exact Nat.le_of_not_lt h
      · exact hkeys j hij hj

/-! ## When the search for a leaf ends -/

/-- The blocks of the nodes that the search reads, the inode apart. -/
def leafPath (fs : Ext4Fs) (iExtentHdr : Memory) (block : Nat) : Nat → Option Nat :=
  walk (fun blk => leafNext (fs.getCache blk) block) (leafNext iExtentHdr block)

/-- The search has not ended as long as its path goes on. -/
theorem ext4FindLeaf_eq_none_iff :
    ext4FindLeaf fs block fuel eh = none ↔ ∀ n < fuel, leafPath fs eh block n ≠ none := by
  induction fuel generalizing eh with
  | zero => exact ⟨fun _ n hn => absurd hn (Nat.not_lt_zero n), fun _ => rfl⟩
  | succ fuel ih =>
    rw [ext4FindLeaf]
    cases hnext : leafNext eh block with
    | none =>
      refine ⟨fun h => (nomatch h), fun h => ?_⟩
      exact absurd hnext (h 0 (Nat.succ_pos fuel))
    | some blk =>
      have hshift : ∀ n, leafPath fs (fs.getCache blk) block n = leafPath fs eh block (n + 1) := by
        intro n
        have hwalk := walk_shift (fun blk => leafNext (fs.getCache blk) block)
          (leafNext eh block) n
        rw [hnext, Option.bind_some] at hwalk
        rw [leafPath, leafPath, hnext]
        exact hwalk
      dsimp only
      rw [ih]
      constructor
      · intro h n hn
        cases n with
        | zero => exact fun hzero => Option.some_ne_none blk (hnext.symm.trans hzero)
        | succ n =>
          rw [← hshift]
          exact h n (Nat.lt_of_succ_lt_succ hn)
      · intro h n hn
        rw [hshift]
        exact h (n + 1) (Nat.succ_lt_succ hn)

/-- Block numbers have 48 bits. -/
theorem leafNext_lt {blk : Nat} (h : leafNext eh block = some blk) : blk < 2 ^ 48 := by
  rw [leafNext] at h
  dsimp only at h
  split_ifs at h
  obtain rfl := Option.some.inj h
  have hhi : eiLeafHi eh (entryLoop (eiBlock eh) block (ehEntries eh) 0 - 1) < 2 ^ 16 :=
    memLe_lt _ _ _
  have hlo : eiLeafLo eh (entryLoop (eiBlock eh) block (ehEntries eh) 0 - 1) < 2 ^ 32 :=
    memLe_lt _ _ _
  omega

/-- The search for a leaf ends exactly when it does not come to a block a second time. -/
theorem ext4_find_leaf_ends_iff (fs : Ext4Fs) (iExtentHdr : Memory) (block : Nat) :
    (∃ fuel, ext4FindLeaf fs block fuel iExtentHdr ≠ none) ↔
      ∀ i j blk, i < j → leafPath fs iExtentHdr block i = some blk →
        leafPath fs iExtentHdr block j ≠ some blk := by
  have hends : (∃ fuel, ext4FindLeaf fs block fuel iExtentHdr ≠ none) ↔
      ∃ n, leafPath fs iExtentHdr block n = none := by
    constructor
    · rintro ⟨fuel, hfuel⟩
      by_contra hgo
      push Not at hgo
      exact hfuel (ext4FindLeaf_eq_none_iff.mpr fun n _ => hgo n)
    · rintro ⟨n, hn⟩
      exact ⟨n + 1, fun hnone => ext4FindLeaf_eq_none_iff.mp hnone n (Nat.lt_succ_self n) hn⟩
  rw [hends]
  refine walk_ends_iff ((Set.finite_lt_nat (2 ^ 48)).subset ?_)
  rintro blk ⟨n, hn⟩
  cases n with
  | zero => exact leafNext_lt hn
  | succ n =>
    rw [walk_succ, Option.bind_eq_some_iff] at hn
    obtain ⟨prev, -, hnext⟩ := hn
    exact leafNext_lt hnext

/-- An index node of depth 1 whose one entry leads to block 1. -/
def loopNode : Memory := fun i =>
  [0x0a, 0xf3, 1, 0, 4, 0, 1, 0, 0, 0, 0, 0, 0, 0, 0, 0, 1, 0, 0, 0, 0, 0, 0, 0].getD i 0

theorem usualSector_ge : 9 ≤ 9 := Nat.le_refl 9

/-- A volume that holds this node in each block. -/
def loopFs : Ext4Fs := ⟨9, 12, fun _ => loopNode, usualSector_ge, by decide, by decide⟩

/-- The search does not end where a node leads back to itself. -/
theorem ext4_find_leaf_cyclic : ¬∀ (fs : Ext4Fs) (iExtentHdr : Memory) (block : Nat),
    ∃ fuel, ext4FindLeaf fs block fuel iExtentHdr ≠ none := by
  intro h
  obtain ⟨fuel, hends⟩ := h loopFs loopNode 0
  have hnext : leafNext loopNode 0 = some 1 := by decide +kernel
  have hpath : ∀ n, leafPath loopFs loopNode 0 n = some 1 := by
    intro n
    induction n with
    | zero => exact hnext
    | succ n ih =>
      rw [leafPath, walk_succ, ← leafPath, ih, Option.bind_some]
      exact hnext
  refine hends (ext4FindLeaf_eq_none_iff.mpr fun n _ => ?_)
  rw [hpath]
  exact Option.some_ne_none 1

end Liigboot.Fs.Ext2
