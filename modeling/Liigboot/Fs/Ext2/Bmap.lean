import Liigboot.Lib.PointerTree
import Liigboot.Fs.Extent

/-!
# The block map of ext2

`ext2_bmap` for the inodes of ext2 and ext3: twelve direct pointers, and three trees of
pointers of the heights one, two and three. Next to the block of a position it reports how
many positions from there on are mapped the same way; the reader takes these as one extent.
-/

namespace Liigboot.Fs.Ext2

/-- A mounted volume: what `get_cache` returns for block `p`, read as an array of pointers. Blocks
of 64 KiB, which the cache does not fill, are those of its memory. -/
structure Ext2Fs where
  blockShift : Nat
  pointers : Nat → Nat → UInt32
  shift_ge : 10 ≤ blockShift
  /-- The blocks of ext2 have 64 KiB at most. -/
  shift_le : blockShift ≤ 16

/-- The fields of an inode that `ext2_bmap` reads, and its size. -/
structure Ext2Inode where
  size : UInt32
  flags : UInt32
  iBlock : Nat → UInt32

def ext4ExtentsFlag : UInt32 := 0x00080000

def ext2NdirBlocks : Nat := 12

def ext2IndBlock : Nat := ext2NdirBlocks

def ext2DindBlock : Nat := ext2IndBlock + 1

def ext2TindBlock : Nat := ext2DindBlock + 1

/-! ## The source -/

/-- The loop of `scan_set_nblocks`, from entry `i` of the map on. -/
def scanLoop (map : Nat → UInt32) (skip : UInt32) : Nat → Nat → UInt32 → Nat → Nat
  | 0, _, _, cnt => cnt
  | count + 1, i, next, cnt =>
    if map i = next then scanLoop map skip count (i + 1) (next + skip) (cnt + 1) else cnt

/-- `scan_set_nblocks`: the block and the value of `*nblocks`. -/
def scanSetNblocks (map : Nat → UInt32) (count : Nat) : UInt32 × Nat :=
  let blk := map 0
  let skip := if blk ≠ 0 then 1 else 0
  (blk, scanLoop map skip (count - 1) 1 (blk + skip) 1)

variable (fs : Ext2Fs)

/-- `addr_count`. -/
def addrCount : Nat := u32 (2 ^ (fs.blockShift - 2))

/-- The loop of `bmap_indirect`. -/
def indirectLoop (block : Nat) : Nat → UInt32 → (Nat → UInt32) → Nat → UInt32 × Nat
  | 0, _, blk, index => scanSetNblocks (fun i => blk (index + i)) (addrCount fs - index)
  | levels + 1, start, _, _ =>
    let shift := levels * (fs.blockShift - 2)
    if start = 0 then (0, u32 (addrCount fs * 2 ^ shift))
    else
      let blk := fs.pointers start.toNat
      let index := block / 2 ^ shift % addrCount fs
      indirectLoop block levels (blk index) blk index

/-- `bmap_indirect`. -/
def bmapIndirect (start : UInt32) (block levels : Nat) : UInt32 × Nat :=
  indirectLoop fs (u32 block) levels start (fun _ => 0) 0

/-- `bmap_traditional`. It leaves `*nblocks` alone where it cannot get to. -/
def bmapTraditional (inode : Ext2Inode) (block nblocks : Nat) : UInt32 × Nat :=
  let addrPerBlock := u32 (2 ^ fs.blockShift) / 4
  let shftPerBlock := fs.blockShift - 2
  let indirectBlocks := addrPerBlock
  let doubleBlocks := u32 (addrPerBlock * 2 ^ shftPerBlock)
  let tripleBlocks := u32 (doubleBlocks * 2 ^ shftPerBlock)
  if block < ext2NdirBlocks then
    scanSetNblocks (fun i => inode.iBlock (block + i)) (ext2NdirBlocks - block)
  else
    let block := block - ext2NdirBlocks
    if block < indirectBlocks then bmapIndirect fs (inode.iBlock ext2IndBlock) block 1
    else
      let block := block - indirectBlocks
      if block < doubleBlocks then bmapIndirect fs (inode.iBlock ext2DindBlock) block 2
      else
        let block := block - doubleBlocks
        if block < tripleBlocks then bmapIndirect fs (inode.iBlock ext2TindBlock) block 3
        else (0, nblocks)

/-- `ext2_bmap`: the block and the value of `*nblocks`, which has a value before. What
`bmap_extent` returns for an inode with extents is a parameter. -/
def ext2Bmap (bmapExtent : Nat → Nat → Nat × Nat) (inode : Ext2Inode) (block nblocks : Nat) :
    Nat × Nat :=
  if inode.flags &&& ext4ExtentsFlag ≠ 0 then bmapExtent block nblocks
  else
    let r := bmapTraditional fs inode block nblocks
    (r.1.toNat, r.2)

/-! ## The map -/

/-- The number of pointers in a block. -/
def Ext2Fs.width : Nat := 2 ^ (fs.blockShift - 2)

/-- The block of a position under a pointer with some levels of pointers below, 0 for a hole. -/
def resolveBlock (levels : Nat) (start : UInt32) (off : Nat) : UInt32 :=
  resolve 0 (fun p => fs.pointers p.toNat) fs.width levels start off

/-- The empty subtree around a position: its size, and where the position is in it. -/
def emptyBlock (levels : Nat) (start : UInt32) (off : Nat) : Option (Nat × Nat) :=
  emptyAbove 0 (fun p => fs.pointers p.toNat) fs.width levels start off

/-- Where the positions of the trees of height two and three begin. -/
def dindStart : Nat := ext2NdirBlocks + fs.width

def tindStart : Nat := dindStart fs + fs.width ^ 2

/-- The block of a position of the file, 0 for a hole. -/
def blockOf (inode : Ext2Inode) (b : Nat) : UInt32 :=
  if b < ext2NdirBlocks then inode.iBlock b
  else if b < dindStart fs then resolveBlock fs 1 (inode.iBlock ext2IndBlock) (b - ext2NdirBlocks)
  else if b < tindStart fs then
    resolveBlock fs 2 (inode.iBlock ext2DindBlock) (b - dindStart fs)
  else if b < tindStart fs + fs.width ^ 3 then
    resolveBlock fs 3 (inode.iBlock ext2TindBlock) (b - tindStart fs)
  else 0

/-- The empty subtree around a position of the file. -/
def emptyAround (inode : Ext2Inode) (b : Nat) : Option (Nat × Nat) :=
  if b < ext2NdirBlocks then none
  else if b < dindStart fs then emptyBlock fs 1 (inode.iBlock ext2IndBlock) (b - ext2NdirBlocks)
  else if b < tindStart fs then emptyBlock fs 2 (inode.iBlock ext2DindBlock) (b - dindStart fs)
  else emptyBlock fs 3 (inode.iBlock ext2TindBlock) (b - tindStart fs)

/-- `n` positions from `b` on are mapped to consecutive blocks from `p` on, or all to holes. -/
def IsRun (map : Nat → UInt32) (b : Nat) (r : Nat × Nat) : Prop :=
  1 ≤ r.2 ∧ ∀ i < r.2, (map (b + i)).toNat = if r.1 = 0 then 0 else r.1 + i

/-- The blocks behind the empty subtree around a position, as many as lie in front of the position
in it, are holes, too. -/
def HolesBehind (inode : Ext2Inode) (b : Nat) : Prop :=
  ∀ size pos, emptyAround fs inode b = some (size, pos) →
    ∀ j < pos, blockOf fs inode (b - pos + size + j) = 0

/-! ## Scans -/

variable {fs} {map : Nat → UInt32} {inode : Ext2Inode} {blocksCount : UInt32}

/-- What the loop counts. -/
theorem scanLoop_spec (map : Nat → UInt32) (skip : UInt32) (count i : Nat) (next : UInt32)
    (cnt : Nat) :
    ∃ k ≤ count, scanLoop map skip count i next cnt = cnt + k ∧ (0 < k → map i = next) ∧
      ∀ j, j + 1 < k → map (i + (j + 1)) = map (i + j) + skip := by
  induction count generalizing i next cnt with
  | zero => exact ⟨0, le_rfl, rfl, fun h => absurd h (Nat.lt_irrefl 0),
      fun j hj => absurd hj (Nat.not_lt_zero _)⟩
  | succ count ih =>
    rw [scanLoop]
    split_ifs with h
    · obtain ⟨k, hk, heq, hfirst, hmap⟩ := ih (i + 1) (next + skip) (cnt + 1)
      refine ⟨k + 1, Nat.succ_le_succ hk, by rw [heq]; omega, fun _ => h, fun j hj => ?_⟩
      rcases j with _ | j
      · rw [Nat.add_zero i, h]
        exact hfirst (by omega)
      · rw [show i + (j + 1 + 1) = i + 1 + (j + 1) by omega, hmap j (by omega),
          show i + (j + 1) = i + 1 + j by omega]
    · exact ⟨0, Nat.zero_le _, rfl, fun h => absurd h (Nat.lt_irrefl 0),
        fun j hj => absurd hj (Nat.not_lt_zero _)⟩

/-- The scan reports a run inside of its window. -/
theorem scanSetNblocks_run {count : Nat} (hcount : 1 ≤ count)
    (hwf : ∀ i < count, map i < blocksCount) :
    (scanSetNblocks map count).1 = map 0 ∧ 1 ≤ (scanSetNblocks map count).2 ∧
      (scanSetNblocks map count).2 ≤ count ∧
      ∀ i < (scanSetNblocks map count).2,
        (map i).toNat = if map 0 = 0 then 0 else (map 0).toNat + i := by
  obtain ⟨k, hk, heq, hfirst, hmap⟩ := scanLoop_spec map (if map 0 ≠ 0 then 1 else 0) (count - 1) 1
    (map 0 + if map 0 ≠ 0 then 1 else 0) 1
  have hn : (scanSetNblocks map count).2 = 1 + k := heq
  rw [hn]
  have hstep : ∀ j < k, map (j + 1) = map j + if map 0 ≠ 0 then 1 else 0 := by
    intro j hj
    rcases j with _ | j
    · exact hfirst hj
    · rw [Nat.add_comm (j + 1), hmap j hj, Nat.add_comm 1 j]
  refine ⟨rfl, by omega, by omega, fun i hi => ?_⟩
  induction i with
  | zero =>
    split_ifs with h0
    · rw [h0]
      rfl
    · rfl
  | succ i ih =>
    have hi' := ih (by omega)
    rw [hstep i (by omega)]
    by_cases h0 : map 0 = 0
    · simp only [h0, if_true, ne_eq, not_true_eq_false, if_false] at hi' ⊢
      rw [UInt32.add_zero, hi']
    · simp only [h0, if_false, ne_eq, not_false_eq_true, if_true] at hi' ⊢
      have hlt := UInt32.lt_iff_toNat_lt.mp (hwf i (by omega))
      have hmax := blocksCount.toNat_lt
      rw [UInt32.toNat_add, hi']
      change ((map 0).toNat + i + 1) % 2 ^ 32 = (map 0).toNat + (i + 1)
      omega

/-- The scan reads its window only. -/
theorem scanSetNblocks_congr {map' : Nat → UInt32} {count : Nat} (hcount : 1 ≤ count)
    (h : ∀ i < count, map i = map' i) : scanSetNblocks map count = scanSetNblocks map' count := by
  have hloop : ∀ (skip : UInt32) (rounds i : Nat) (next : UInt32) (cnt : Nat),
      i + rounds ≤ count →
      scanLoop map skip rounds i next cnt = scanLoop map' skip rounds i next cnt := by
    intro skip rounds
    induction rounds with
    | zero => exact fun _ _ _ _ => rfl
    | succ rounds ih =>
      intro i next cnt hle
      rw [scanLoop, scanLoop, h i (by omega), ih (i + 1) _ _ (by omega)]
  simp only [scanSetNblocks, h 0 hcount, hloop _ (count - 1) 1 _ 1 (by omega)]

/-! ## Trees -/

/-- The arithmetic of the masks and shifts: a digit in base `2 ^ shift`. -/
theorem digit_eq (block shift levels : Nat) :
    block / 2 ^ (levels * shift) % 2 ^ shift =
      block % (2 ^ shift) ^ (levels + 1) / (2 ^ shift) ^ levels := by
  rw [Nat.pow_succ, Nat.mod_mul_right_div_self, ← Nat.pow_mul, Nat.mul_comm shift]

theorem width_pos (fs : Ext2Fs) : 0 < fs.width := Nat.pow_pos (by decide)

/-- One level of pointer blocks is gone down. -/
theorem resolveBlock_step {levels off : Nat} {start : UInt32} (h : start ≠ 0) (q : Nat)
    (hoff : off < fs.width ^ levels) :
    resolveBlock fs (levels + 1) start (q * fs.width ^ levels + off) =
      resolveBlock fs levels (fs.pointers start.toNat q) off := resolve_ne h q hoff

/-- The loop finds an empty subtree, or else the node of the position, and scans it. -/
theorem indirectLoop_eq (hcount : addrCount fs = fs.width) (block levels : Nat) (start : UInt32)
    (blk : Nat → UInt32) (index : Nat) :
    (∀ size pos, emptyBlock fs (levels + 1) start (block % fs.width ^ (levels + 1)) =
        some (size, pos) →
        indirectLoop fs block (levels + 1) start blk index = (0, u32 size)) ∧
      (emptyBlock fs (levels + 1) start (block % fs.width ^ (levels + 1)) = none →
        indirectLoop fs block (levels + 1) start blk index =
          scanSetNblocks (fun i => resolveBlock fs (levels + 1) start
            (block % fs.width ^ (levels + 1) + i)) (fs.width - block % fs.width)) := by
  have hpow : ∀ l, 2 ^ (l * (fs.blockShift - 2)) = fs.width ^ l := fun l => by
    rw [Ext2Fs.width, ← Nat.pow_mul, Nat.mul_comm]
  have hpos := width_pos fs
  have hwindow : 1 ≤ fs.width - block % fs.width := by
    have hlt := Nat.mod_lt block hpos
    omega
  induction levels generalizing start blk index with
  | zero =>
    unfold indirectLoop
    by_cases h : start = 0
    · rw [h, if_pos rfl, emptyBlock, emptyAbove_nil]
      refine ⟨fun size pos heq => ?_, fun heq => nomatch heq⟩
      cases heq
      rw [hcount, hpow, Nat.pow_zero, Nat.mul_one, Nat.pow_one]
    · rw [if_neg h, emptyBlock, emptyAbove_ne h]
      refine ⟨fun _ _ heq => (nomatch heq), fun _ => ?_⟩
      rw [Nat.zero_add, Nat.pow_one, indirectLoop, hcount, Nat.zero_mul, Nat.pow_zero, Nat.div_one]
      refine scanSetNblocks_congr hwindow fun i _ => ?_
      have hstep := @resolveBlock_step fs 0 0 start h (block % fs.width + i)
        (by rw [Nat.pow_zero]; exact Nat.zero_lt_one)
      rw [Nat.pow_zero, Nat.mul_one] at hstep
      exact hstep.symm
  | succ levels ih =>
    rw [indirectLoop]
    by_cases h : start = 0
    · rw [h, if_pos rfl, emptyBlock, emptyAbove_nil]
      refine ⟨fun size pos heq => ?_, fun heq => nomatch heq⟩
      cases heq
      rw [hcount, hpow, ← Nat.pow_succ', Nat.succ_eq_add_one]
    · rw [if_neg h, emptyBlock, emptyAbove_ne h]
      have hdvd : fs.width ^ (levels + 1) ∣ fs.width ^ (levels + 1 + 1) :=
        ⟨fs.width, Nat.pow_succ _ _⟩
      have hdigit : block / 2 ^ ((levels + 1) * (fs.blockShift - 2)) % addrCount fs =
          block % fs.width ^ (levels + 1 + 1) / fs.width ^ (levels + 1) := by
        rw [hcount]
        exact digit_eq block (fs.blockShift - 2) (levels + 1)
      rw [hdigit, Nat.mod_mod_of_dvd block hdvd]
      obtain ⟨hempty, hscan⟩ := ih (fs.pointers start.toNat
        (block % fs.width ^ (levels + 1 + 1) / fs.width ^ (levels + 1)))
        (fs.pointers start.toNat) (block % fs.width ^ (levels + 1 + 1) / fs.width ^ (levels + 1))
      refine ⟨hempty, fun hnone => ?_⟩
      rw [hscan hnone]
      refine scanSetNblocks_congr hwindow fun i hi => ?_
      have hsplit : block % fs.width ^ (levels + 1 + 1) + i =
          block % fs.width ^ (levels + 1 + 1) / fs.width ^ (levels + 1) * fs.width ^ (levels + 1) +
            (block % fs.width ^ (levels + 1) + i) := by
        have hdm := Nat.div_add_mod (block % fs.width ^ (levels + 1 + 1)) (fs.width ^ (levels + 1))
        rw [Nat.mod_mod_of_dvd block hdvd, Nat.mul_comm] at hdm
        omega
      rw [hsplit, resolveBlock_step h _ (window_lt block levels hi)]

/-- A tree whose first position in the file is `base`. -/
theorem bmapIndirect_isRun_iff {levels base off : Nat} {start : UInt32} {map : Nat → UInt32}
    (hcount : addrCount fs = fs.width) (hwf : ∀ b, map b < blocksCount)
    (hmap : ∀ off < fs.width ^ (levels + 1),
      map (base + off) = resolveBlock fs (levels + 1) start off)
    (hoff : off < fs.width ^ (levels + 1)) (hsize : fs.width ^ (levels + 1) < 2 ^ 32) :
    IsRun map (base + off) ((bmapIndirect fs start off (levels + 1)).1.toNat,
        (bmapIndirect fs start off (levels + 1)).2) ↔
      ∀ size pos, emptyBlock fs (levels + 1) start off = some (size, pos) →
        ∀ j < pos, map (base + off - pos + size + j) = 0 := by
  obtain ⟨hempty, hscan⟩ := indirectLoop_eq hcount off levels start (fun _ => 0) 0
  have hoff32 : u32 off = off := Nat.mod_eq_of_lt (hoff.trans hsize)
  rw [Nat.mod_eq_of_lt hoff] at hempty hscan
  rw [bmapIndirect, hoff32]
  rcases h : emptyBlock fs (levels + 1) start off with _ | ⟨size, pos⟩
  · refine ⟨fun _ _ _ heq => (nomatch heq), fun _ => ?_⟩
    have hmod := Nat.mod_lt off (width_pos fs)
    have hwin : ∀ i < fs.width - off % fs.width,
        resolveBlock fs (levels + 1) start (off + i) = map (base + off + i) := by
      intro i hi
      have hlt := window_lt off levels hi
      rw [Nat.mod_eq_of_lt hoff] at hlt
      rw [Nat.add_assoc, hmap (off + i) hlt]
    rw [hscan h, scanSetNblocks_congr (by omega) hwin]
    obtain ⟨hblk, hpos, -, hrun⟩ := @scanSetNblocks_run (fun i => map (base + off + i))
      blocksCount (fs.width - off % fs.width) (by omega) fun i _ => hwf (base + off + i)
    refine ⟨hpos, fun i hi => (hrun i hi).trans ?_⟩
    rw [hblk]
    simp only [← UInt32.toNat_inj, UInt32.toNat_zero]
  · obtain ⟨hle, hin, hend, hnil⟩ := emptyAbove_spec h hoff
    have hsize32 : u32 size = size := Nat.mod_eq_of_lt (by omega)
    have hhole : ∀ j < size, map (base + (off - pos + j)) = 0 := by
      intro j hj
      rw [hmap _ (by omega)]
      exact hnil j hj
    rw [hempty size pos h, hsize32]
    constructor
    · rintro ⟨-, hrun⟩ size' pos' heq j hj
      cases heq
      have hj' := hrun (size - pos + j) (by omega)
      rw [UInt32.toNat_zero, if_pos rfl] at hj'
      rw [show base + off - pos + size + j = base + off + (size - pos + j) by omega]
      exact UInt32.toNat_inj.mp hj'
    · intro hbehind
      refine ⟨by omega, fun i hi => ?_⟩
      rw [UInt32.toNat_zero, if_pos rfl]
      by_cases hi' : i < size - pos
      · rw [show base + off + i = base + (off - pos + (pos + i)) by omega,
          hhole (pos + i) (by omega)]
        rfl
      · rw [show base + off + i = base + off - pos + size + (i - (size - pos)) by omega,
          hbehind size pos rfl _ (by omega)]
        rfl

/-! ## The map of a file -/

/-- The sizes of the trees in 32-bit arithmetic, as far as a position in a file of less than
`2 ^ 32` bytes can lie behind them. -/
theorem width_bounds {b : Nat} (hb : b * 2 ^ fs.blockShift < 2 ^ 32) :
    (12 ≤ b → fs.width < 2 ^ 30) ∧ (fs.width ≤ b → fs.width ^ 2 < 2 ^ 30) ∧
      (fs.width ^ 2 ≤ b → fs.width ^ 3 < 2 ^ 30) ∧ b < fs.width ^ 3 := by
  have hshift := fs.shift_ge
  have hblock : 2 ^ fs.blockShift = 4 * fs.width := by
    rw [Ext2Fs.width, show (4 : Nat) = 2 ^ 2 from rfl, ← Nat.pow_add]
    congr 1
    omega
  have hwidth : 2 ^ 8 ≤ fs.width := Nat.pow_le_pow_right (by decide) (by omega)
  rw [hblock] at hb
  refine ⟨fun h => ?_, fun h => ?_, fun h => ?_, ?_⟩
  · have hmul := Nat.mul_le_mul_right (4 * fs.width) h
    omega
  · have hmul := Nat.mul_le_mul_right (4 * fs.width) h
    rw [Nat.mul_left_comm, ← Nat.pow_two] at hmul
    omega
  · have hmul := Nat.mul_le_mul_right (4 * fs.width) h
    rw [Nat.mul_left_comm, ← Nat.pow_succ] at hmul
    change 4 * fs.width ^ 3 ≤ _ at hmul
    omega
  · by_contra hge
    have hmul := Nat.mul_le_mul_right (4 * fs.width) (Nat.le_of_not_lt hge)
    rw [Nat.mul_left_comm, ← Nat.pow_succ] at hmul
    change 4 * fs.width ^ 4 ≤ _ at hmul
    have hpow := Nat.pow_le_pow_left hwidth 4
    rw [← Nat.pow_mul] at hpow
    omega

/-- A direct block is in the inode. -/
theorem blockOf_direct {b : Nat} (h : b < ext2NdirBlocks) :
    blockOf fs inode b = inode.iBlock b := if_pos h

/-- A block behind the indirect pointer. -/
theorem blockOf_ind {off : Nat} (h : off < fs.width) :
    blockOf fs inode (ext2NdirBlocks + off) =
      resolveBlock fs 1 (inode.iBlock ext2IndBlock) off := by
  rw [blockOf, if_neg (by omega), if_pos (by rw [dindStart]; omega), Nat.add_sub_cancel_left]

/-- A block behind the double indirect pointer. -/
theorem blockOf_dind {off : Nat} (h : off < fs.width ^ 2) :
    blockOf fs inode (dindStart fs + off) =
      resolveBlock fs 2 (inode.iBlock ext2DindBlock) off := by
  rw [blockOf, if_neg (by rw [dindStart]; omega), if_neg (by omega),
    if_pos (by rw [tindStart]; omega), Nat.add_sub_cancel_left]

/-- A block behind the triple indirect pointer. -/
theorem blockOf_tind {off : Nat} (h : off < fs.width ^ 3) :
    blockOf fs inode (tindStart fs + off) =
      resolveBlock fs 3 (inode.iBlock ext2TindBlock) off := by
  rw [blockOf, if_neg (by rw [tindStart, dindStart]; omega), if_neg (by rw [tindStart]; omega),
    if_neg (by omega), if_pos (by omega), Nat.add_sub_cancel_left]

/-- The direct blocks. -/
theorem direct_isRun {b : Nat} (h : b < ext2NdirBlocks)
    (hwf : ∀ b, blockOf fs inode b < blocksCount) :
    IsRun (blockOf fs inode) b
      ((scanSetNblocks (fun i => inode.iBlock (b + i)) (ext2NdirBlocks - b)).1.toNat,
        (scanSetNblocks (fun i => inode.iBlock (b + i)) (ext2NdirBlocks - b)).2) := by
  have hwin : ∀ i < ext2NdirBlocks - b, inode.iBlock (b + i) = blockOf fs inode (b + i) :=
    fun i hi => (blockOf_direct (by omega)).symm
  rw [scanSetNblocks_congr (by omega) hwin]
  obtain ⟨hblk, hpos, -, hrun⟩ := @scanSetNblocks_run (fun i => blockOf fs inode (b + i))
    blocksCount (ext2NdirBlocks - b) (by omega) fun i _ => hwf (b + i)
  refine ⟨hpos, fun i hi => (hrun i hi).trans ?_⟩
  rw [hblk]
  simp only [← UInt32.toNat_inj, UInt32.toNat_zero]

/-- `ext2_bmap` reports a run, unless the position lies in an empty subtree behind its start and
what follows the subtree is no hole. -/
theorem ext2Bmap_isRun_iff (fs : Ext2Fs) (bmapExtent : Nat → Nat → Nat × Nat)
    (inode : Ext2Inode) (blocksCount : UInt32) (b nblocks : Nat)
    (hflag : inode.flags &&& ext4ExtentsFlag = 0) (hwf : ∀ b, blockOf fs inode b < blocksCount)
    (hb : b * 2 ^ fs.blockShift < inode.size.toNat) :
    IsRun (blockOf fs inode) b (ext2Bmap fs bmapExtent inode b nblocks) ↔
      HolesBehind fs inode b := by
  have hb32 : b * 2 ^ fs.blockShift < 2 ^ 32 := hb.trans inode.size.toNat_lt
  obtain ⟨h1, h2, h3, hlast⟩ := width_bounds hb32
  have hpos := width_pos fs
  have hblock : 2 ^ fs.blockShift = 4 * fs.width := by
    rw [Ext2Fs.width, show (4 : Nat) = 2 ^ 2 from rfl, ← Nat.pow_add]
    congr 1
    have hshift := fs.shift_ge
    omega
  rw [ext2Bmap, if_neg (not_not.mpr hflag)]
  unfold HolesBehind emptyAround
  by_cases hdirect : b < ext2NdirBlocks
  · rw [bmapTraditional, if_pos hdirect, if_pos hdirect]
    exact ⟨fun _ _ _ heq => (nomatch heq), fun _ => direct_isRun hdirect hwf⟩
  have hge : ext2NdirBlocks ≤ b := Nat.le_of_not_lt hdirect
  have hw := h1 hge
  have hcount : addrCount fs = fs.width := Nat.mod_eq_of_lt (hw.trans (by decide))
  have haddr : u32 (2 ^ fs.blockShift) / 4 = fs.width := by
    rw [hblock, u32, Nat.mod_eq_of_lt (by omega), Nat.mul_div_cancel_left _ (by decide)]
  have htwo : 2 ^ (fs.blockShift - 2) = fs.width := rfl
  rw [bmapTraditional, if_neg hdirect, if_neg hdirect]
  simp only [haddr, htwo]
  by_cases hind : b < dindStart fs
  · obtain ⟨off, rfl⟩ := Nat.exists_eq_add_of_le hge
    have hoff : off < fs.width := by
      rw [dindStart] at hind
      omega
    rw [if_pos hind, Nat.add_sub_cancel_left, if_pos hoff]
    exact @bmapIndirect_isRun_iff fs blocksCount 0 ext2NdirBlocks off _ _ hcount hwf
      (fun _ h => blockOf_ind (by rwa [Nat.zero_add, Nat.pow_one] at h))
      (by rwa [Nat.zero_add, Nat.pow_one]) (by rw [Nat.zero_add, Nat.pow_one]; omega)
  have hgeInd : dindStart fs ≤ b := Nat.le_of_not_lt hind
  have hsub : b - ext2NdirBlocks - fs.width = b - dindStart fs := by
    rw [dindStart, Nat.sub_add_eq]
  have hw2 := h2 (by rw [dindStart] at hgeInd; omega)
  have hdouble : u32 (fs.width * fs.width) = fs.width ^ 2 := by
    rw [← Nat.pow_two]
    exact Nat.mod_eq_of_lt (hw2.trans (by decide))
  rw [if_neg hind, if_neg (by rw [dindStart] at hgeInd; omega), hsub, hdouble]
  by_cases hdind : b < tindStart fs
  · obtain ⟨off, rfl⟩ := Nat.exists_eq_add_of_le hgeInd
    have hoff : off < fs.width ^ 2 := by
      rw [tindStart] at hdind
      omega
    rw [if_pos hdind, Nat.add_sub_cancel_left, if_pos hoff]
    exact @bmapIndirect_isRun_iff fs blocksCount 1 (dindStart fs) off _ _ hcount hwf
      (fun _ h => blockOf_dind h) hoff (hw2.trans (by decide))
  have hgeDind : tindStart fs ≤ b := Nat.le_of_not_lt hdind
  have hsub2 : b - dindStart fs - fs.width ^ 2 = b - tindStart fs := by
    rw [tindStart, Nat.sub_add_eq]
  have hw3 := h3 (by rw [tindStart] at hgeDind; omega)
  have htriple : u32 (fs.width ^ 2 * fs.width) = fs.width ^ 3 := by
    rw [← Nat.pow_succ]
    exact Nat.mod_eq_of_lt (hw3.trans (by decide))
  rw [if_neg hdind, if_neg (by rw [tindStart] at hgeDind; omega), hsub2, htriple]
  obtain ⟨off, rfl⟩ := Nat.exists_eq_add_of_le hgeDind
  have hoff : off < fs.width ^ 3 := by omega
  rw [Nat.add_sub_cancel_left, if_pos hoff]
  exact @bmapIndirect_isRun_iff fs blocksCount 2 (tindStart fs) off _ _ hcount hwf
    (fun _ h => blockOf_tind h) hoff (hw3.trans (by decide))

/-! ## Examples -/

/-- The blocks of a file are those that its pointers name. -/
theorem blockOf_lt (hpos : 0 < blocksCount) (hinode : ∀ i, inode.iBlock i < blocksCount)
    (hptr : ∀ p i, fs.pointers p i < blocksCount) (b : Nat) :
    blockOf fs inode b < blocksCount := by
  have htree : ∀ levels start off, start < blocksCount →
      resolveBlock fs levels start off < blocksCount := by
    intro levels
    induction levels with
    | zero => exact fun _ _ h => h
    | succ levels ih =>
      intro start off _
      rw [resolveBlock, resolve]
      split_ifs
      · exact hpos
      · exact ih _ _ (hptr _ _)
  unfold blockOf
  split_ifs
  · exact hinode b
  · exact htree 1 _ _ (hinode _)
  · exact htree 2 _ _ (hinode _)
  · exact htree 3 _ _ (hinode _)
  · exact hpos

/-- A volume with blocks of 1024 bytes: block 200 names block 201, and that block 999. -/
def sampleFs : Ext2Fs where
  blockShift := 10
  pointers p i := if i ≠ 0 then 0 else if p = 200 then 201 else if p = 201 then 999 else 0
  shift_ge := le_rfl
  shift_le := by decide

/-- A file whose data begins in its tree of height two. -/
def sampleInode : Ext2Inode where
  size := 0x100000
  flags := 0
  iBlock i := if i = ext2DindBlock then 200 else 0

/-- The blocks of the sample are all below 1000. -/
theorem sampleInode_blocks (b : Nat) : blockOf sampleFs sampleInode b < 1000 := by
  refine blockOf_lt (by decide) (fun i => ?_) (fun p i => ?_) b
  · change (if i = ext2DindBlock then (200 : UInt32) else 0) < 1000
    split_ifs <;> decide
  · change (if i ≠ 0 then (0 : UInt32) else if p = 200 then 201 else if p = 201 then 999 else 0) <
      1000
    split_ifs <;> decide

/-- A sample with a hole behind its indirect blocks. -/
theorem ext2Bmap_isRun_iff_sample :
    IsRun (blockOf sampleFs sampleInode) 268
        (ext2Bmap sampleFs (fun _ _ => (0, 0)) sampleInode 268 0) ↔
      HolesBehind sampleFs sampleInode 268 :=
  ext2Bmap_isRun_iff sampleFs (fun _ _ => (0, 0)) sampleInode 1000 268 0 rfl sampleInode_blocks
    (by decide)

/-- Position 13, the second one of the missing tree of height one: all of its 256 positions are
reported from there on, and the last one is the first position of the next tree. -/
theorem ext2Bmap_overreports : ¬∀ (fs : Ext2Fs) (bmapExtent : Nat → Nat → Nat × Nat)
    (inode : Ext2Inode) (blocksCount : UInt32) (b nblocks : Nat),
    inode.flags &&& ext4ExtentsFlag = 0 → (∀ b, blockOf fs inode b < blocksCount) →
      b * 2 ^ fs.blockShift < inode.size.toNat →
        IsRun (blockOf fs inode) b (ext2Bmap fs bmapExtent inode b nblocks) := by
  intro h
  have hrun := (h sampleFs (fun _ _ => (0, 0)) sampleInode 1000 13 0 rfl sampleInode_blocks
    (by decide)).2 255
  have hreport : ext2Bmap sampleFs (fun _ _ => (0, 0)) sampleInode 13 0 = (0, 256) := by
    decide +kernel
  have hblock : (blockOf sampleFs sampleInode (13 + 255)).toNat = 999 := by decide +kernel
  rw [hreport, hblock] at hrun
  exact absurd (hrun (by decide)) (by decide)

end Liigboot.Fs.Ext2
