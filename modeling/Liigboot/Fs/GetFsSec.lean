import Liigboot.Fs.Extent
import Mathlib.Algebra.GroupWithZero.Nat

/-!
# Reading a file by extents

`generic_getfssec` keeps two extents of a file between its calls: the one it reads
from and the one the driver returned last, looked up ahead. Both always agree with
the map of the file; the driver's operation is a parameter, and what is asked of
it is that it maps the sectors of the file in runs that agree with one map.
-/

namespace Liigboot.Fs

/-! ## The model -/

/-- The fields of `struct inode` that a read touches; `pvt` belongs to the driver. -/
structure Inode (σ : Type) where
  size : UInt32
  thisExtent : Extent
  nextExtent : Extent
  pvt : σ

/-- What a driver's `next_extent` returns: an error code, and its stores into the inode. -/
structure Mapped (σ : Type) where
  error : Bool
  pstart : Nat
  len : Nat
  pvt : σ

/-- A mounted filesystem: its `next_extent` operation, its sector size, and the disk. The operation
leaves the size of the file alone; `fat_next_extent` cuts it where a chain of clusters ends early. -/
structure FsInfo (σ : Type) where
  nextExtent : Inode σ → Nat → Mapped σ
  sectorShift : Nat
  disk : Nat → List UInt8
  /-- `sector_size` is an `int`. -/
  shift_lt : sectorShift < 31
  disk_length : ∀ p, (disk p).length = 2 ^ sectorShift

variable {σ : Type}

/-- The usual sectors of 512 bytes are within the limit. -/
theorem usualShift_lt : 9 < 31 := by decide

theorem zeroSectors_length (p : Nat) :
    ((fun _ => List.replicate 512 (0 : UInt8)) p).length = 2 ^ 9 :=
  List.length_replicate

/-- `SECTOR_SIZE(fs)`. -/
def FsInfo.sectorSize (fs : FsInfo σ) : Nat := 2 ^ fs.sectorShift

/-- `get_next_extent`. -/
def getNextExtent (fs : FsInfo σ) (inode : Inode σ) : Inode σ :=
  let lstart := u32 (inode.thisExtent.lstart + inode.thisExtent.len)
  let r := fs.nextExtent inode lstart
  { inode with pvt := r.pvt, nextExtent := ⟨r.pstart, lstart, if r.error then 0 else r.len⟩ }

/-- The test for an extent that does not hold `lsector`. -/
def Extent.unusable (e : Extent) (lsector : Nat) : Bool :=
  lsector < e.lstart || lsector ≥ u32 (e.lstart + e.len)

/-- Make `this_extent` start at `lsector`, empty when nothing known holds that sector. -/
def seekExtent (inode : Inode σ) (lsector : Nat) : Inode σ :=
  let this := if inode.thisExtent.unusable lsector then inode.nextExtent else inode.thisExtent
  if this.unusable lsector then
    { inode with thisExtent := { this with lstart := lsector, len := 0 } }
  else
    let delta := lsector - this.lstart
    { inode with thisExtent := ⟨nextPsector this.pstart delta, lsector, this.len - delta⟩ }

/-- `while (sectors > inode->this_extent.len)`: fetch and join extents until there is enough to
read or the next one lies elsewhere. Returns `sectors` too, which an error sets to 0. -/
def lookahead (fs : FsInfo σ) : Nat → Inode σ → Nat → Option (Inode σ × Nat)
  | 0, _, _ => none
  | fuel + 1, inode, sectors =>
    if sectors ≤ inode.thisExtent.len then some (inode, sectors)
    else
      let inode :=
        if inode.nextExtent.len = 0 ∨
            inode.nextExtent.lstart ≠ u32 (inode.thisExtent.lstart + inode.thisExtent.len) then
          getNextExtent fs inode
        else inode
      if inode.thisExtent.len = 0 then
        let inode := { inode with thisExtent := inode.nextExtent }
        if inode.nextExtent.len = 0 then some (inode, 0)
        else lookahead fs fuel inode sectors
      else if inode.nextExtent.len ≠ 0 ∧
          inode.nextExtent.pstart = nextPstart inode.thisExtent then
        let len := u32 (inode.thisExtent.len + inode.nextExtent.len)
        lookahead fs fuel { inode with thisExtent := { inode.thisExtent with len := len } } sectors
      else some (inode, sectors)

/-- The bytes stored for `chunk` sectors from the start of an extent. -/
def readChunk (fs : FsInfo σ) (e : Extent) (chunk : Nat) : List UInt8 :=
  if e.pstart = extentZero then List.replicate (u32 (chunk * fs.sectorSize)) 0
  else (List.range chunk).flatMap fun j => fs.disk (e.pstart + j)

/-- `while (sectors)`. Returns the inode, `bytes_read`, and the bytes stored into the buffer. -/
def readLoop (fs : FsInfo σ) :
    Nat → Inode σ → Nat → Nat → List UInt8 → Option (Inode σ × Nat × List UInt8)
  | 0, _, _, _, _ => none
  | fuel + 1, inode, sectors, bytesRead, buf =>
    if sectors = 0 then some (inode, bytesRead, buf)
    else match lookahead fs fuel inode sectors with
      | none => none
      | some (inode, sectors) =>
        let this := inode.thisExtent
        let chunk := min sectors this.len
        let pstart := if this.pstart = extentZero then this.pstart else u64 (this.pstart + chunk)
        readLoop fs fuel
          { inode with thisExtent := ⟨pstart, u32 (this.lstart + chunk), this.len - chunk⟩ }
          (sectors - chunk) (u32 (bytesRead + u32 (chunk * fs.sectorSize)))
          (buf ++ readChunk fs this chunk)

/-- What one read leaves: the bytes it returned, the state of the file, and `*have_more`, if it
was stored. -/
structure Got (σ : Type) where
  data : List UInt8
  inode : Inode σ
  offset : Nat
  haveMore : Option Bool

/-- `generic_getfssec`. -/
def genericGetfssec (fs : FsInfo σ) (fuel : Nat) (inode : Inode σ) (offset sectors : Nat) :
    Option (Got σ) :=
  let bytesLeft := u32 (inode.size.toNat + 2 ^ 32 - offset)
  let sectorsLeft := u32 (bytesLeft + fs.sectorSize - 1) / fs.sectorSize
  let sectors := min sectors sectorsLeft
  if sectors = 0 then some ⟨[], inode, offset, none⟩
  else
    match readLoop fs fuel (seekExtent inode (offset / fs.sectorSize)) sectors 0 [] with
    | none => none
    | some (inode, bytesRead, buf) =>
      let bytesRead := min bytesRead bytesLeft
      some ⟨buf.take bytesRead, inode, u32 (offset + bytesRead), some (bytesRead < bytesLeft)⟩

/-- The data returned by a sequence of reads, one behind the other. -/
def readAll (fs : FsInfo σ) (fuel : Nat) : List Nat → Inode σ → Nat → Option (List UInt8)
  | [], _, _ => some []
  | n :: ns, inode, offset =>
    match genericGetfssec fs fuel inode offset n with
    | none => none
    | some g => (readAll fs fuel ns g.inode g.offset).map (g.data ++ ·)

/-- An inode as it is allocated. -/
def Inode.fresh (size : UInt32) (pvt : σ) : Inode σ := ⟨size, ⟨0, 0, 0⟩, ⟨0, 0, 0⟩, pvt⟩

/-! ## The mapped contents -/

/-- The bytes of one sector of a file. -/
def sectorData (fs : FsInfo σ) (map : SectorMap) (l : Nat) : List UInt8 :=
  match map l with
  | none => List.replicate fs.sectorSize 0
  | some p => fs.disk p

/-- The bytes of `n` sectors of a file from sector `l` on. -/
def sectors (fs : FsInfo σ) (map : SectorMap) (l n : Nat) : List UInt8 :=
  (List.range n).flatMap fun j => sectorData fs map (l + j)

/-- The number of sectors that hold `size` bytes. -/
def FsInfo.sectorsOf (fs : FsInfo σ) (size : Nat) : Nat :=
  (size + fs.sectorSize - 1) / fs.sectorSize

/-- The mapped contents of a file. -/
def contents (fs : FsInfo σ) (map : SectorMap) (size : Nat) : List UInt8 :=
  (sectors fs map 0 (fs.sectorsOf size)).take size

/-- The driver maps the sectors of files of this size by one map: asked for a sector of the
file, it returns a run of at least one sector that agrees with the map. `ok` is what the driver
keeps in its private data between the calls. -/
structure Implements (fs : FsInfo σ) (map : SectorMap) (size : UInt32) (ok : σ → Prop) : Prop where
  mapped : ∀ (inode : Inode σ) (lstart : Nat), inode.size = size → ok inode.pvt →
    inode.nextExtent.Maps map → lstart < fs.sectorsOf size.toNat →
    (fs.nextExtent inode lstart).error = false ∧ 0 < (fs.nextExtent inode lstart).len ∧
      ok (fs.nextExtent inode lstart).pvt ∧
      Extent.Maps map
        ⟨(fs.nextExtent inode lstart).pstart, lstart, (fs.nextExtent inode lstart).len⟩

/-- From some fuel on, a sequence of reads on a fresh inode returns the file's contents in
order, up to the number of sectors asked for. -/
def ReadsInOrder (fs : FsInfo σ) (map : SectorMap) (size : UInt32) (pvt : σ)
    (requests : List Nat) : Prop :=
  ∃ N, ∀ fuel ≥ N, readAll fs fuel requests (Inode.fresh size pvt) 0 =
    some ((contents fs map size.toNat).take (requests.sum * fs.sectorSize))

theorem FsInfo.sectorSize_pos (fs : FsInfo σ) : 0 < fs.sectorSize := Nat.two_pow_pos _

/-- The size of a sector is an `int`. -/
theorem FsInfo.sectorSize_lt (fs : FsInfo σ) : fs.sectorSize < 2 ^ 31 :=
  Nat.pow_lt_pow_right (by decide) fs.shift_lt

@[simp] theorem length_sectorData (fs : FsInfo σ) (map : SectorMap) (l : Nat) :
    (sectorData fs map l).length = fs.sectorSize := by
  rw [sectorData]
  split
  · rw [List.length_replicate]
  · exact fs.disk_length _

/-- The last sector comes behind the others. -/
theorem sectors_succ (fs : FsInfo σ) (map : SectorMap) (l n : Nat) :
    sectors fs map l (n + 1) = sectors fs map l n ++ sectorData fs map (l + n) := by
  simp only [sectors, List.range_succ, List.flatMap_append, List.flatMap_cons, List.flatMap_nil,
    List.append_nil]

@[simp] theorem length_sectors (fs : FsInfo σ) (map : SectorMap) (l n : Nat) :
    (sectors fs map l n).length = n * fs.sectorSize := by
  induction n with
  | zero => rw [Nat.zero_mul]; rfl
  | succ n ih => rw [sectors_succ, List.length_append, ih, length_sectorData, Nat.succ_mul]

/-- Sectors one behind the other. -/
theorem sectors_append (fs : FsInfo σ) (map : SectorMap) (l m n : Nat) :
    sectors fs map l (m + n) = sectors fs map l m ++ sectors fs map (l + m) n := by
  induction n with
  | zero => exact (List.append_nil _).symm
  | succ n ih =>
    rw [← Nat.add_assoc, sectors_succ, ih, List.append_assoc, sectors_succ, Nat.add_assoc]

/-- What is left of a file behind its first `l` sectors starts with the next `n`. -/
theorem contents_window (fs : FsInfo σ) (map : SectorMap) (size : Nat) {l n : Nat}
    (h : l + n ≤ fs.sectorsOf size) :
    ((contents fs map size).drop (l * fs.sectorSize)).take (n * fs.sectorSize) =
      (sectors fs map l n).take (size - l * fs.sectorSize) := by
  obtain ⟨m, hm⟩ := Nat.exists_eq_add_of_le h
  have hl : (sectors fs map 0 l).length = l * fs.sectorSize := length_sectors ..
  have hn : (sectors fs map l n).length = n * fs.sectorSize := length_sectors ..
  rw [contents, hm, sectors_append, sectors_append, Nat.zero_add, List.append_assoc,
    List.drop_take, ← hl, List.drop_left, List.take_take, Nat.min_comm, ← List.take_take, ← hn,
    List.take_left]

/-- A chunk of an extent that agrees with the map holds the file's own sectors. -/
theorem readChunk_eq {fs : FsInfo σ} {map : SectorMap} {e : Extent} (h : e.Maps map) {chunk : Nat}
    (hle : chunk ≤ e.len) (hlt : chunk * fs.sectorSize < 2 ^ 32) :
    readChunk fs e chunk = sectors fs map e.lstart chunk := by
  have hphys : ∀ j < chunk, map (e.lstart + j) = e.phys j := fun j hj => h.phys_eq j (hj.trans_le hle)
  rw [readChunk]
  by_cases hz : e.pstart = extentZero
  · rw [if_pos hz, u32_of_lt hlt]
    clear hle hlt
    induction chunk with
    | zero => rw [Nat.zero_mul]; rfl
    | succ n ih =>
      rw [sectors_succ, ← ih fun j hj => hphys j (Nat.lt_succ_of_lt hj), sectorData,
        hphys n (Nat.lt_succ_self n), Extent.phys, if_pos hz, Nat.succ_mul, List.replicate_add]
  · rw [if_neg hz, sectors]
    refine List.flatMap_congr fun j hj => ?_
    rw [sectorData, hphys j (List.mem_range.mp hj), Extent.phys, if_neg hz]

end Liigboot.Fs
