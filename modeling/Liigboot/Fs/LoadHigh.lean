import Liigboot.Fs.GetFsSec
import Liigboot.Lib.Loop

/-!
# Loading a file into high memory

`pm_load_high` reads a file with `getfssec` until it has all the bytes that were asked for, the
file ends, or memory does. Whether the file ends is told by `have_more`, a variable that is not
initialized, and that a read stores only when it reads sectors.
-/

namespace Liigboot.Fs

variable {σ : Type}

/-- The registers of `pm_load_high`. -/
structure LoadRegs where
  /-- Maximum number of bytes to load. -/
  eax : UInt32
  /-- Subroutine to call at the top of each iteration. -/
  bx : UInt16
  /-- Zero-padding mask. -/
  dx : UInt16
  /-- Target address. -/
  edi : UInt32
  /-- Maximum load address. -/
  ebp : UInt32
  deriving DecidableEq, Repr

/-- The variables of the loop of `pm_load_high`, the file, and the bytes stored so far. -/
structure LoadState (σ : Type) where
  buf : Nat
  bytes : Nat
  haveMore : Bool
  inode : Inode σ
  offset : Nat
  data : List UInt8

/-- The flag that is set when the loop ends. -/
inductive LoadFlag where
  | none
  | carry
  | overflow
  deriving DecidableEq, Repr

/-- What `pm_load_high` leaves: the first address behind the file, without and with padding, the
flag, and the state of the file. -/
structure Loaded (σ : Type) where
  ebx : UInt32
  edi : UInt32
  flag : LoadFlag
  state : LoadState σ

/-- `MAX_CHUNK`. -/
def maxChunk : Nat := 2 ^ 20

/-- The bytes that an iteration asks for. -/
def LoadState.chunk (fs : FsInfo σ) (limit : Nat) (callback : Bool) (s : LoadState σ) : Nat :=
  let chunk := if callback then min s.bytes maxChunk else s.bytes
  let room := u32 (limit + 2 ^ 32 - s.buf) / fs.sectorSize * fs.sectorSize
  if chunk > room then room else chunk

/-- The sectors that an iteration asks for. -/
def LoadState.request (fs : FsInfo σ) (limit : Nat) (callback : Bool) (s : LoadState σ) : Nat :=
  u32 (s.chunk fs limit callback + (fs.sectorSize - 1)) / fs.sectorSize

/-- An iteration of the loop of `pm_load_high`. It hangs when `getfssec` does not return. -/
def loadStep (fs : FsInfo σ) (fuel limit : Nat) (callback : Bool) (s : LoadState σ) :
    Step (LoadState σ) (LoadFlag × LoadState σ) :=
  if s.bytes = 0 then .stop (.none, s)
  else if u32 (s.buf + fs.sectorSize) > limit then .stop (.overflow, s)
  else
    match genericGetfssec fs fuel s.inode s.offset (s.request fs limit callback) with
    | none => .hang
    | some got =>
      let bytesRead := min got.data.length (s.chunk fs limit callback)
      let haveMore := got.haveMore.getD s.haveMore
      let s' := ⟨u32 (s.buf + bytesRead), s.bytes - bytesRead, haveMore, got.inode, got.offset,
        s.data ++ got.data.take bytesRead⟩
      if haveMore then .next s' else .stop (.carry, s')

/-- The variables in front of the loop; `garbage` is what `have_more` holds. -/
def loadInit (regs : LoadRegs) (inode : Inode σ) (offset : Nat) (garbage : Bool) : LoadState σ :=
  ⟨regs.edi.toNat, regs.eax.toNat, garbage, inode, offset, []⟩

/-- The highest address that is written. -/
def LoadRegs.limit (regs : LoadRegs) : Nat := (regs.ebp &&& ~~~regs.dx.toUInt32).toNat

/-- The iteration for some registers. -/
def LoadRegs.step (regs : LoadRegs) (fs : FsInfo σ) (fuel : Nat) (s : LoadState σ) :
    Step (LoadState σ) (LoadFlag × LoadState σ) :=
  loadStep fs fuel regs.limit (regs.bx ≠ 0) s

/-- `pm_load_high`, for a number of iterations. -/
def pmLoadHigh (fs : FsInfo σ) (fuel iterations : Nat) (regs : LoadRegs) (inode : Inode σ)
    (offset : Nat) (garbage : Bool) : Option (Loaded σ) :=
  (runLoop (regs.step fs fuel) iterations (loadInit regs inode offset garbage)).map
    fun (flag, s) =>
      let pad := UInt32.ofNat s.buf &&& regs.dx.toUInt32
      ⟨UInt32.ofNat s.buf, UInt32.ofNat s.buf + pad, flag, s⟩

/-! ## Conditions for a call -/

/-- The sectors that are left of a file. -/
def sectorsLeft (fs : FsInfo σ) (inode : Inode σ) (offset : Nat) : Nat :=
  u32 (u32 (inode.size.toNat + 2 ^ 32 - offset) + fs.sectorSize - 1) / fs.sectorSize

/-- The extent behind the current one, asked from the driver when it is not there already. -/
def refetch (fs : FsInfo σ) (inode : Inode σ) : Inode σ :=
  if inode.nextExtent.len = 0 ∨
      inode.nextExtent.lstart ≠ u32 (inode.thisExtent.lstart + inode.thisExtent.len) then
    getNextExtent fs inode
  else inode

/-- There is an extent to read from: the current one, or the one behind it. -/
def HasExtent (fs : FsInfo σ) (inode : Inode σ) : Prop :=
  inode.thisExtent.len ≠ 0 ∨ (refetch fs inode).nextExtent.len ≠ 0

instance (fs : FsInfo σ) (inode : Inode σ) : Decidable (HasExtent fs inode) :=
  inferInstanceAs (Decidable (_ ∨ _))

/-- The state in front of an iteration in which a call of `getfssec` gets sectors to read, or
where there are none, and `have_more` happens to be false. -/
def Feeds (fs : FsInfo σ) (limit : Nat) (callback : Bool) (s : LoadState σ) : Prop :=
  s.bytes = 0 ∨ u32 (s.buf + fs.sectorSize) > limit ∨
    if min (s.request fs limit callback) (sectorsLeft fs s.inode s.offset) = 0 then
      s.haveMore = false
    else HasExtent fs (seekExtent s.inode (s.offset / fs.sectorSize))

/-- The extents that the driver returns end in front of sector 2^32. `ok` is what it keeps in its
private data. -/
def NoWrap (fs : FsInfo σ) (ok : σ → Prop) : Prop :=
  ∀ (inode : Inode σ) (lstart : Nat), ok inode.pvt → ok (fs.nextExtent inode lstart).pvt ∧
    ((fs.nextExtent inode lstart).error = false →
      lstart + (fs.nextExtent inode lstart).len < 2 ^ 32)

/-- The extents of an inode end in front of sector 2^32. -/
structure Sane (ok : σ → Prop) (inode : Inode σ) : Prop where
  pvt_ok : ok inode.pvt
  this_lt : inode.thisExtent.lstart + inode.thisExtent.len < 2 ^ 32
  next_lt : inode.nextExtent.lstart + inode.nextExtent.len < 2 ^ 32

end Liigboot.Fs
