import Liigboot.Fs.Cache
import Mathlib.Data.List.Induction
import Mathlib.Data.List.Infix

/-!
# Block zero of an ext2 volume

`ext2_fs_init` clears the buffer of a descriptor and locks it, to serve as block zero. It does not
label the descriptor, and `fs_init` then initializes the cache once more. So block zero is a block
like any other: what is on the disk, as long as it is used often enough.
-/

namespace Liigboot.Fs.Ext2

open Cache

/-! ## Mounting -/

/-- `memset(cs->data, 0, n)`. -/
def clear (s : State) (cs : Ptr) (n : Nat) : State :=
  { s with mem := fun a => if s.data cs ≤ a ∧ a < s.data cs + n then 0 else s.mem a }

/-- The size of `diskcache`. -/
def diskcacheSize : Nat := 128 * 1024

/-- The end of `ext2_fs_init`: initialize the cache, and force block zero to all zero. -/
def ext2FsInit (cacheData sectorSize blockShift : Nat) (s : State) : Option (Device × State) :=
  (cacheInit cacheData diskcacheSize sectorSize blockShift s).map fun (dev, s) =>
    let (cs, s) := getCacheBlock dev s 0
    let s := clear s cs (2 ^ blockShift)
    (dev, cacheLockBlock s cs)

/-- `fs_init` on an ext2 volume: it initializes the cache when `fs_init` of the file system has
returned. -/
def fsInit (cacheData sectorSize blockShift : Nat) (s : State) : Option (Device × State) :=
  (ext2FsInit cacheData sectorSize blockShift s).bind fun (_, s) =>
    cacheInit cacheData diskcacheSize sectorSize blockShift s

/-- The cache after some requests. -/
def serve (disk : Disk) (dev : Device) (s : State) (requests : List UInt64) : State :=
  requests.foldl (fun s b => (getCache disk dev s b).2) s

/-! ## Requests -/

variable {disk : Disk} {dev : Device} {s : State} {requests : List UInt64} {i : Nat}

end Liigboot.Fs.Ext2
