import Liigboot.Lib.Memory
import Liigboot.Fs.Extent

/-!
# Group descriptors and inodes of ext2

An inode is found in two steps: its group gives the place of a descriptor in the table behind the
superblock, and its number in the group gives its place in the inode table that the descriptor
names. The size of a descriptor on the disk is a field of the superblock. It counts the descriptors
of a block; the descriptors inside a block are taken as an array of the size that the program knows.

The size of a block is an `int`, shifted by a number of the superblock. The cache keeps 16 bits of
it, and reads whole sectors.
-/

namespace Liigboot.Fs.Ext2

/-- The fields of `struct ext2_super_block` that are used. -/
structure Ext2SuperBlock where
  sBlocksCount : UInt32
  sFirstDataBlock : UInt32
  sLogBlockSize : UInt32
  sBlocksPerGroup : UInt32
  sInodesPerGroup : UInt32
  sMagic : UInt16
  sInodeSize : UInt16
  sDescSize : UInt16

/-- `1 << fs->block_shift`, where the processor takes the last five bits of the number. -/
def Ext2SuperBlock.blockSize (sb : Ext2SuperBlock) : Nat :=
  2 ^ ((sb.sLogBlockSize + 10).toNat % 32)

/-- A pointer into the cache: a block, and the bytes behind its start. -/
structure BlockPtr where
  block : Nat
  offset : Nat
  deriving DecidableEq, Repr

/-- The byte of the volume that a pointer leads to. -/
def BlockPtr.byte (p : BlockPtr) (blockSize : Nat) : Nat := p.block * blockSize + p.offset

end Liigboot.Fs.Ext2
