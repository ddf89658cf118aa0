import Liigboot.Lib.Odometer
import Mathlib.Algebra.Group.Nat.Defs
import Mathlib.Data.Nat.Find

/-!
# The trees of btrfs

`search_tree` goes down from a block to a leaf and keeps the slots on the way in a path. In each
block it looks from the slot on that the path has for its level. `next_slot` and `next_leaf` move
a slot of the path on, and search again from there.
-/

namespace Liigboot.Fs.Btrfs

/-- `struct btrfs_disk_key`. -/
structure BtrfsDiskKey where
  objectid : UInt64
  type : UInt8
  offset : UInt64
  deriving DecidableEq, Repr

/-- `struct btrfs_item`. -/
structure BtrfsItem where
  key : BtrfsDiskKey
  offset : Nat
  size : Nat
  deriving DecidableEq, Repr

/-- `struct btrfs_key_ptr`. -/
structure BtrfsKeyPtr where
  key : BtrfsDiskKey
  blockptr : Nat
  deriving DecidableEq, Repr

/-- A block: the header, what follows it read as `struct btrfs_node` and as `struct btrfs_leaf`,
and the bytes at an offset behind the header. -/
structure Block where
  level : Nat
  nritems : Nat
  ptrs : Nat → BtrfsKeyPtr
  items : Nat → BtrfsItem
  data : Nat → Nat → List UInt8

/-- What a search reads: the sizes of nodes and leaves in the superblock, and the blocks at logical
addresses. -/
structure BtrfsDisk where
  nodesize : UInt32
  leafsize : UInt32
  block : Nat → Block

instance : CoeFun BtrfsDisk fun _ => Nat → Block := ⟨BtrfsDisk.block⟩

/-- `struct btrfs_path`. -/
structure BtrfsPath where
  offsets : Nat → Nat
  itemsnr : Nat → Nat
  slots : Nat → Nat
  item : BtrfsItem
  data : List UInt8

/-- `BTRFS_MAX_LEVEL`. -/
def btrfsMaxLevel : Nat := 8

/-- `BTRFS_MAX_LEAF_SIZE`. -/
def btrfsMaxLeafSize : Nat := 4096

/-- The sizes of `struct btrfs_header`, of `struct btrfs_key_ptr` and of `struct btrfs_item`. -/
def sizeofHeader : Nat := 101

@[inherit_doc sizeofHeader] def sizeofKeyPtr : Nat := 33

@[inherit_doc sizeofHeader] def sizeofItem : Nat := 25

/-- A size of blocks that the buffer of `search_tree` has room for. With a smaller one the number of
bytes behind the header wraps. -/
def FitsBuffer (size : UInt32) : Prop := sizeofHeader ≤ size.toNat ∧ size.toNat ≤ btrfsMaxLeafSize

instance (size : UInt32) : Decidable (FitsBuffer size) := inferInstanceAs (Decidable (_ ∧ _))

/-! ## The source -/

/-- `btrfs_comp_keys`. -/
def btrfsCompKeys (k1 k2 : BtrfsDiskKey) : Int :=
  if k1.objectid > k2.objectid then 1
  else if k1.objectid < k2.objectid then -1
  else if k1.type > k2.type then 1
  else if k1.type < k2.type then -1
  else if k1.offset > k2.offset then 1
  else if k1.offset < k2.offset then -1
  else 0

/-- The loop of `bin_search`, for a number of steps that is enough. -/
def binLoop (func : Nat → Int) : Nat → Nat → Nat → Nat × Nat
  | 0, low, _ => (1, low)
  | steps + 1, low, high =>
    if low < high then
      let mid := (low + high) / 2
      let ret := func mid
      if ret < 0 then binLoop func steps (mid + 1) high
      else if ret > 0 then binLoop func steps low mid
      else (0, mid)
    else (1, low)

/-- `bin_search`: what it returns, and the slot. -/
def binSearch (func : Nat → Int) (min max : Nat) : Nat × Nat := binLoop func (max - min) min max

/-- `clear_path`. -/
def clearPath : BtrfsPath := ⟨fun _ => 0, fun _ => 0, fun _ => 0, ⟨⟨0, 0, 0⟩, 0, 0⟩, []⟩

/-- An array with one element written. -/
def store (xs : Nat → Nat) (i x : Nat) : Nat → Nat := fun j => if j = i then x else xs j

/-- `search_tree`: what it returns, and the path. There is no result when it goes deeper than
`depth` blocks or writes behind its buffer, the arrays of the path or its data. -/
def searchTree (disk : BtrfsDisk) (key : BtrfsDiskKey) :
    Nat → Nat → BtrfsPath → Option (Nat × BtrfsPath)
  | 0, _, _ => none
  | depth + 1, loffset, path =>
    let block := disk loffset
    let level := block.level
    if btrfsMaxLevel ≤ level then none
    else if level ≠ 0 then
      if ¬FitsBuffer disk.nodesize then none
      else
        let itemsnr := store path.itemsnr level block.nritems
        let offsets := store path.offsets level loffset
        let (ret, slot) := binSearch (fun i => btrfsCompKeys (block.ptrs i).key key)
          (path.slots level) block.nritems
        let slot := if ret ≠ 0 ∧ slot > path.slots level then slot - 1 else slot
        let slots := store path.slots level slot
        searchTree disk key depth (block.ptrs slot).blockptr { path with offsets, itemsnr, slots }
    else if ¬FitsBuffer disk.leafsize then none
    else
      let itemsnr := store path.itemsnr level block.nritems
      let offsets := store path.offsets 0 loffset
      let (ret, slot) := binSearch (fun i => btrfsCompKeys (block.items i).key key)
        (path.slots 0) block.nritems
      let slot := if ret ≠ 0 ∧ slot > path.slots level then slot - 1 else slot
      let slots := store path.slots 0 slot
      let item := block.items slot
      if btrfsMaxLeafSize < item.size then none
      else some (ret, ⟨offsets, itemsnr, slots, item, block.data item.offset item.size⟩)

/-- The loop of `next_leaf`. -/
def nextLeafLoop (disk : BtrfsDisk) (key : BtrfsDiskKey) (depth : Nat) (path : BtrfsPath) :
    Nat → Nat → Option (Nat × BtrfsPath)
  | 0, _ => some (1, path)
  | levels + 1, level =>
    if path.itemsnr level = 0 then some (1, path)
    else
      let slot := path.slots level + 1
      if slot ≥ path.itemsnr level then nextLeafLoop disk key depth path levels (level + 1)
      else
        let slots := store (store path.slots level slot) (level - 1) 0
        (searchTree disk key depth (path.offsets level) { path with slots }).map
          fun (_, path) => (0, path)

/-- `next_leaf`: what it returns, and the path. -/
def nextLeaf (disk : BtrfsDisk) (key : BtrfsDiskKey) (depth : Nat) (path : BtrfsPath) :
    Option (Nat × BtrfsPath) :=
  nextLeafLoop disk key depth path (btrfsMaxLevel - 1) 1

/-- `next_slot`: what it returns, and the path. -/
def nextSlot (disk : BtrfsDisk) (key : BtrfsDiskKey) (depth : Nat) (path : BtrfsPath) :
    Option (Nat × BtrfsPath) :=
  if path.itemsnr 0 = 0 then some (1, path)
  else
    let slot := path.slots 0 + 1
    if slot ≥ path.itemsnr 0 then some (1, path)
    else
      let slots := store path.slots 0 slot
      (searchTree disk key depth (path.offsets 0) { path with slots }).map
        fun (_, path) => (0, path)

/-- What a caller sees of a path in a tree: where the item is, the item and its data. -/
structure Visit where
  slots : List Nat
  item : BtrfsItem
  data : List UInt8
  deriving DecidableEq, Repr

def BtrfsPath.visit (path : BtrfsPath) (level : Nat) : Visit :=
  ⟨slotList path.slots level, path.item, path.data⟩

/-- The loops of the callers around `next_slot` and `next_leaf`, for a number of calls that is
enough. -/
def visitLoop (disk : BtrfsDisk) (key : BtrfsDiskKey) (depth level : Nat) :
    Nat → BtrfsPath → Option (List Visit)
  | 0, _ => none
  | calls + 1, path =>
    let visit := path.visit level
    match nextSlot disk key depth path with
    | none => none
    | some (0, path) => (visitLoop disk key depth level calls path).map (visit :: ·)
    | some (_ + 1, path) =>
      match nextLeaf disk key depth path with
      | none => none
      | some (0, path) => (visitLoop disk key depth level calls path).map (visit :: ·)
      | some (_ + 1, _) => some [visit]

/-- The items that are visited from `search_tree` on. -/
def visitTree (disk : BtrfsDisk) (key : BtrfsDiskKey) (depth level root calls : Nat) :
    Option (List Visit) :=
  match searchTree disk key depth root clearPath with
  | none => none
  | some (_, path) => visitLoop disk key depth level calls path

/-! ## Well-formed trees -/

/-- The place of a key in the order of keys. -/
def BtrfsDiskKey.rank (k : BtrfsDiskKey) : Nat :=
  k.objectid.toNat * 2 ^ 72 + k.type.toNat * 2 ^ 64 + k.offset.toNat

/-- The keys of a block. -/
def Block.key (b : Block) (i : Nat) : BtrfsDiskKey :=
  if b.level = 0 then (b.items i).key else (b.ptrs i).key

/-- The entries of a block. -/
def entries (disk : BtrfsDisk) (loffset : Nat) : Nat := (disk loffset).nritems

/-- The blocks below a block. -/
def childOf (disk : BtrfsDisk) (loffset i : Nat) : Nat := ((disk loffset).ptrs i).blockptr

/-- A block of a tree: it is not empty, and its keys are sorted. -/
structure Block.Sorted (b : Block) (level : Nat) : Prop where
  level_eq : b.level = level
  pos : 0 < b.nritems
  lt : ∀ i j, i < j → j < b.nritems → (b.key i).rank < (b.key j).rank

/-- A sorted block, with its pointers or its items in it and the data of the items behind them. -/
structure BtrfsDisk.Sound (disk : BtrfsDisk) (loffset level : Nat) : Prop
    extends (disk loffset).Sorted level where
  ptrs_le : level ≠ 0 →
    sizeofHeader + (disk loffset).nritems * sizeofKeyPtr ≤ disk.nodesize.toNat
  items_le : level = 0 →
    sizeofHeader + (disk loffset).nritems * sizeofItem ≤ disk.leafsize.toNat
  data_le : level = 0 → ∀ i < (disk loffset).nritems, sizeofHeader +
    ((disk loffset).items i).offset + ((disk loffset).items i).size ≤ disk.leafsize.toNat

/-- The blocks of a tree are sorted, and the key of a pointer is a lower bound for those in the
block it points to. -/
def WellFormed (disk : BtrfsDisk) : Nat → Nat → Prop
  | 0, loffset => disk.Sound loffset 0
  | level + 1, loffset => disk.Sound loffset (level + 1) ∧
    ∀ i < entries disk loffset, WellFormed disk level (childOf disk loffset i) ∧
      ∀ j < entries disk (childOf disk loffset i),
        ((disk loffset).key i).rank ≤ ((disk (childOf disk loffset i)).key j).rank

/-- The blocks of a tree with a root at some level fit the buffer. -/
def BtrfsDisk.Fits (disk : BtrfsDisk) (level : Nat) : Prop :=
  FitsBuffer disk.leafsize ∧ (level ≠ 0 → FitsBuffer disk.nodesize)

/-- The leaf and the slot at the end of a path. -/
def leafOf (disk : BtrfsDisk) (loffset : Nat) : List Nat → Nat × Nat
  | [] => (loffset, 0)
  | [slot] => (loffset, slot)
  | slot :: slots => leafOf disk (childOf disk loffset slot) slots

/-- The visit of the item at the end of a path. -/
def visitAt (disk : BtrfsDisk) (root : Nat) (slots : List Nat) : Visit :=
  let (leaf, slot) := leafOf disk root slots
  let item := (disk leaf).items slot
  ⟨slots, item, (disk leaf).data item.offset item.size⟩

/-- All items of a tree, in order. -/
def allVisits (disk : BtrfsDisk) (level root : Nat) : List Visit :=
  (paths (entries disk) (childOf disk) level root).map (visitAt disk root)

/-- The path that the keys of the blocks lead to: in each block the last entry that is not behind
the key, or the first one. -/
def startSlots (disk : BtrfsDisk) (key : BtrfsDiskKey) : Nat → Nat → List Nat
  | level, loffset =>
    let slot := Nat.findGreatest (fun i => ((disk loffset).key i).rank ≤ key.rank)
      (entries disk loffset - 1)
    match level with
    | 0 => [slot]
    | level + 1 => slot :: startSlots disk key level (childOf disk loffset slot)

/-- A leaf may be a root. -/
theorem leafLevel_lt : 0 < btrfsMaxLevel := by decide

/-- A tree. Its root may be an empty leaf. -/
structure BtrfsTree where
  disk : BtrfsDisk
  root : Nat
  level : Nat
  level_lt : level < btrfsMaxLevel
  wellFormed : WellFormed disk level root ∨
    level = 0 ∧ (disk root).level = 0 ∧ entries disk root = 0
  sorted : (allVisits disk level root).Pairwise fun v w => v.item.key.rank < w.item.key.rank

/-- What a search of a tree reads fits: its blocks do, and in an empty leaf the data of what lies
behind the header. -/
structure BtrfsTree.Fits (t : BtrfsTree) : Prop where
  blocks : t.disk.Fits t.level
  empty : entries t.disk t.root = 0 → ((t.disk t.root).items 0).size ≤ btrfsMaxLeafSize

/-- The items of a tree from the one on that a key leads to. -/
def BtrfsTree.visitsFrom (t : BtrfsTree) (key : BtrfsDiskKey) : List Visit :=
  let start := visitAt t.disk t.root (startSlots t.disk key t.level t.root)
  (allVisits t.disk t.level t.root).filter fun v => start.item.key.rank ≤ v.item.key.rank

/-- From one path to the next one, where a slot moves on, the slots two or more levels below are
0 already. -/
def climbOk : List Nat → List Nat → Bool
  | slot :: slots, slot' :: slots' =>
    if slot = slot' then climbOk slots slots' else (slots.drop 1).all (· = 0)
  | _, _ => true

end Liigboot.Fs.Btrfs
