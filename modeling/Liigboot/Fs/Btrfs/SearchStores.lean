import Liigboot.Fs.Btrfs.ChunkMap
import Liigboot.Fs.Extent
import Liigboot.Lib.Memory
import Mathlib.Logic.Function.Basic

/-!
# What a search of a btrfs tree stores

`search_tree` reads a block into a buffer on its stack, and the data of an item into the path. The
numbers of bytes come from the superblock and from the item, and the index into the arrays of the
path is the level of the block. None of them is checked, nor is the way down.
-/

namespace Liigboot.Fs.Btrfs

/-! ## The source -/

/-- A number as an `int`. -/
def i32 (n : Int) : Int := n.bmod (2 ^ 32)

/-- The loop of `bin_search` on its `int` variables. -/
def binSearchInt (func : Int → Int) : Nat → Int → Int → Option (Int × Int)
  | 0, _, _ => none
  | fuel + 1, low, high =>
    if low < high then
      let mid := (i32 (low + high)).tdiv 2
      let ret := func mid
      if ret < 0 then binSearchInt func fuel (i32 (mid + 1)) high
      else if ret > 0 then binSearchInt func fuel low mid
      else some (0, mid)
    else some (1, low)

/-- What the driver is given: the sizes in the superblock, the chunk map and the bytes of the
device. -/
structure Medium where
  nodesize : UInt32
  leafsize : UInt32
  map : List BtrfsChunkMapItem
  image : UInt64 → UInt8

/-- `btrfs_read`: the memory with `count` bytes at a place. -/
def Medium.btrfsRead (d : Medium) (mem : Memory) (place : Nat) (offset : UInt64) (count : Nat) :
    Memory := fun i =>
  if place ≤ i ∧ i < place + count then d.image (offset + UInt64.ofNat (i - place)) else mem i

/-- The number of bytes that are read behind the header: `sb.nodesize - sizeof(*header)`, or
`sb.leafsize - sizeof(*header)`. -/
def bodyCount (size : UInt32) : Nat := u32 (size.toNat + 2 ^ 32 - sizeofHeader)

/-- The place of an item behind the header, relative to the buffer. -/
def itemPlace (itemSize : Nat) (slot : Int) : Nat := ((sizeofHeader + itemSize * slot) % 2 ^ 32).toNat

/-- `struct btrfs_disk_key`. -/
def diskKeyAt (mem : Memory) (a : Nat) : BtrfsDiskKey :=
  ⟨UInt64.ofNat (memLe mem a 8), mem (a + 8), UInt64.ofNat (memLe mem (a + 9) 8)⟩

/-- `header->nritems`, as an `int`. -/
def headerNritems (mem : Memory) : Int := i32 (memLe mem 96 4)

/-- `header->level`. -/
def headerLevel (mem : Memory) : Nat := (mem 100).toNat

/-- The slot that is taken in a block whose search begins at the slot `low`. -/
def takeSlot (key : BtrfsDiskKey) (mem : Memory) (itemSize fuel : Nat) (low : Int) : Option Int :=
  (binSearchInt (fun i => btrfsCompKeys (diskKeyAt mem (itemPlace itemSize i)) key) fuel low
    (headerNritems mem)).map fun (ret, slot) =>
      if ret ≠ 0 ∧ slot > low then i32 (slot - 1) else slot

/-- `node->ptrs[slot].blockptr`. -/
def ptrBlockptr (mem : Memory) (slot : Int) : UInt64 :=
  UInt64.ofNat (memLe mem (itemPlace sizeofKeyPtr slot + 17) 8)

/-- `leaf->items[slot].size`. -/
def itemDataSize (mem : Memory) (slot : Int) : Nat := memLe mem (itemPlace sizeofItem slot + 21) 4

/-- The objects that `search_tree` stores into at an index, or with a count. -/
inductive Target
  | buf
  | data
  | offsets
  | itemsnr
  | slots
  deriving DecidableEq, Repr

/-- A store: the first byte or element, and their number. -/
structure Store where
  target : Target
  index : Nat
  count : Nat
  deriving DecidableEq, Repr

/-- The number of bytes or elements of an object. -/
def Target.size : Target → Nat
  | .buf => btrfsMaxLeafSize
  | .data => btrfsMaxLeafSize
  | .offsets => btrfsMaxLevel
  | .itemsnr => btrfsMaxLevel
  | .slots => btrfsMaxLevel

/-- A call of `search_tree`: the number of the calls around it, the block, and the slots in the
path. -/
structure Call where
  depth : Nat
  loffset : UInt64
  slots : Nat → Int

variable {d : Medium} {stack : Nat → Memory} {key : BtrfsDiskKey} {c : Call} {fuel m n : Nat}

/-- The buffer with the header. `stack` is what lies in the buffers of the calls before. -/
def Call.header (c : Call) (d : Medium) (stack : Nat → Memory) : Memory :=
  d.btrfsRead (stack c.depth) 0 (logicalPhysical d.map c.loffset) sizeofHeader

/-- The level of the block. -/
def Call.level (c : Call) (d : Medium) (stack : Nat → Memory) : Nat :=
  headerLevel (c.header d stack)

/-- The buffer with a block of some size. -/
def Call.block (c : Call) (d : Medium) (stack : Nat → Memory) (size : UInt32) : Memory :=
  d.btrfsRead (c.header d stack) sizeofHeader
    (logicalPhysical d.map c.loffset + UInt64.ofNat sizeofHeader) (bodyCount size)

/-- The stores of a call in front of its search of the block. -/
def Call.readStores (c : Call) (d : Medium) (stack : Nat → Memory) (size : UInt32) : List Store :=
  [⟨.buf, 0, sizeofHeader⟩, ⟨.buf, sizeofHeader, bodyCount size⟩,
    ⟨.itemsnr, c.level d stack, 1⟩, ⟨.offsets, c.level d stack, 1⟩]

/-- The call for a block below a node. -/
def Call.child (c : Call) (d : Medium) (stack : Nat → Memory) (slot : Int) : Call :=
  ⟨c.depth + 1, ptrBlockptr (c.block d stack d.nodesize) slot,
    Function.update c.slots (c.level d stack) slot⟩

/-- `search_tree`: its stores, and whether it returns. Behind a store that is out of bounds the code
does not matter any more. -/
def searchTreeStores (d : Medium) (stack : Nat → Memory) (key : BtrfsDiskKey) :
    Nat → Call → List Store × Bool
  | 0, _ => ([], false)
  | fuel + 1, c =>
    if c.level d stack ≠ 0 then
      match takeSlot key (c.block d stack d.nodesize) sizeofKeyPtr fuel
          (c.slots (c.level d stack)) with
      | none => (c.readStores d stack d.nodesize, false)
      | some slot =>
        let (stores, returns) := searchTreeStores d stack key fuel (c.child d stack slot)
        (c.readStores d stack d.nodesize ++ ⟨.slots, c.level d stack, 1⟩ :: stores, returns)
    else
      match takeSlot key (c.block d stack d.leafsize) sizeofItem fuel (c.slots 0) with
      | none => (c.readStores d stack d.leafsize, false)
      | some slot =>
        (c.readStores d stack d.leafsize ++
          [⟨.slots, 0, 1⟩, ⟨.data, 0, itemDataSize (c.block d stack d.leafsize) slot⟩], true)

/-! ## Safety -/

/-- A store lies in its object. -/
def Store.InBounds (s : Store) : Prop := s.index + s.count ≤ s.target.size

instance (s : Store) : Decidable s.InBounds := inferInstanceAs (Decidable (_ ≤ _))

/-- The search returns, and all its stores lie in their objects. -/
def SearchSafe (d : Medium) (stack : Nat → Memory) (key : BtrfsDiskKey) (c : Call) : Prop :=
  (∃ fuel, (searchTreeStores d stack key fuel c).2 = true) ∧
    ∀ fuel, ∀ s ∈ (searchTreeStores d stack key fuel c).1, s.InBounds

/-- The search of a block ends at a slot. -/
def TakesSlot (key : BtrfsDiskKey) (mem : Memory) (itemSize : Nat) (low slot : Int) : Prop :=
  ∃ fuel, takeSlot key mem itemSize fuel low = some slot

/-- The blocks of the tree lead down to a leaf, with levels that the path has room for, and the item
there has data that the path has room for. -/
inductive LeadsToItem (d : Medium) (stack : Nat → Memory) (key : BtrfsDiskKey) : Call → Prop
  | leaf {c : Call} {slot : Int} (hlevel : c.level d stack = 0) (hsize : FitsBuffer d.leafsize)
      (hslot : TakesSlot key (c.block d stack d.leafsize) sizeofItem (c.slots 0) slot)
      (hdata : itemDataSize (c.block d stack d.leafsize) slot ≤ btrfsMaxLeafSize) :
      LeadsToItem d stack key c
  | node {c : Call} {slot : Int} (hlevel : c.level d stack ≠ 0)
      (hmax : c.level d stack < btrfsMaxLevel) (hsize : FitsBuffer d.nodesize)
      (hslot : TakesSlot key (c.block d stack d.nodesize) sizeofKeyPtr
        (c.slots (c.level d stack)) slot)
      (hchild : LeadsToItem d stack key (c.child d stack slot)) : LeadsToItem d stack key c

theorem binSearchInt_le {func : Int → Int} {low high : Int} {r : Int × Int} (hmn : m ≤ n)
    (h : binSearchInt func m low high = some r) : binSearchInt func n low high = some r := by
  induction m generalizing n low high with
  | zero => cases h
  | succ m ih =>
    obtain ⟨n, rfl⟩ := Nat.exists_eq_succ_of_ne_zero (Nat.ne_zero_of_lt hmn)
    have hle := Nat.le_of_succ_le_succ hmn
    rw [binSearchInt] at h ⊢
    dsimp only at h ⊢
    split_ifs at h ⊢ with hlt hneg hpos
    · exact ih hle h
    · exact ih hle h
    · exact h
    · exact h

theorem takeSlot_le {mem : Memory} {itemSize : Nat} {low slot : Int} (hmn : m ≤ n)
    (h : takeSlot key mem itemSize m low = some slot) :
    takeSlot key mem itemSize n low = some slot := by
  rw [takeSlot] at h ⊢
  obtain ⟨r, hr, hslot⟩ := Option.map_eq_some_iff.mp h
  rw [binSearchInt_le hmn hr, Option.map_some, hslot]

/-- The search of a block ends at one slot. -/
theorem TakesSlot.unique {mem : Memory} {itemSize : Nat} {low slot slot' : Int}
    (h : TakesSlot key mem itemSize low slot) (h' : takeSlot key mem itemSize n low = some slot') :
    slot' = slot := by
  obtain ⟨m, hm⟩ := h
  have hm' := takeSlot_le (Nat.le_max_left m n) hm
  rw [takeSlot_le (Nat.le_max_right m n) h'] at hm'
  exact Option.some.inj hm'

/-- The stores in front of the search of a block are in bounds when the buffer has room for the
block, and the path for the level. -/
theorem readStores_inBounds_iff (size : UInt32) :
    (∀ s ∈ c.readStores d stack size, s.InBounds) ↔
      FitsBuffer size ∧ c.level d stack < btrfsMaxLevel := by
  have hsize := size.toNat_lt
  simp only [Call.readStores, List.forall_mem_cons, Store.InBounds, Target.size, FitsBuffer,
    bodyCount, sizeofHeader, btrfsMaxLeafSize, u32]
  constructor
  · rintro ⟨-, hbody, hitemsnr, -, -⟩
    exact ⟨by omega, hitemsnr⟩
  · rintro ⟨hfits, hlevel⟩
    exact ⟨by decide, by omega, hlevel, hlevel, fun s hs => (nomatch hs)⟩

/-- A search that returns with its stores in bounds is led to an item. -/
theorem leadsToItem_of_returns (hret : (searchTreeStores d stack key fuel c).2 = true)
    (hstores : ∀ s ∈ (searchTreeStores d stack key fuel c).1, s.InBounds) :
    LeadsToItem d stack key c := by
  induction fuel generalizing c with
  | zero => cases hret
  | succ fuel ih =>
    rw [searchTreeStores] at hret hstores
    by_cases hlevel : c.level d stack ≠ 0
    · rw [if_pos hlevel] at hret hstores
      cases hslot : takeSlot key (c.block d stack d.nodesize) sizeofKeyPtr fuel
          (c.slots (c.level d stack)) with
      | none =>
        rw [hslot] at hret
        cases hret
      | some slot =>
        rw [hslot] at hret hstores
        dsimp only at hret hstores
        obtain ⟨hread, hrest⟩ := List.forall_mem_append.mp hstores
        obtain ⟨hsize, hmax⟩ := (readStores_inBounds_iff d.nodesize).mp hread
        exact .node hlevel hmax hsize ⟨fuel, hslot⟩
          (ih hret (List.forall_mem_cons.mp hrest).2)
    · rw [if_neg hlevel] at hret hstores
      cases hslot : takeSlot key (c.block d stack d.leafsize) sizeofItem fuel (c.slots 0) with
      | none =>
        rw [hslot] at hret
        cases hret
      | some slot =>
        rw [hslot] at hstores
        dsimp only at hstores
        obtain ⟨hread, hrest⟩ := List.forall_mem_append.mp hstores
        have hdata := (List.forall_mem_cons.mp (List.forall_mem_cons.mp hrest).2).1
        rw [Store.InBounds, Nat.zero_add] at hdata
        exact .leaf (not_not.mp hlevel) ((readStores_inBounds_iff d.leafsize).mp hread).1
          ⟨fuel, hslot⟩ hdata

/-- More fuel does not keep a search from returning. -/
theorem searchTreeStores_le (hmn : m ≤ n) (hret : (searchTreeStores d stack key m c).2 = true) :
    (searchTreeStores d stack key n c).2 = true := by
  induction m generalizing n c with
  | zero => cases hret
  | succ m ih =>
    obtain ⟨n, rfl⟩ := Nat.exists_eq_succ_of_ne_zero (Nat.ne_zero_of_lt hmn)
    have hle := Nat.le_of_succ_le_succ hmn
    rw [searchTreeStores] at hret ⊢
    by_cases hlevel : c.level d stack ≠ 0
    · rw [if_pos hlevel] at hret ⊢
      cases hslot : takeSlot key (c.block d stack d.nodesize) sizeofKeyPtr m
          (c.slots (c.level d stack)) with
      | none =>
        rw [hslot] at hret
        cases hret
      | some slot =>
        rw [hslot] at hret
        rw [takeSlot_le hle hslot]
        exact ih hle hret
    · rw [if_neg hlevel] at hret ⊢
      cases hslot : takeSlot key (c.block d stack d.leafsize) sizeofItem m (c.slots 0) with
      | none =>
        rw [hslot] at hret
        cases hret
      | some slot => rw [takeSlot_le hle hslot]

/-- A search that is led to an item returns. -/
theorem LeadsToItem.returns (h : LeadsToItem d stack key c) :
    ∃ fuel, (searchTreeStores d stack key fuel c).2 = true := by
  induction h with
  | leaf hlevel _ hslot _ =>
    obtain ⟨fuel, hfuel⟩ := hslot
    refine ⟨fuel + 1, ?_⟩
    rw [searchTreeStores, if_neg (not_not.mpr hlevel), hfuel]
  | node hlevel _ _ hslot _ ih =>
    obtain ⟨fuel, hfuel⟩ := hslot
    obtain ⟨fuel', hret⟩ := ih
    refine ⟨max fuel fuel' + 1, ?_⟩
    rw [searchTreeStores, if_pos hlevel, takeSlot_le (Nat.le_max_left fuel fuel') hfuel]
    exact searchTreeStores_le (Nat.le_max_right fuel fuel') hret

/-- The stores of a search that is led to an item are in bounds. -/
theorem LeadsToItem.inBounds (h : LeadsToItem d stack key c) (fuel : Nat) :
    ∀ s ∈ (searchTreeStores d stack key fuel c).1, s.InBounds := by
  induction h generalizing fuel with
  | @leaf c slot hlevel hsize hslot hdata =>
    have hread := (readStores_inBounds_iff d.leafsize).mpr
      ⟨hsize, show c.level d stack < btrfsMaxLevel by rw [hlevel]; decide⟩
    cases fuel with
    | zero => exact fun s hs => (nomatch hs)
    | succ fuel =>
      rw [searchTreeStores, if_neg (not_not.mpr hlevel)]
      cases htake : takeSlot key (c.block d stack d.leafsize) sizeofItem fuel (c.slots 0) with
      | none => exact hread
      | some slot' =>
        obtain rfl := hslot.unique htake
        refine List.forall_mem_append.mpr ⟨hread, List.forall_mem_cons.mpr ⟨by decide, ?_⟩⟩
        refine List.forall_mem_cons.mpr ⟨?_, fun s hs => (nomatch hs)⟩
        rw [Store.InBounds, Nat.zero_add]
        exact hdata
  | @node c slot hlevel hmax hsize hslot hchild ih =>
    have hread := (readStores_inBounds_iff d.nodesize).mpr ⟨hsize, hmax⟩
    cases fuel with
    | zero => exact fun s hs => (nomatch hs)
    | succ fuel =>
      rw [searchTreeStores, if_pos hlevel]
      cases htake : takeSlot key (c.block d stack d.nodesize) sizeofKeyPtr fuel
          (c.slots (c.level d stack)) with
      | none => exact hread
      | some slot' =>
        obtain rfl := hslot.unique htake
        exact List.forall_mem_append.mpr ⟨hread, List.forall_mem_cons.mpr ⟨hmax, ih fuel⟩⟩

/-- A search is safe if and only if the blocks lead it to an item: the sizes of the blocks are at
least that of the header and at most that of the buffer, their levels are below 8, and the item has
at most 4096 bytes of data. -/
theorem search_tree_safe_iff (d : Medium) (stack : Nat → Memory) (key : BtrfsDiskKey) (c : Call) :
    SearchSafe d stack key c ↔ LeadsToItem d stack key c := by
  constructor
  · rintro ⟨⟨fuel, hret⟩, hstores⟩
    exact leadsToItem_of_returns hret (hstores fuel)
  · exact fun h => ⟨h.returns, h.inBounds⟩

/-! ## Examples -/

/-- A device full of zeros, with blocks of 16 KiB. -/
def sampleMedium : Medium := ⟨16384, 16384, [], fun _ => 0⟩

/-- The first block that is read does not fit the buffer. -/
theorem search_tree_overruns : ¬∀ (d : Medium) (stack : Nat → Memory) (key : BtrfsDiskKey)
    (c : Call), SearchSafe d stack key c := by
  intro h
  obtain ⟨-, hstores⟩ := h sampleMedium (fun _ _ => 0) ⟨256, 1, 0⟩ ⟨0, 0, fun _ => 0⟩
  refine absurd (hstores 1 ⟨.buf, 101, 16283⟩ (by decide +kernel)) ?_
  decide

end Liigboot.Fs.Btrfs
