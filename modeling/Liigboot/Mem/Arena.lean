import Mathlib.Algebra.Group.Nat.Defs
import Mathlib.Logic.Function.Basic
import Mathlib.Tactic.Common

/-!
# The memory allocator

Every block starts with an arena header that links it into the ring of all blocks
of its heap; the header of a free block also links it into the ring of free blocks.
A heap has one head, which is in both rings. The headers in memory are modelled
field by field, as functions from addresses.
-/

namespace Liigboot.Mem

/-- A `size_t`, with 32 bits. -/
def u32 (n : Nat) : Nat := n % 2 ^ 32

/-- `enum heap` -/
inductive Heap
  | main
  | lowmem
  deriving DecidableEq, Repr

/-- The number of a heap. -/
def Heap.num : Heap → Nat
  | .main => 0
  | .lowmem => 1

/-- `enum malloc_owner` -/
inductive MallocOwner
  | free
  | head
  | core
  | module
  deriving DecidableEq, Repr

/-- `enum arena_type` -/
inductive ArenaType
  | used
  | free
  | head
  | dead
  deriving DecidableEq, Repr

/-- The two bits of a type. -/
def ArenaType.num : ArenaType → Nat
  | .used => 0
  | .free => 1
  | .head => 2
  | .dead => 3

/-! ## The attributes of a block

The type is in bits 0 and 1, the heap in bits 2 and 3, and the size, a multiple of
`sizeof(struct arena_header)`, in the others. -/

/-- `ARENA_SIZE_GET` -/
def arenaSizeGet (attrs : Nat) : Nat := attrs / 16 * 16

/-- `ARENA_HEAP_GET` -/
def arenaHeapGet (attrs : Nat) : Nat := attrs / 4 % 4

/-- `ARENA_TYPE_GET` -/
def arenaTypeGet (attrs : Nat) : ArenaType :=
  match attrs % 4 with
  | 0 => .used
  | 1 => .free
  | 2 => .head
  | _ => .dead

/-- `ARENA_SIZE_SET` -/
def arenaSizeSet (attrs size : Nat) : Nat := size / 16 * 16 + attrs % 16

/-- `ARENA_HEAP_SET` -/
def arenaHeapSet (attrs heap : Nat) : Nat := attrs / 16 * 16 + heap % 4 * 4 + attrs % 4

/-- `ARENA_TYPE_SET` -/
def arenaTypeSet (attrs : Nat) (type : ArenaType) : Nat := attrs / 4 * 4 + type.num

/-! ## Memory -/

/-- `struct free_arena_header` at every address, one function for each field. -/
structure Arena where
  tag : Nat → MallocOwner
  attrs : Nat → Nat
  next : Nat → Nat
  prev : Nat → Nat
  nextFree : Nat → Nat
  prevFree : Nat → Nat

namespace Arena

variable (m : Arena) (a : Nat)

def setTag (v : MallocOwner) : Arena := { m with tag := Function.update m.tag a v }

def setAttrs (v : Nat) : Arena := { m with attrs := Function.update m.attrs a v }

def setNext (v : Nat) : Arena := { m with next := Function.update m.next a v }

def setPrev (v : Nat) : Arena := { m with prev := Function.update m.prev a v }

def setNextFree (v : Nat) : Arena := { m with nextFree := Function.update m.nextFree a v }

def setPrevFree (v : Nat) : Arena := { m with prevFree := Function.update m.prevFree a v }

end Arena

/-- Where the linker and the firmware put the heads and the heaps: `__malloc_head`, `main_heap`,
`__lowmem_heap` and the kilobytes of low memory that the BIOS reports free. The heads and the
heaps do not overlap, and low memory has room for a header. -/
structure Layout where
  mallocHead : Nat
  mainHeap : Nat
  lowmemHeap : Nat
  biosFreeMem : Nat
  biosFreeMem_lt : biosFreeMem < 2 ^ 16
  mallocHead_lt : mallocHead + 64 < 2 ^ 32
  mainHeap_lt : mainHeap + 2 ^ 17 < 2 ^ 32
  lowmem_room : lowmemHeap + 32 ≤ biosFreeMem * 1024
  head_main : mallocHead + 64 ≤ mainHeap ∨ mainHeap + 2 ^ 17 ≤ mallocHead
  head_lowmem : mallocHead + 64 ≤ lowmemHeap ∨ biosFreeMem * 1024 ≤ mallocHead
  main_lowmem : mainHeap + 2 ^ 17 ≤ lowmemHeap ∨ biosFreeMem * 1024 ≤ mainHeap

/-- `&__malloc_head[heap]` -/
def Layout.head (L : Layout) (heap : Nat) : Nat := L.mallocHead + 32 * heap

/-- How many rounds a loop over a ring gets; no more headers fit into memory. -/
def ringRounds : Nat := 2 ^ 28

/-! ## malloc.c -/

/-- `__malloc_from_block` -/
def mallocFromBlock (m : Arena) (fp size : Nat) (tag : MallocOwner) : Nat × Arena :=
  let heap := arenaHeapGet (m.attrs fp)
  let fsize := arenaSizeGet (m.attrs fp)
  -- a split must leave room for the header of a free block
  if u32 (size + 32) ≤ fsize then
    let nfp := u32 (fp + size)
    let na := m.next fp
    let m := m.setAttrs nfp (arenaTypeSet (m.attrs nfp) .free)
    let m := m.setAttrs nfp (arenaHeapSet (m.attrs nfp) heap)
    let m := m.setAttrs nfp (arenaSizeSet (m.attrs nfp) (u32 (fsize + 2 ^ 32 - size)))
    let m := m.setTag nfp .free
    let m := m.setAttrs fp (arenaTypeSet (m.attrs fp) .used)
    let m := m.setAttrs fp (arenaSizeSet (m.attrs fp) size)
    let m := m.setTag fp tag
    let m := m.setPrev nfp fp
    let m := m.setNext nfp na
    let m := m.setPrev na nfp
    let m := m.setNext fp nfp
    let m := m.setNextFree nfp (m.nextFree fp)
    let m := m.setPrevFree nfp (m.prevFree fp)
    let m := m.setPrevFree (m.nextFree fp) nfp
    let m := m.setNextFree (m.prevFree fp) nfp
    (u32 (fp + 16), m)
  else
    let m := m.setAttrs fp (arenaTypeSet (m.attrs fp) .used)
    let m := m.setTag fp tag
    let m := m.setPrevFree (m.nextFree fp) (m.prevFree fp)
    let m := m.setNextFree (m.prevFree fp) (m.nextFree fp)
    (u32 (fp + 16), m)

/-- The first free block of at least `size` bytes from `fp` on; `none` when the rounds run out. -/
def findFit (m : Arena) (head size : Nat) : Nat → Nat → Option (Option Nat)
  | 0, _ => none
  | rounds + 1, fp =>
    if fp = head then some none
    else if size ≤ arenaSizeGet (m.attrs fp) then some (some fp)
    else findFit m head size rounds (m.nextFree fp)

/-- `_malloc` -/
def mallocTagged (L : Layout) (m : Arena) (size : Nat) (heap : Heap) (tag : MallocOwner) :
    Option (Nat × Arena) :=
  let head := L.head heap.num
  if size = 0 then some (0, m)
  else
    -- the header, and the size rounded up
    let size := u32 (size + 31) / 16 * 16
    match findFit m head size ringRounds (m.nextFree head) with
    | none => none
    | some none => some (0, m)
    | some (some fp) => some (mallocFromBlock m fp size tag)

def malloc (L : Layout) (m : Arena) (size : Nat) : Option (Nat × Arena) :=
  mallocTagged L m size .main .core

def lmalloc (L : Layout) (m : Arena) (size : Nat) : Option (Nat × Arena) :=
  mallocTagged L m size .lowmem .core

def pmapiLmalloc (L : Layout) (m : Arena) (size : Nat) : Option (Nat × Arena) :=
  mallocTagged L m size .lowmem .module

/-! ## free.c -/

/-- The first half of `__free_block`: join the block to the one in front of it, or put it on the
free ring. -/
def freeBlockPrev (L : Layout) (m : Arena) (ah : Nat) : Nat × Arena :=
  let head := L.head (arenaHeapGet (m.attrs ah))
  let pah := m.prev ah
  let nah := m.next ah
  if arenaTypeGet (m.attrs pah) = .free ∧ u32 (pah + arenaSizeGet (m.attrs pah)) = ah then
    let m := m.setAttrs pah (arenaSizeSet (m.attrs pah)
      (u32 (arenaSizeGet (m.attrs pah) + arenaSizeGet (m.attrs ah))))
    let m := m.setNext pah nah
    let m := m.setPrev nah pah
    (pah, m)
  else
    let m := m.setAttrs ah (arenaTypeSet (m.attrs ah) .free)
    let m := m.setTag ah .free
    let m := m.setNextFree ah (m.nextFree head)
    let m := m.setPrevFree ah head
    let m := m.setNextFree head ah
    let m := m.setPrevFree (m.nextFree ah) ah
    (ah, m)

/-- The second half of `__free_block`: join the block to the one behind it. -/
def freeBlockNext (m : Arena) (ah nah : Nat) : Arena :=
  if arenaTypeGet (m.attrs nah) = .free ∧ u32 (ah + arenaSizeGet (m.attrs ah)) = nah then
    let m := m.setAttrs ah (arenaSizeSet (m.attrs ah)
      (u32 (arenaSizeGet (m.attrs ah) + arenaSizeGet (m.attrs nah))))
    let m := m.setPrevFree (m.nextFree nah) (m.prevFree nah)
    let m := m.setNextFree (m.prevFree nah) (m.nextFree nah)
    let m := m.setNext ah (m.next nah)
    m.setPrev (m.next nah) ah
  else m

/-- `__free_block`, with the block that contains the freed one. -/
def freeBlock (L : Layout) (m : Arena) (ah : Nat) : Nat × Arena :=
  let r := freeBlockPrev L m ah
  (r.1, freeBlockNext r.2 r.1 (m.next ah))

def free (L : Layout) (m : Arena) (ptr : Nat) : Arena :=
  if ptr = 0 then m else (freeBlock L m (u32 (ptr + 2 ^ 32 - 16))).2

/-- The block in front of which a new one goes; `some none` when the new one overlaps another. -/
def findSuccessor (m : Arena) (head ah aEnd : Nat) : Nat → Nat → Option (Option Nat)
  | 0, _ => none
  | rounds + 1, nah =>
    if nah = head then some (some nah)
    else if aEnd ≤ nah then some (some nah)
    else if u32 (nah + arenaSizeGet (m.attrs nah)) ≤ ah then
      findSuccessor m head ah aEnd rounds (m.next nah)
    else some none

/-- `__inject_free_block` -/
def injectFreeBlock (L : Layout) (m : Arena) (ah : Nat) : Option Arena :=
  let head := L.head (arenaHeapGet (m.attrs ah))
  let aEnd := u32 (ah + arenaSizeGet (m.attrs ah))
  match findSuccessor m head ah aEnd ringRounds (m.next head) with
  | none => none
  | some none => some m
  | some (some nah) =>
    let m := m.setNext ah nah
    let m := m.setPrev ah (m.prev nah)
    let m := m.setPrev nah ah
    let m := m.setNext (m.prev ah) ah
    some (freeBlock L m ah).2

/-- The loop of `__free_tagged` over the ring of a head. -/
def freeTaggedFrom (L : Layout) (tag : MallocOwner) (head : Nat) : Nat → Nat → Arena → Option Arena
  | 0, _, _ => none
  | rounds + 1, fp, m =>
    if fp = head then some m
    else
      let r := if arenaTypeGet (m.attrs fp) = .used ∧ m.tag fp = tag then freeBlock L m fp
        else (fp, m)
      freeTaggedFrom L tag head rounds (r.2.next r.1) r.2

/-- `__free_tagged` -/
def freeTagged (L : Layout) (m : Arena) (tag : MallocOwner) : Option Arena :=
  (freeTaggedFrom L tag (L.head 0) ringRounds (m.next (L.head 0)) m).bind fun m =>
    freeTaggedFrom L tag (L.head 1) ringRounds (m.next (L.head 1)) m

/-! ## init.c -/

/-- The head of a heap: alone in both of its rings. -/
def initHead (L : Layout) (heap : Heap) (m : Arena) : Arena :=
  let fp := L.head heap.num
  let m := m.setPrevFree fp fp
  let m := m.setNextFree fp fp
  let m := m.setPrev fp fp
  let m := m.setNext fp fp
  let m := m.setAttrs fp (ArenaType.head.num + heap.num * 4)
  m.setTag fp .head

/-- A heap of `size` bytes at `fp`. -/
def initHeap (L : Layout) (heap : Heap) (fp size : Nat) (m : Arena) : Option Arena :=
  let m := m.setAttrs fp (ArenaType.used.num + heap.num * 4)
  let m := m.setAttrs fp (arenaSizeSet (m.attrs fp) size)
  injectFreeBlock L m fp

/-- `mem_init` -/
def memInit (L : Layout) (m : Arena) : Option Arena :=
  (initHeap L .main L.mainHeap (2 ^ 17) (initHead L .lowmem (initHead L .main m))).bind fun m =>
    initHeap L .lowmem L.lowmemHeap (u32 (L.biosFreeMem * 1024 + 2 ^ 32 - L.lowmemHeap)) m

end Liigboot.Mem
