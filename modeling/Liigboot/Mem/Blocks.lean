import Liigboot.Lib.Tiling
import Liigboot.Lib.Ring
import Liigboot.Mem.Arena
import Mathlib.Data.List.Perm.Subperm

/-!
# Heaps as lists of blocks

The abstract state of a heap is the list of its blocks in address order. `Holds`
says that memory represents such a list: the ring of all blocks visits it in order,
the free ring visits the free blocks in some order, the headers hold what the list
says, and the blocks tile the region of the heap.
-/

namespace Liigboot.Mem

/-- A block of a heap, with its header. -/
structure Block where
  addr : Nat
  size : Nat
  isFree : Bool
  tag : MallocOwner
  deriving DecidableEq, Repr

/-- The type bits of a block. -/
def Block.type (b : Block) : ArenaType := if b.isFree then .free else .used

/-- A number put together from a size, a heap and a type. -/
def packAttrs (size : Nat) (heap : Heap) (type : ArenaType) : Nat :=
  size + heap.num * 4 + type.num

/-- The attributes in the header of a block. -/
def Block.attrs (b : Block) (heap : Heap) : Nat := packAttrs b.size heap b.type

/-! ## Attributes -/

/-- There are two heaps. -/
theorem Heap.num_lt (heap : Heap) : heap.num < 2 := by cases heap <;> decide

/-- There are four types of blocks. -/
theorem ArenaType.num_lt (type : ArenaType) : type.num < 4 := by cases type <;> decide

section Attributes

variable {size : Nat} (hsize : size % 16 = 0) (heap : Heap) (type : ArenaType)

include hsize

/-- The size is read back from the attributes. -/
theorem arenaSizeGet_pack : arenaSizeGet (packAttrs size heap type) = size := by
  have hheap := heap.num_lt
  have htype := type.num_lt
  rw [arenaSizeGet, packAttrs]
  omega

/-- The heap is read back. -/
theorem arenaHeapGet_pack : arenaHeapGet (packAttrs size heap type) = heap.num := by
  have hheap := heap.num_lt
  have htype := type.num_lt
  rw [arenaHeapGet, packAttrs]
  omega

/-- The type is read back. -/
theorem arenaTypeGet_pack : arenaTypeGet (packAttrs size heap type) = type := by
  have hmod : packAttrs size heap type % 4 = type.num := by
    have htype := type.num_lt
    rw [packAttrs]
    omega
  rw [arenaTypeGet, hmod]
  cases type <;> rfl

/-- A new type leaves the size and the heap. -/
theorem arenaTypeSet_pack (type' : ArenaType) :
    arenaTypeSet (packAttrs size heap type) type' = packAttrs size heap type' := by
  have htype := type.num_lt
  rw [arenaTypeSet, packAttrs, packAttrs]
  omega

/-- A new size leaves the type and the heap. -/
theorem arenaSizeSet_pack {size' : Nat} (hsize' : size' % 16 = 0) :
    arenaSizeSet (packAttrs size heap type) size' = packAttrs size' heap type := by
  have hheap := heap.num_lt
  have htype := type.num_lt
  rw [arenaSizeSet, packAttrs, packAttrs]
  omega

omit hsize

/-- A new header gets all of its fields, whatever memory held there. -/
theorem arenaSet_all (hsize : size % 16 = 0) (garbage : Nat) :
    arenaSizeSet (arenaHeapSet (arenaTypeSet garbage type) heap.num) size =
      packAttrs size heap type := by
  have hheap := heap.num_lt
  have htype := type.num_lt
  rw [arenaSizeSet, arenaHeapSet, arenaTypeSet, packAttrs]
  omega

end Attributes

/-! ## Regions -/

/-- Where the region of a heap begins. -/
def Layout.base (L : Layout) : Heap → Nat
  | .main => L.mainHeap
  | .lowmem => L.lowmemHeap

/-- The size of the region of a heap. -/
def Layout.size (L : Layout) : Heap → Nat
  | .main => 2 ^ 17
  | .lowmem => (L.biosFreeMem * 1024 - L.lowmemHeap) / 16 * 16

/-- The addresses of headers that belong to a heap: its head and its region. -/
def Layout.Owns (L : Layout) (heap : Heap) (a : Nat) : Prop :=
  a = L.head heap.num ∨ L.base heap ≤ a ∧ a < L.base heap + L.size heap

/-- The heaps are below 4 GiB. -/
theorem Layout.region_lt (L : Layout) (heap : Heap) : L.base heap + L.size heap < 2 ^ 32 := by
  have hmain := L.mainHeap_lt
  have hbios := L.biosFreeMem_lt
  have hroom := L.lowmem_room
  cases heap
  · exact hmain
  · rw [Layout.base, Layout.size]
    omega

/-- A heap has 64 MiB at most. -/
theorem Layout.size_le (L : Layout) (heap : Heap) : L.size heap ≤ 2 ^ 26 := by
  have hbios := L.biosFreeMem_lt
  cases heap
  · rw [Layout.size]
    decide
  · rw [Layout.size]
    omega

/-- A heap has room for the head of a block, and a whole number of paragraphs. -/
theorem Layout.size_ge (L : Layout) (heap : Heap) : 32 ≤ L.size heap ∧ L.size heap % 16 = 0 := by
  have hroom := L.lowmem_room
  cases heap
  · rw [Layout.size]
    decide
  · rw [Layout.size]
    omega

/-- No head lies in a region. -/
theorem Layout.head_out (L : Layout) (i j : Heap) :
    L.head i.num < L.base j ∨ L.base j + L.size j ≤ L.head i.num := by
  have hnum := i.num_lt
  have hroom := L.lowmem_room
  have h1 := L.head_main
  have h2 := L.head_lowmem
  rw [Layout.head]
  cases j
  · rw [Layout.base, Layout.size]
    omega
  · rw [Layout.base, Layout.size]
    omega

/-- The regions of the two heaps do not overlap. -/
theorem Layout.regions_apart (L : Layout) {i j : Heap} (hij : i ≠ j) :
    L.base i + L.size i ≤ L.base j ∨ L.base j + L.size j ≤ L.base i := by
  have hroom := L.lowmem_room
  have hapart := L.main_lowmem
  cases i with
  | main =>
    cases j with
    | main => exact absurd rfl hij
    | lowmem =>
      simp only [Layout.base, Layout.size]
      omega
  | lowmem =>
    cases j with
    | main =>
      simp only [Layout.base, Layout.size]
      omega
    | lowmem => exact absurd rfl hij

/-- The two heaps own different headers. -/
theorem Layout.owns_disjoint (L : Layout) {i j : Heap} (hij : i ≠ j) {a : Nat}
    (hi : L.Owns i a) (hj : L.Owns j a) : False := by
  have hheadi := L.head_out i j
  have hheadj := L.head_out j i
  have hheads : L.head i.num ≠ L.head j.num := by
    rw [Layout.head, Layout.head]
    cases i <;> cases j <;> simp_all [Heap.num]
  have hregion := L.regions_apart hij
  rcases hi with rfl | hi
  · rcases hj with hj | hj
    · exact hheads hj
    · omega
  · rcases hj with rfl | hj
    · omega
    · omega

/-! ## Representation -/

/-- Memory holds the blocks `bs` of a heap, with `fs` in its free ring. -/
structure Holds (L : Layout) (m : Arena) (heap : Heap) (bs : List Block) (fs : List Nat) :
    Prop where
  ring : Ring m.next m.prev (L.head heap.num) (bs.map Block.addr)
  freeRing : Ring m.nextFree m.prevFree (L.head heap.num) fs
  mem_free : ∀ a, a ∈ fs ↔ ∃ b ∈ bs, b.isFree = true ∧ b.addr = a
  headAttrs : arenaTypeGet (m.attrs (L.head heap.num)) = .head
  attrs : ∀ b ∈ bs, m.attrs b.addr = b.attrs heap
  tag : ∀ b ∈ bs, m.tag b.addr = b.tag
  tiles : Tiles Block.addr Block.size (L.base heap) bs (L.base heap + L.size heap)
  sizes : ∀ b ∈ bs, 32 ≤ b.size ∧ b.size % 16 = 0

variable {L : Layout} {m m' : Arena} {heap : Heap} {bs : List Block} {fs : List Nat}

/-- No two blocks begin at one address. -/
theorem Holds.nodup (hh : Holds L m heap bs fs) : (bs.map Block.addr).Nodup :=
  hh.tiles.nodup fun b hb => Nat.lt_of_lt_of_le (by decide) (hh.sizes b hb).1

/-- A block lies in the region of its heap. -/
theorem Holds.mem_region (hh : Holds L m heap bs fs) {b : Block} (hb : b ∈ bs) :
    L.base heap ≤ b.addr ∧ b.addr + b.size ≤ L.base heap + L.size heap := hh.tiles.mem_le hb

/-- The blocks of a heap are in its memory. -/
theorem Holds.owns_block (hh : Holds L m heap bs fs) {b : Block} (hb : b ∈ bs) :
    L.Owns heap b.addr := by
  have hin := hh.mem_region hb
  have hsize := hh.sizes b hb
  exact Or.inr ⟨hin.1, by omega⟩

/-- The nodes of the ring of all blocks belong to the heap. -/
theorem Holds.owns_ring (hh : Holds L m heap bs fs) {a : Nat}
    (ha : a ∈ L.head heap.num :: bs.map Block.addr) : L.Owns heap a := by
  rcases List.mem_cons.mp ha with rfl | ha
  · exact Or.inl rfl
  · obtain ⟨b, hb, rfl⟩ := List.mem_map.mp ha
    exact hh.owns_block hb

/-- The nodes of the free ring are among the nodes of the ring of all blocks. -/
theorem Holds.mem_ring (hh : Holds L m heap bs fs) {a : Nat} (ha : a ∈ L.head heap.num :: fs) :
    a ∈ L.head heap.num :: bs.map Block.addr := by
  rcases List.mem_cons.mp ha with rfl | ha
  · exact List.mem_cons_self
  · obtain ⟨b, hb, -, rfl⟩ := (hh.mem_free a).mp ha
    exact List.mem_cons_of_mem _ (List.mem_map_of_mem hb)

/-- The neighbours of a block in the ring of all blocks belong to the heap. -/
theorem Holds.owns_neighbours {xs ys : List Block} {b : Block}
    (hh : Holds L m heap (xs ++ b :: ys) fs) :
    L.Owns heap (m.prev b.addr) ∧ L.Owns heap (m.next b.addr) := by
  have hring := hh.ring
  rw [List.map_append, List.map_cons] at hring
  obtain ⟨hp, hn⟩ := hring.neighbours_mem
  rw [← List.map_cons, ← List.map_append] at hp hn
  exact ⟨hh.owns_ring hp, hh.owns_ring hn⟩

/-- The neighbours of a block in the free ring belong to the heap. -/
theorem Holds.owns_neighboursFree {us vs : List Nat} {a : Nat}
    (hh : Holds L m heap bs (us ++ a :: vs)) :
    L.Owns heap (m.prevFree a) ∧ L.Owns heap (m.nextFree a) := by
  obtain ⟨hp, hn⟩ := hh.freeRing.neighbours_mem
  exact ⟨hh.owns_ring (hh.mem_ring hp), hh.owns_ring (hh.mem_ring hn)⟩

/-- A ring has fewer nodes than a loop over it has rounds. -/
theorem Holds.length_lt (hh : Holds L m heap bs fs) : bs.length + 1 < ringRounds := by
  have hle := hh.tiles.length_mul_le fun b hb => (hh.sizes b hb).1
  have hsize := L.size_le heap
  rw [ringRounds]
  omega

/-- There are not more free blocks than blocks. -/
theorem Holds.lengthFree_le (hh : Holds L m heap bs fs) : fs.length ≤ bs.length := by
  have hsub : fs ⊆ bs.map Block.addr := fun a ha => by
    obtain ⟨b, hb, -, rfl⟩ := (hh.mem_free a).mp ha
    exact List.mem_map_of_mem hb
  have hnd := (List.nodup_cons.mp hh.freeRing.nodup).2
  have hle := (List.subperm_of_subset hnd hsub).length_le
  rwa [List.length_map] at hle

/-! ## Frames -/

/-- The headers of other heaps are left alone. -/
def Frame (L : Layout) (heap : Heap) (m m' : Arena) : Prop :=
  ∀ a, ¬ L.Owns heap a → m'.tag a = m.tag a ∧ m'.attrs a = m.attrs a ∧ m'.next a = m.next a ∧
    m'.prev a = m.prev a ∧ m'.nextFree a = m.nextFree a ∧ m'.prevFree a = m.prevFree a

theorem Frame.refl : Frame L heap m m := fun _ _ => ⟨rfl, rfl, rfl, rfl, rfl, rfl⟩

/-- Changes within a heap are so together. -/
theorem Frame.trans {m'' : Arena} (h : Frame L heap m m') (h' : Frame L heap m' m'') :
    Frame L heap m m'' := by
  intro a ha
  obtain ⟨h1, h2, h3, h4, h5, h6⟩ := h a ha
  obtain ⟨h1', h2', h3', h4', h5', h6'⟩ := h' a ha
  exact ⟨h1'.trans h1, h2'.trans h2, h3'.trans h3, h4'.trans h4, h5'.trans h5, h6'.trans h6⟩

/-- A header outside a heap is none of the heap's headers. -/
theorem ne_of_owned {a b : Nat} (ha : L.Owns heap a) (hb : ¬ L.Owns heap b) : b ≠ a := by
  rintro rfl
  exact hb ha

/-- A heap is represented as before when another heap is edited. -/
theorem Holds.frame {i : Heap} (hh : Holds L m heap bs fs) (hne : heap ≠ i)
    (hf : Frame L i m m') : Holds L m' heap bs fs := by
  have hout : ∀ a ∈ L.head heap.num :: bs.map Block.addr, ¬ L.Owns i a := fun a ha hi =>
    L.owns_disjoint hne (hh.owns_ring ha) hi
  have hblock : ∀ b ∈ bs, ¬ L.Owns i b.addr := fun b hb =>
    hout _ (List.mem_cons_of_mem _ (List.mem_map_of_mem hb))
  refine { hh with ring := ?_, freeRing := ?_, headAttrs := ?_, attrs := ?_, tag := ?_ }
  · exact hh.ring.congr (fun z hz => (hf z (hout z hz)).2.2.1)
      fun z hz => (hf z (hout z hz)).2.2.2.1
  · exact hh.freeRing.congr (fun z hz => (hf z (hout z (hh.mem_ring hz))).2.2.2.2.1)
      fun z hz => (hf z (hout z (hh.mem_ring hz))).2.2.2.2.2
  · rw [(hf _ (hout _ List.mem_cons_self)).2.1]
    exact hh.headAttrs
  · intro b hb
    rw [(hf _ (hblock b hb)).2.1]
    exact hh.attrs b hb
  · intro b hb
    rw [(hf _ (hblock b hb)).1]
    exact hh.tag b hb

/-- A block of the list is in the middle or around it. -/
theorem exists_mem_middle {xs mid ys : List Block} {P : Block → Prop} :
    (∃ b ∈ xs ++ mid ++ ys, P b) ↔ (∃ b ∈ mid, P b) ∨ ∃ b ∈ xs ++ ys, P b := by
  constructor
  · rintro ⟨b, hb, hP⟩
    rcases List.mem_append.mp hb with hb | hb
    · rcases List.mem_append.mp hb with hb | hb
      · exact Or.inr ⟨b, List.mem_append_left ys hb, hP⟩
      · exact Or.inl ⟨b, hb, hP⟩
    · exact Or.inr ⟨b, List.mem_append_right xs hb, hP⟩
  · rintro (⟨b, hb, hP⟩ | ⟨b, hb, hP⟩)
    · exact ⟨b, List.mem_append_left ys (List.mem_append_right xs hb), hP⟩
    · rcases List.mem_append.mp hb with hb | hb
      · exact ⟨b, List.mem_append_left ys (List.mem_append_left mid hb), hP⟩
      · exact ⟨b, List.mem_append_right _ hb, hP⟩

/-- Some blocks in the middle of a heap are replaced by others. -/
theorem Holds.edit {xs old new ys : List Block} {fs' : List Nat}
    (hh : Holds L m heap (xs ++ old ++ ys) fs)
    (hring : Ring m'.next m'.prev (L.head heap.num) ((xs ++ new ++ ys).map Block.addr))
    (hfreeRing : Ring m'.nextFree m'.prevFree (L.head heap.num) fs')
    (hfree : ∀ a, a ∈ fs' ↔ (∃ b ∈ new, b.isFree = true ∧ b.addr = a) ∨
      ∃ b ∈ xs ++ ys, b.isFree = true ∧ b.addr = a)
    (hnew : ∀ b ∈ new, m'.attrs b.addr = b.attrs heap ∧ m'.tag b.addr = b.tag ∧ 32 ≤ b.size ∧
      b.size % 16 = 0)
    (hkeep : ∀ a ∈ L.head heap.num :: (xs ++ ys).map Block.addr,
      m'.attrs a = m.attrs a ∧ m'.tag a = m.tag a)
    (htiles : ∀ lo hi, Tiles Block.addr Block.size lo old hi →
      Tiles Block.addr Block.size lo new hi) : Holds L m' heap (xs ++ new ++ ys) fs' := by
  have hsub : ∀ b ∈ xs ++ ys, b ∈ xs ++ old ++ ys := fun b hb => by
    rcases List.mem_append.mp hb with hb | hb
    · exact List.mem_append_left ys (List.mem_append_left old hb)
    · exact List.mem_append_right _ hb
  have hmem : ∀ b ∈ xs ++ new ++ ys, b ∈ new ∨ b ∈ xs ++ ys := fun b hb => by
    rcases List.mem_append.mp hb with hb | hb
    · exact (List.mem_append.mp hb).symm.imp_right (List.mem_append_left ys)
    · exact Or.inr (List.mem_append_right xs hb)
  have hold : ∀ b ∈ xs ++ ys, m'.attrs b.addr = m.attrs b.addr ∧ m'.tag b.addr = m.tag b.addr :=
    fun b hb => hkeep _ (List.mem_cons_of_mem _ (List.mem_map_of_mem hb))
  refine ⟨hring, hfreeRing, fun a => ?_, ?_, fun b hb => ?_, fun b hb => ?_,
    hh.tiles.replace htiles, fun b hb => ?_⟩
  · rw [hfree a]
    exact exists_mem_middle.symm
  · rw [(hkeep _ List.mem_cons_self).1]
    exact hh.headAttrs
  · rcases hmem b hb with hb | hb
    · exact (hnew b hb).1
    · exact (hold b hb).1.trans (hh.attrs b (hsub b hb))
  · rcases hmem b hb with hb | hb
    · exact (hnew b hb).2.1
    · exact (hold b hb).2.trans (hh.tag b (hsub b hb))
  · rcases hmem b hb with hb | hb
    · exact (hnew b hb).2.2
    · exact hh.sizes b (hsub b hb)

/-- The free ring without the address of a free block holds the other free blocks. -/
theorem Holds.mem_free_others {xs ys : List Block} {b : Block} {us vs : List Nat}
    (hh : Holds L m heap (xs ++ b :: ys) (us ++ b.addr :: vs)) (a : Nat) :
    a ∈ us ++ vs ↔ ∃ c ∈ xs ++ ys, c.isFree = true ∧ c.addr = a := by
  have hfs := (List.nodup_cons.mp hh.freeRing.nodup).2
  have hbs := hh.nodup
  rw [List.map_append, List.map_cons] at hbs
  have hfs' := (List.nodup_middle.mp hfs)
  have hbs' := (List.nodup_middle.mp hbs)
  rw [List.nodup_cons] at hfs' hbs'
  have hiff := hh.mem_free a
  constructor
  · intro ha
    obtain ⟨c, hc, hprop⟩ := hiff.mp (List.perm_middle.mem_iff.mpr (List.mem_cons_of_mem _ ha))
    rcases List.mem_cons.mp (List.perm_middle.mem_iff.mp hc) with rfl | hc
    · exact absurd (hprop.2 ▸ ha) hfs'.1
    · exact ⟨c, hc, hprop⟩
  · rintro ⟨c, hc, hprop⟩
    have ha := hiff.mpr ⟨c, List.perm_middle.mem_iff.mpr (List.mem_cons_of_mem _ hc), hprop⟩
    rcases List.mem_cons.mp (List.perm_middle.mem_iff.mp ha) with rfl | ha
    · rw [← List.map_append] at hbs'
      exact absurd (List.mem_map.mpr ⟨c, hc, hprop.2⟩) hbs'.1
    · exact ha

/-- No two neighbours are both free. -/
def Coalesced (bs : List Block) : Prop :=
  bs.IsChain fun b c => ¬ (b.isFree = true ∧ c.isFree = true)

/-- Around a block only its own neighbours matter, and only when it is free. -/
theorem coalesced_middle {xs ys : List Block} {b : Block} :
    Coalesced (xs ++ b :: ys) ↔ Coalesced xs ∧ Coalesced ys ∧ (b.isFree = true →
      (∀ p ∈ xs.getLast?, p.isFree = false) ∧ ∀ n ∈ ys.head?, n.isFree = false) := by
  simp only [Coalesced, List.isChain_append, List.isChain_cons, List.head?_cons,
    Option.mem_some_iff, forall_eq']
  constructor
  · rintro ⟨hxs, ⟨hback, hys⟩, hfront⟩
    refine ⟨hxs, hys, fun hb => ⟨fun p hp => ?_, fun n hn => ?_⟩⟩
    · exact Bool.eq_false_iff.mpr fun hfree => hfront p hp ⟨hfree, hb⟩
    · exact Bool.eq_false_iff.mpr fun hfree => hback n hn ⟨hb, hfree⟩
  · rintro ⟨hxs, hys, hfree⟩
    refine ⟨hxs, ⟨fun n hn hboth => ?_, hys⟩, fun p hp hboth => ?_⟩
    · exact Bool.eq_false_iff.mp ((hfree hboth.1).2 n hn) hboth.2
    · exact Bool.eq_false_iff.mp ((hfree hboth.2).1 p hp) hboth.1

/-- The blocks that are in use. -/
def used (bs : List Block) : List Block := bs.filter fun b => !b.isFree

/-- No two used blocks begin at one address. -/
theorem Holds.nodup_used (hh : Holds L m heap bs fs) : ((used bs).map Block.addr).Nodup := by
  have hsub : (used bs).Sublist bs := List.filter_sublist
  exact hh.nodup.sublist (hsub.map Block.addr)

/-- The used blocks of two lists. -/
theorem used_append (xs ys : List Block) : used (xs ++ ys) = used xs ++ used ys :=
  List.filter_append xs ys

/-- A free block is not used. -/
theorem used_cons_free {b : Block} (hb : b.isFree = true) (bs : List Block) :
    used (b :: bs) = used bs := List.filter_cons_of_neg (by rw [hb]; decide)

/-- A used block is. -/
theorem used_cons_used {b : Block} (hb : b.isFree = false) (bs : List Block) :
    used (b :: bs) = b :: used bs := List.filter_cons_of_pos (by rw [hb]; rfl)

/-- The used blocks are those that are not free. -/
theorem mem_used {b : Block} : b ∈ used bs ↔ b ∈ bs ∧ b.isFree = false := by
  rw [used, List.mem_filter, Bool.not_eq_true']

end Liigboot.Mem
