import Liigboot.Mem.Run

/-!
# Requests near 4 GiB

The header and the rounding are added to the size of a request in 32 bits. The sum wraps for the
last 31 sizes. What it wraps to is smaller than any block, so that the first free block is taken
for the request.
-/

namespace Liigboot.Mem

variable {L : Layout} {m : Arena} {heap : Heap} {size : Nat} {tag : MallocOwner}

/-- The size with the header, rounded up, as `_malloc` computes it. -/
def roundedSize (size : Nat) : Nat := u32 (size + 31) / 16 * 16

/-- Both heaps are made of their blocks, and no two free blocks are neighbours. -/
def HeapInv (L : Layout) (m : Arena) : Prop :=
  ∀ heap, ∃ bs fs, Holds L m heap bs fs ∧ Coalesced bs

/-- What a request may return: NULL, or a block in use with room for the bytes that were asked
for. In both cases the heaps are in order. -/
def Allocates (L : Layout) (heap : Heap) (size : Nat) (r : Option (Nat × Arena)) : Prop :=
  ∃ ptr m', r = some (ptr, m') ∧ HeapInv L m' ∧
    (ptr = 0 ∨ ∃ bs fs b, Holds L m' heap bs fs ∧ b ∈ used bs ∧ ptr = b.addr + 16 ∧
      size ≤ b.size - 16)

/-- The rounding has room for the request when it does not wrap. -/
theorem roundedSize_ge_iff (hsize : size < 2 ^ 32) :
    size + 16 ≤ roundedSize size ↔ size + 31 < 2 ^ 32 := by
  rw [roundedSize, u32]
  omega

theorem HeapInv.frame {m' : Arena} {bs : List Block} {fs : List Nat} (h : HeapInv L m)
    (hframe : Frame L heap m m') (hholds : Holds L m' heap bs fs) (hc : Coalesced bs) :
    HeapInv L m' := by
  intro other
  by_cases heq : other = heap
  · exact heq ▸ ⟨bs, fs, hholds, hc⟩
  · obtain ⟨bs', fs', hholds', hc'⟩ := h other
    exact ⟨bs', fs', hholds'.frame heq hframe, hc'⟩

/-- A request that does not wrap is served, or refused. -/
theorem mallocTagged_allocates (h : HeapInv L m) (hsize : size + 31 < 2 ^ 32) :
    Allocates L heap size (mallocTagged L m size heap tag) := by
  obtain ⟨bs, fs, hholds, hc⟩ := h heap
  obtain ⟨ptr, m', hmalloc, hframe, hcase⟩ := mallocTagged_holds hholds hc hsize tag
  refine ⟨ptr, m', hmalloc, ?_⟩
  rcases hcase with ⟨rfl, rfl⟩ | ⟨bs', fs', us, b, ws, hholds', hc', -, hused, rfl, hle, -⟩
  · exact ⟨h, Or.inl rfl⟩
  · have hmem : b ∈ used bs' := hused ▸ List.mem_append_right us List.mem_cons_self
    exact ⟨h.frame hframe hholds' hc', Or.inr ⟨bs', fs', b, hholds', hmem, rfl, by omega⟩⟩

/-- A request that wraps finds the first free block. -/
theorem mallocTagged_wraps (h : HeapInv L m) (hsize : size < 2 ^ 32) (hwrap : 2 ^ 32 ≤ size + 31) :
    Allocates L heap size (mallocTagged L m size heap tag) ↔
      m.nextFree (L.head heap.num) = L.head heap.num := by
  obtain ⟨bs, fs, hholds, hc⟩ := h heap
  have hsmall : u32 (size + 31) / 16 * 16 ≤ 16 := by
    rw [u32]
    omega
  have hrounds : ringRounds = 2 ^ 28 - 1 + 1 := rfl
  rw [mallocTagged, if_neg (by omega)]
  dsimp only
  rw [hrounds, findFit]
  by_cases hempty : m.nextFree (L.head heap.num) = L.head heap.num
  · rw [if_pos hempty]
    exact ⟨fun _ => hempty, fun _ => ⟨0, m, rfl, h, Or.inl rfl⟩⟩
  · -- every block is larger than what the size wraps to
    have hmem := List.mem_cons.mp hholds.freeRing.next_head_mem |>.resolve_left hempty
    obtain ⟨b, hb, hfree, haddr⟩ := (hholds.mem_free _).mp hmem
    have hfit : u32 (size + 31) / 16 * 16 ≤
        arenaSizeGet (m.attrs (m.nextFree (L.head heap.num))) := by
      rw [← haddr, hholds.attrs b hb, Block.attrs, arenaSizeGet_pack (hholds.sizes b hb).2]
      have := (hholds.sizes b hb).1
      omega
    rw [if_neg hempty, if_pos hfit]
    refine ⟨?_, fun heq => absurd heq hempty⟩
    rintro ⟨ptr, m', hmalloc, -, hcase⟩
    have hregion := hholds.mem_region hb
    have hblock := hholds.sizes b hb
    have hptr : ptr = b.addr + 16 := by
      have hlt := L.region_lt heap
      have hfirst : _ = ptr := congrArg Prod.fst (Option.some.inj hmalloc)
      rw [mallocFromBlock_ptr, ← haddr] at hfirst
      exact hfirst.symm.trans (Nat.mod_eq_of_lt (by omega))
    rcases hcase with hzero | ⟨bs', fs', b', hholds', hb', -, hle⟩
    · exact absurd (hptr.symm.trans hzero) (Nat.succ_ne_zero _)
    · have hregion' := hholds'.mem_region (mem_used.mp hb').1
      have hheap := L.size_le heap
      omega

/-- For every state of the heaps and every 32-bit size: an allocation keeps its promise exactly
when the rounding does not wrap or there is no free block to take, and the rounding has room for
the request exactly when it does not wrap. -/
theorem malloc_room_iff (h : HeapInv L m) (hsize : size < 2 ^ 32) :
    (Allocates L .main size (malloc L m size) ↔
      size + 31 < 2 ^ 32 ∨ m.nextFree (L.head 0) = L.head 0) ∧
    (Allocates L .lowmem size (lmalloc L m size) ↔
      size + 31 < 2 ^ 32 ∨ m.nextFree (L.head 1) = L.head 1) ∧
    (size + 16 ≤ roundedSize size ↔ size + 31 < 2 ^ 32) := by
  have hall : ∀ heap, Allocates L heap size (mallocTagged L m size heap .core) ↔
      size + 31 < 2 ^ 32 ∨ m.nextFree (L.head heap.num) = L.head heap.num := by
    intro heap
    by_cases hwrap : size + 31 < 2 ^ 32
    · exact ⟨fun _ => Or.inl hwrap, fun _ => mallocTagged_allocates h hwrap⟩
    · rw [mallocTagged_wraps h hsize (Nat.le_of_not_lt hwrap), or_iff_right hwrap]
  exact ⟨hall .main, hall .lowmem, roundedSize_ge_iff hsize⟩

/-- The heaps are in order behind `mem_init`. -/
theorem HeapInv.of_memInit {m₀ : Arena} (h : memInit L m₀ = some m) : HeapInv L m := by
  obtain ⟨bs, hi⟩ := (Reachable.init h).inv
  intro heap
  obtain ⟨fs, hholds⟩ := hi.holds heap
  exact ⟨bs heap, fs, hholds, hi.coalesced heap⟩

theorem malloc_room_iff_hundred : ∃ m, memInit sampleLayout clearMemory = some m ∧
    Allocates sampleLayout .main 100 (malloc sampleLayout m 100) := by
  obtain ⟨m, hm⟩ := Option.isSome_iff_exists.mp
    (show (memInit sampleLayout clearMemory).isSome = true by decide +kernel)
  exact ⟨m, hm, (malloc_room_iff (.of_memInit hm) (show 100 < 2 ^ 32 by decide)).1.mpr
    (Or.inl (by decide))⟩

/-- Behind `mem_init` a request for all but 16 bytes of 4 GiB is served with no byte at all. -/
theorem malloc_wraps : ¬∀ (L : Layout) (m : Arena) (size : Nat), HeapInv L m → size < 2 ^ 32 →
    Allocates L .main size (malloc L m size) := by
  intro h
  obtain ⟨m, hm, hfree⟩ := Option.map_eq_some_iff.mp
    (show (memInit sampleLayout clearMemory).map (fun m => m.nextFree 0x108000) = some 0x110000 by
      decide +kernel)
  have hwrong := (mallocTagged_wraps (.of_memInit hm) (by decide) (by decide)).mp
    (h sampleLayout m (2 ^ 32 - 16) (.of_memInit hm) (by decide))
  exact absurd (hfree.symm.trans hwrong) (by decide)

end Liigboot.Mem
