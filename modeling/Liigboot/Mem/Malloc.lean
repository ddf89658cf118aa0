import Liigboot.Mem.Blocks

/-!
# Allocation

`__malloc_from_block` cuts the wanted bytes off the front of a free block, or takes
the block as a whole when the rest could not hold the header of a free block.
-/

namespace Liigboot.Mem

/-- What becomes of a free block: `size` bytes in use, and the rest when it is large enough. -/
def Block.allocate (b : Block) (size : Nat) (tag : MallocOwner) : List Block :=
  if size + 32 ≤ b.size then
    [⟨b.addr, size, false, tag⟩, ⟨b.addr + size, b.size - size, true, .free⟩]
  else [{ b with isFree := false, tag := tag }]

/-- The pointer behind the header of the block. -/
theorem mallocFromBlock_ptr (m : Arena) (fp size : Nat) (tag : MallocOwner) :
    (mallocFromBlock m fp size tag).1 = u32 (fp + 16) := by
  rw [mallocFromBlock]
  split
  · rfl
  · rfl

/-! ## The headers afterwards -/

/-- The headers after a split; `nfp` is the new block behind `fp`. -/
private theorem mallocFromBlock_split {m : Arena} {fp size : Nat} {tag : MallocOwner}
    (hsplit : u32 (size + 32) ≤ arenaSizeGet (m.attrs fp)) {nfp : Nat}
    (hnfp : u32 (fp + size) = nfp) (hne : nfp ≠ fp) (hnext : m.nextFree fp ≠ fp) :
    mallocFromBlock m fp size tag = (u32 (fp + 16),
      { tag := Function.update (Function.update m.tag nfp .free) fp tag
        attrs := Function.update (Function.update m.attrs nfp
          (arenaSizeSet (arenaHeapSet (arenaTypeSet (m.attrs nfp) .free)
            (arenaHeapGet (m.attrs fp)))
            (u32 (arenaSizeGet (m.attrs fp) + 2 ^ 32 - size)))) fp
          (arenaSizeSet (arenaTypeSet (m.attrs fp) .used) size)
        next := Function.update (Function.update m.next nfp (m.next fp)) fp nfp
        prev := Function.update (Function.update m.prev nfp fp) (m.next fp) nfp
        nextFree := Function.update (Function.update m.nextFree nfp (m.nextFree fp))
          (m.prevFree fp) nfp
        prevFree := Function.update (Function.update m.prevFree nfp (m.prevFree fp))
          (m.nextFree fp) nfp }) := by
  rw [mallocFromBlock, if_pos hsplit, hnfp]
  simp only [Arena.setTag, Arena.setAttrs, Arena.setNext, Arena.setPrev, Arena.setNextFree,
    Arena.setPrevFree, Function.update_self, Function.update_idem,
    Function.update_of_ne hne.symm, Function.update_of_ne hnext.symm]

/-- The headers after a whole block is taken. -/
private theorem mallocFromBlock_whole {m : Arena} {fp size : Nat} {tag : MallocOwner}
    (hsplit : ¬ u32 (size + 32) ≤ arenaSizeGet (m.attrs fp)) (hnext : m.nextFree fp ≠ fp) :
    mallocFromBlock m fp size tag = (u32 (fp + 16),
      { m with
        tag := Function.update m.tag fp tag
        attrs := Function.update m.attrs fp (arenaTypeSet (m.attrs fp) .used)
        nextFree := Function.update m.nextFree (m.prevFree fp) (m.nextFree fp)
        prevFree := Function.update m.prevFree (m.nextFree fp) (m.prevFree fp) }) := by
  rw [mallocFromBlock, if_neg hsplit]
  simp only [Arena.setTag, Arena.setAttrs, Arena.setNextFree, Arena.setPrevFree,
    Function.update_of_ne hnext.symm]

/-! ## The heap afterwards -/

variable {L : Layout} {m : Arena} {heap : Heap} {xs ys : List Block} {b : Block} {fs : List Nat}

/-- A free block is somewhere in the free ring. -/
theorem Holds.free_split (hh : Holds L m heap (xs ++ b :: ys) fs) (hb : b.isFree = true) :
    ∃ us vs, fs = us ++ b.addr :: vs := by
  have hmem : b.addr ∈ fs :=
    (hh.mem_free _).mpr ⟨b, List.mem_append_right xs List.mem_cons_self, hb, rfl⟩
  exact List.append_of_mem hmem

/-- The header of a free block. -/
theorem Holds.free_attrs (hh : Holds L m heap (xs ++ b :: ys) fs) (hb : b.isFree = true) :
    m.attrs b.addr = packAttrs b.size heap .free := by
  rw [hh.attrs b (List.mem_append_right xs List.mem_cons_self), Block.attrs, Block.type, if_pos hb]

private theorem holds_split {size : Nat} (tag : MallocOwner)
    (hh : Holds L m heap (xs ++ b :: ys) fs) (hb : b.isFree = true) (hsize : 32 ≤ size)
    (hmod : size % 16 = 0) (hfit : size + 32 ≤ b.size) :
    Frame L heap m (mallocFromBlock m b.addr size tag).2 ∧
      ∃ fs', Holds L (mallocFromBlock m b.addr size tag).2 heap
        (xs ++ [⟨b.addr, size, false, tag⟩, ⟨b.addr + size, b.size - size, true, .free⟩] ++ ys)
        fs' := by
  obtain ⟨us, vs, rfl⟩ := hh.free_split hb
  have hbmem : b ∈ xs ++ b :: ys := List.mem_append_right xs List.mem_cons_self
  have hregion := hh.mem_region hbmem
  have hlt := L.region_lt heap
  have hattrs := hh.free_attrs hb
  have hbmod := (hh.sizes b hbmem).2
  have hring := hh.ring
  rw [List.map_append, List.map_cons] at hring
  obtain ⟨hprev, hnext⟩ := hh.freeRing.neighbours_ne
  have hfsize : arenaSizeGet (m.attrs b.addr) = b.size := by
    rw [hattrs, arenaSizeGet_pack hbmod]
  have hnfp : u32 (b.addr + size) = b.addr + size := Nat.mod_eq_of_lt (by omega)
  -- the new block begins inside the old one, where no header was
  have hout : b.addr + size ∉ L.head heap.num :: (xs ++ b :: ys).map Block.addr := by
    rw [List.mem_cons, not_or]
    refine ⟨?_, hh.tiles.inside_notMem hbmem (by omega) (by omega)⟩
    have hhead := L.head_out heap heap
    omega
  have houtfree : b.addr + size ∉ L.head heap.num :: (us ++ b.addr :: vs) :=
    fun hmem => hout (hh.mem_ring hmem)
  rw [mallocFromBlock_split (by rw [hfsize, u32]; omega) hnfp (by omega) hnext]
  dsimp only
  have hold : Holds L m heap (xs ++ [b] ++ ys) (us ++ b.addr :: vs) := by
    rw [List.append_assoc]
    exact hh
  have hring' : b.addr ∉ L.head heap.num :: (xs ++ ys).map Block.addr := by
    rw [List.map_append]
    exact hring.notMem_others
  have hin : ∀ a ∈ L.head heap.num :: (xs ++ ys).map Block.addr,
      a ∈ L.head heap.num :: (xs ++ b :: ys).map Block.addr := by
    apply List.cons_subset_cons
    exact List.map_subset _ ((List.sublist_cons_self b ys).append_left xs).subset
  refine ⟨fun a ha => ?_, us ++ (b.addr + size) :: vs, hold.edit ?_ ?_ ?_ ?_ ?_ ?_⟩
  · have h1 := ne_of_owned (hh.owns_block hbmem) ha
    have h2 := ne_of_owned (Or.inr ⟨by omega, by omega⟩ : L.Owns heap (b.addr + size)) ha
    have h3 := ne_of_owned hh.owns_neighbours.2 ha
    have h4 := ne_of_owned hh.owns_neighboursFree.1 ha
    have h5 := ne_of_owned hh.owns_neighboursFree.2 ha
    simp only [Function.update_of_ne h1, Function.update_of_ne h2, Function.update_of_ne h3,
      Function.update_of_ne h4, Function.update_of_ne h5, and_self]
  · rw [List.map_append, List.map_cons] at hout
    simp only [List.map_append, List.map_cons, List.append_assoc, List.cons_append,
      List.nil_append]
    exact hring.assign_linkAfter hout
  · exact hh.freeRing.assign_replace houtfree
  · intro a
    rw [← hh.mem_free_others a]
    simp only [List.mem_append, List.mem_cons, List.not_mem_nil, or_false, exists_eq_or_imp,
      Bool.false_eq_true, false_and, exists_eq_left, true_and, false_or, eq_comm]
    tauto
  · intro c hc
    rcases List.mem_cons.mp hc with rfl | hc
    · refine ⟨?_, Function.update_self _ _ _, hsize, hmod⟩
      dsimp only
      rw [Function.update_self, hattrs, arenaTypeSet_pack hbmod, arenaSizeSet_pack hbmod _ _ hmod]
      rfl
    · rw [List.mem_singleton] at hc
      subst hc
      have hne : b.addr + size ≠ b.addr := by omega
      have hrest : u32 (b.size + 2 ^ 32 - size) = b.size - size := by
        rw [u32]
        omega
      dsimp only
      refine ⟨?_, ?_, ?_, ?_⟩
      · rw [Function.update_of_ne hne, Function.update_self, hfsize, hrest, hattrs,
          arenaHeapGet_pack hbmod, arenaSet_all _ _ (by omega)]
        rfl
      · rw [Function.update_of_ne hne, Function.update_self]
      · omega
      · omega
  · intro a ha
    have h1 : a ≠ b.addr := fun heq => hring' (heq ▸ ha)
    have h2 : a ≠ b.addr + size := fun heq => hout (heq ▸ hin a ha)
    simp only [Function.update_of_ne h1, Function.update_of_ne h2, and_self]
  · rintro lo hi ⟨hlo, hhi⟩
    refine ⟨hlo, by rw [← hlo], ?_⟩
    rw [tiles_nil] at hhi ⊢
    dsimp only at *
    omega

private theorem holds_whole {size : Nat} (tag : MallocOwner)
    (hh : Holds L m heap (xs ++ b :: ys) fs) (hb : b.isFree = true)
    (hfit : ¬ size + 32 ≤ b.size) (hle : size ≤ b.size) :
    Frame L heap m (mallocFromBlock m b.addr size tag).2 ∧
      ∃ fs', Holds L (mallocFromBlock m b.addr size tag).2 heap
        (xs ++ [{ b with isFree := false, tag := tag }] ++ ys) fs' := by
  obtain ⟨us, vs, rfl⟩ := hh.free_split hb
  have hbmem : b ∈ xs ++ b :: ys := List.mem_append_right xs List.mem_cons_self
  have hregion := hh.mem_region hbmem
  have hlt := L.size_le heap
  have hattrs := hh.free_attrs hb
  obtain ⟨hbsize, hbmod⟩ := hh.sizes b hbmem
  have hring := hh.ring
  rw [List.map_append, List.map_cons] at hring
  have hold : Holds L m heap (xs ++ [b] ++ ys) (us ++ b.addr :: vs) := by
    rw [List.append_assoc]
    exact hh
  have hring' : b.addr ∉ L.head heap.num :: (xs ++ ys).map Block.addr := by
    rw [List.map_append]
    exact hring.notMem_others
  have hsplit : ¬ u32 (size + 32) ≤ arenaSizeGet (m.attrs b.addr) := by
    rw [hattrs, arenaSizeGet_pack hbmod, u32]
    omega
  rw [mallocFromBlock_whole hsplit hh.freeRing.neighbours_ne.2]
  dsimp only
  refine ⟨fun a ha => ?_, us ++ vs, hold.edit ?_ hh.freeRing.assign_unlink ?_ ?_ ?_ ?_⟩
  · have h1 := ne_of_owned (hh.owns_block hbmem) ha
    have h2 := ne_of_owned hh.owns_neighboursFree.1 ha
    have h3 := ne_of_owned hh.owns_neighboursFree.2 ha
    simp only [Function.update_of_ne h1, Function.update_of_ne h2, Function.update_of_ne h3,
      and_self]
  · simp only [List.map_append, List.map_cons, List.append_assoc, List.cons_append,
      List.nil_append]
    exact hring
  · intro a
    rw [← hh.mem_free_others a]
    simp only [List.mem_cons, List.not_mem_nil, or_false, exists_eq_left, Bool.false_eq_true,
      false_and, false_or]
  · intro c hc
    rw [List.mem_singleton] at hc
    subst hc
    refine ⟨?_, Function.update_self _ _ _, hbsize, hbmod⟩
    dsimp only
    rw [Function.update_self, hattrs, arenaTypeSet_pack hbmod]
    rfl
  · intro a ha
    have hne : a ≠ b.addr := fun heq => hring' (heq ▸ ha)
    simp only [Function.update_of_ne hne, and_self]
  · rintro lo hi ⟨hlo, hhi⟩
    exact ⟨hlo, hhi⟩

/-- Allocating from a free block cuts it, and nothing else. -/
theorem mallocFromBlock_holds {size : Nat} (tag : MallocOwner)
    (hh : Holds L m heap (xs ++ b :: ys) fs) (hb : b.isFree = true) (hsize : 32 ≤ size)
    (hmod : size % 16 = 0) (hle : size ≤ b.size) :
    (mallocFromBlock m b.addr size tag).1 = b.addr + 16 ∧
      Frame L heap m (mallocFromBlock m b.addr size tag).2 ∧
      ∃ fs', Holds L (mallocFromBlock m b.addr size tag).2 heap
        (xs ++ b.allocate size tag ++ ys) fs' := by
  have hregion := hh.mem_region (List.mem_append_right xs List.mem_cons_self)
  have hlt := L.region_lt heap
  refine ⟨?_, ?_⟩
  · rw [mallocFromBlock_ptr]
    exact Nat.mod_eq_of_lt (by omega)
  · rw [Block.allocate]
    split
    · exact holds_split tag hh hb hsize hmod (by assumption)
    · exact holds_whole tag hh hb (by assumption) hle

/-! ## Searching the free ring -/

/-- The search ends at the head of the ring, or at a block that is large enough. -/
theorem findFit_seg {head size rounds a : Nat} {as : List Nat}
    (hs : Seg m.nextFree m.prevFree a as head) (hhead : head ∉ as) (hr : as.length < rounds) :
    ∃ r, findFit m head size rounds (m.nextFree a) = some r ∧
      ∀ fp ∈ r, fp ∈ as ∧ size ≤ arenaSizeGet (m.attrs fp) := by
  induction as generalizing a rounds with
  | nil =>
    obtain ⟨rounds, rfl⟩ := Nat.exists_eq_succ_of_ne_zero (Nat.ne_zero_of_lt hr)
    refine ⟨none, ?_, fun fp hfp => nomatch hfp⟩
    rw [findFit, if_pos hs.1]
  | cons x as ih =>
    obtain ⟨hx, -, hs⟩ := hs
    obtain ⟨hhx, hhead⟩ := not_or.mp (List.mem_cons.not.mp hhead)
    obtain ⟨rounds, rfl⟩ := Nat.exists_eq_succ_of_ne_zero (Nat.ne_zero_of_lt hr)
    rw [hx, findFit, if_neg fun heq => hhx heq.symm]
    by_cases hfit : size ≤ arenaSizeGet (m.attrs x)
    · refine ⟨some x, if_pos hfit, fun fp hfp => ?_⟩
      cases hfp
      exact ⟨List.mem_cons_self, hfit⟩
    · obtain ⟨r, hfind, hprop⟩ := ih hs hhead (Nat.lt_of_succ_lt_succ hr)
      refine ⟨r, (if_neg hfit).trans hfind, fun fp hfp => ?_⟩
      exact ⟨List.mem_cons_of_mem x (hprop fp hfp).1, (hprop fp hfp).2⟩

/-! ## A request -/

/-- The bytes of the block for a request: the header and the request, rounded up. -/
def blockSize (size : Nat) : Nat := (size + 31) / 16 * 16

/-- The block that an allocation takes from a free one. -/
def Block.taken (b : Block) (size : Nat) (tag : MallocOwner) : Block :=
  if size + 32 ≤ b.size then ⟨b.addr, size, false, tag⟩
  else { b with isFree := false, tag := tag }

theorem used_allocate (size : Nat) (tag : MallocOwner) :
    used (xs ++ b.allocate size tag ++ ys) = used xs ++ b.taken size tag :: used ys := by
  rw [Block.allocate, Block.taken, used_append, used_append, List.append_assoc]
  split
  · rw [used_cons_used rfl, used_cons_free rfl]
    rfl
  · rw [used_cons_used rfl]
    rfl

theorem taken_props (size : Nat) (tag : MallocOwner) (hle : size ≤ b.size) :
    (b.taken size tag).addr = b.addr ∧ size ≤ (b.taken size tag).size ∧
      (b.taken size tag).tag = tag := by
  rw [Block.taken]
  split
  · exact ⟨rfl, Nat.le_refl size, rfl⟩
  · exact ⟨rfl, hle, rfl⟩

/-- Cutting a free block leaves no two neighbours free. -/
theorem coalesced_allocate (size : Nat) (tag : MallocOwner) (hb : b.isFree = true)
    (hc : Coalesced (xs ++ b :: ys)) : Coalesced (xs ++ b.allocate size tag ++ ys) := by
  obtain ⟨hxs, hys, hfree⟩ := coalesced_middle.mp hc
  rw [Block.allocate]
  split
  · rw [List.append_assoc]
    refine coalesced_middle.mpr ⟨hxs, ?_, fun hused => absurd hused Bool.false_ne_true⟩
    refine (@coalesced_middle [] ys _).mpr ⟨List.IsChain.nil, hys, fun _ => ?_⟩
    exact ⟨fun _ hp => (nomatch hp), (hfree hb).2⟩
  · rw [List.append_assoc]
    exact coalesced_middle.mpr ⟨hxs, hys, fun hused => absurd hused Bool.false_ne_true⟩

/-- A request either finds no block and changes nothing, or takes one more block into use. -/
theorem mallocTagged_holds {bs : List Block} (hh : Holds L m heap bs fs) (hc : Coalesced bs)
    {size : Nat} (hsize : size + 31 < 2 ^ 32) (tag : MallocOwner) :
    ∃ ptr m', mallocTagged L m size heap tag = some (ptr, m') ∧ Frame L heap m m' ∧
      (ptr = 0 ∧ m' = m ∨ ∃ bs' fs' us b ws, Holds L m' heap bs' fs' ∧ Coalesced bs' ∧
        used bs = us ++ ws ∧ used bs' = us ++ b :: ws ∧ ptr = b.addr + 16 ∧
        size + 16 ≤ b.size ∧ b.tag = tag) := by
  rw [mallocTagged]
  by_cases hzero : size = 0
  · rw [if_pos hzero]
    exact ⟨0, m, rfl, Frame.refl, Or.inl ⟨rfl, rfl⟩⟩
  · have hu32 : u32 (size + 31) / 16 * 16 = blockSize size := by
      rw [u32, Nat.mod_eq_of_lt hsize, blockSize]
    have hblock : size + 16 ≤ blockSize size ∧ 32 ≤ blockSize size ∧ blockSize size % 16 = 0 := by
      rw [blockSize]
      omega
    have hrounds : fs.length < ringRounds := by
      have hblocks := hh.length_lt
      have hfree := hh.lengthFree_le
      omega
    rw [if_neg hzero, hu32]
    obtain ⟨r, hfind, hfit⟩ := @findFit_seg m (L.head heap.num) (blockSize size) ringRounds
      _ _ hh.freeRing.seg hh.freeRing.head_notMem hrounds
    dsimp only
    rw [hfind]
    cases r with
    | none => exact ⟨0, m, rfl, Frame.refl, Or.inl ⟨rfl, rfl⟩⟩
    | some fp =>
      obtain ⟨hmem, hle⟩ := hfit fp rfl
      obtain ⟨b, hb, hfree, rfl⟩ := (hh.mem_free fp).mp hmem
      obtain ⟨xs, ys, rfl⟩ := List.append_of_mem hb
      rw [hh.attrs b hb, Block.attrs, arenaSizeGet_pack (hh.sizes b hb).2] at hle
      obtain ⟨hptr, hframe, fs', hholds⟩ :=
        mallocFromBlock_holds tag hh hfree hblock.2.1 hblock.2.2 hle
      obtain ⟨haddr, hsize', htag⟩ := taken_props (blockSize size) tag hle
      refine ⟨(mallocFromBlock m b.addr (blockSize size) tag).1,
        (mallocFromBlock m b.addr (blockSize size) tag).2, rfl, hframe, Or.inr ⟨_, fs', used xs,
        b.taken (blockSize size) tag, used ys, hholds, coalesced_allocate _ tag hfree hc, ?_,
        used_allocate _ tag, ?_, ?_, htag⟩⟩
      · rw [used_append, used_cons_free hfree]
      · rw [hptr, haddr]
      · omega

end Liigboot.Mem
