import Liigboot.Mem.Blocks

/-!
# Release

`__free_block` joins a released block to a free block in front of it, or puts it on
the free ring; then it joins the result to a free block behind it. So neighbours
that are both free never stay.
-/

namespace Liigboot.Mem

variable {L : Layout} {m : Arena} {heap : Heap} {xs ys : List Block} {b p n : Block}
  {fs : List Nat}

/-! ## The headers afterwards -/

private theorem freeBlockPrev_join {ah : Nat}
    (hjoin : arenaTypeGet (m.attrs (m.prev ah)) = .free ∧
      u32 (m.prev ah + arenaSizeGet (m.attrs (m.prev ah))) = ah) :
    freeBlockPrev L m ah = (m.prev ah,
      { m with
        attrs := Function.update m.attrs (m.prev ah) (arenaSizeSet (m.attrs (m.prev ah))
          (u32 (arenaSizeGet (m.attrs (m.prev ah)) + arenaSizeGet (m.attrs ah))))
        next := Function.update m.next (m.prev ah) (m.next ah)
        prev := Function.update m.prev (m.next ah) (m.prev ah) }) := by
  rw [freeBlockPrev, if_pos hjoin]
  rfl

private theorem freeBlockPrev_link {ah : Nat}
    (hjoin : ¬ (arenaTypeGet (m.attrs (m.prev ah)) = .free ∧
      u32 (m.prev ah + arenaSizeGet (m.attrs (m.prev ah))) = ah)) {head : Nat}
    (hhead : L.head (arenaHeapGet (m.attrs ah)) = head) (hne : head ≠ ah) :
    freeBlockPrev L m ah = (ah,
      { m with
        tag := Function.update m.tag ah .free
        attrs := Function.update m.attrs ah (arenaTypeSet (m.attrs ah) .free)
        nextFree := Function.update (Function.update m.nextFree ah (m.nextFree head)) head ah
        prevFree :=
          Function.update (Function.update m.prevFree ah head) (m.nextFree head) ah }) := by
  rw [freeBlockPrev, if_neg hjoin, hhead]
  simp only [Arena.setTag, Arena.setAttrs, Arena.setNextFree, Arena.setPrevFree,
    Function.update_self, Function.update_of_ne hne.symm]

private theorem freeBlockNext_join {ah nah : Nat}
    (hjoin : arenaTypeGet (m.attrs nah) = .free ∧ u32 (ah + arenaSizeGet (m.attrs ah)) = nah)
    (hfree : m.nextFree nah ≠ nah) (hne : nah ≠ ah) :
    freeBlockNext m ah nah =
      { m with
        attrs := Function.update m.attrs ah (arenaSizeSet (m.attrs ah)
          (u32 (arenaSizeGet (m.attrs ah) + arenaSizeGet (m.attrs nah))))
        nextFree := Function.update m.nextFree (m.prevFree nah) (m.nextFree nah)
        prevFree := Function.update m.prevFree (m.nextFree nah) (m.prevFree nah)
        next := Function.update m.next ah (m.next nah)
        prev := Function.update m.prev (m.next nah) ah } := by
  rw [freeBlockNext, if_pos hjoin]
  simp only [Arena.setAttrs, Arena.setNext, Arena.setPrev, Arena.setNextFree, Arena.setPrevFree,
    Function.update_of_ne hfree.symm, Function.update_of_ne hne]

/-! ## Neighbours in memory -/

/-- The block in front of another one, as `__free_block` sees it. -/
private theorem prev_of_cons (hh : Holds L m heap (xs ++ p :: b :: ys) fs) :
    m.prev b.addr = p.addr ∧ m.next p.addr = b.addr ∧ p.addr + p.size = b.addr := by
  have hring := hh.ring
  rw [List.map_append, List.map_cons, List.map_cons] at hring
  obtain ⟨hn, hp⟩ := hring.adjacent
  obtain ⟨hb, -⟩ := (tiles_middle.mp hh.tiles).2
  exact ⟨hp, hn, hb.symm⟩

/-- The header in front of a block is free if there is a free block in front of it. -/
private theorem joinsPrev_iff (hh : Holds L m heap (xs ++ b :: ys) fs) :
    (arenaTypeGet (m.attrs (m.prev b.addr)) = .free ∧
      u32 (m.prev b.addr + arenaSizeGet (m.attrs (m.prev b.addr))) = b.addr) ↔
        ∃ xs' p, xs = xs' ++ [p] ∧ p.isFree = true := by
  rcases List.eq_nil_or_concat xs with rfl | ⟨xs', p, rfl⟩
  · have hprev : m.prev b.addr = L.head heap.num := by
      have hring := hh.ring
      rw [List.nil_append, List.map_cons] at hring
      exact hring.prev_first
    rw [hprev, hh.headAttrs]
    constructor
    · rintro ⟨htype, -⟩
      cases htype
    · rintro ⟨xs', p, hnil, -⟩
      exact absurd hnil.symm (by simp)
  · rw [List.concat_eq_append] at hh ⊢
    rw [List.append_assoc, List.singleton_append] at hh
    have hpmem : p ∈ xs' ++ p :: b :: ys := List.mem_append_right xs' List.mem_cons_self
    obtain ⟨hp, -, hend⟩ := prev_of_cons hh
    obtain ⟨-, hmod⟩ := hh.sizes p hpmem
    have hregion := hh.mem_region hpmem
    have hlt := L.region_lt heap
    have hb : u32 (p.addr + p.size) = b.addr := by
      rw [hend, u32]
      omega
    rw [hp, hh.attrs p hpmem, Block.attrs, arenaTypeGet_pack hmod, arenaSizeGet_pack hmod,
      Block.type, and_iff_left hb]
    constructor
    · intro htype
      refine ⟨xs', p, rfl, ?_⟩
      by_contra hused
      rw [if_neg hused] at htype
      cases htype
    · rintro ⟨xs'', p', heq, hfree⟩
      obtain ⟨-, hlast⟩ := List.append_inj' heq rfl
      cases hlast
      rw [if_pos hfree]

/-- The header behind a block is free if there is a free block behind it. -/
private theorem joinsNext_iff (hh : Holds L m heap (xs ++ b :: ys) fs) :
    (arenaTypeGet (m.attrs (m.next b.addr)) = .free ∧
      u32 (b.addr + arenaSizeGet (m.attrs b.addr)) = m.next b.addr) ↔
        ∃ n ys', ys = n :: ys' ∧ n.isFree = true := by
  have hbmem : b ∈ xs ++ b :: ys := List.mem_append_right xs List.mem_cons_self
  cases ys with
  | nil =>
    have hnext : m.next b.addr = L.head heap.num := by
      have hring := hh.ring
      rw [List.map_append, List.map_cons] at hring
      exact hring.next_eq
    rw [hnext, hh.headAttrs]
    constructor
    · rintro ⟨htype, -⟩
      cases htype
    · rintro ⟨n, ys', hnil, -⟩
      cases hnil
  | cons n ys =>
    have hnmem : n ∈ xs ++ b :: n :: ys :=
      List.mem_append_right xs (List.mem_cons_of_mem b List.mem_cons_self)
    obtain ⟨-, hn, hend⟩ := prev_of_cons hh
    obtain ⟨-, hmod⟩ := hh.sizes n hnmem
    have hregion := hh.mem_region hbmem
    have hlt := L.region_lt heap
    have hb : u32 (b.addr + b.size) = n.addr := by
      rw [hend, u32]
      omega
    rw [hn, hh.attrs n hnmem, hh.attrs b hbmem, Block.attrs, Block.attrs, arenaTypeGet_pack hmod,
      arenaSizeGet_pack (hh.sizes b hbmem).2, Block.type, and_iff_left hb]
    constructor
    · intro htype
      refine ⟨n, ys, rfl, ?_⟩
      by_contra hused
      rw [if_neg hused] at htype
      cases htype
    · rintro ⟨n', ys', heq, hfree⟩
      cases heq
      rw [if_pos hfree]

/-! ## The heap afterwards -/

theorem Holds.used_attrs (hh : Holds L m heap (xs ++ b :: ys) fs) (hb : b.isFree = false) :
    m.attrs b.addr = packAttrs b.size heap .used := by
  rw [hh.attrs b (List.mem_append_right xs List.mem_cons_self), Block.attrs, Block.type, hb]
  rfl

/-- The two blocks become one, with the header of the first. -/
def Block.join (p b : Block) : Block := { p with size := p.size + b.size }

/-- The block is marked free. -/
def Block.release (b : Block) : Block := { b with isFree := true, tag := .free }

private theorem holds_joinPrev (hh : Holds L m heap (xs ++ p :: b :: ys) fs)
    (hp : p.isFree = true) (hb : b.isFree = false) :
    (freeBlockPrev L m b.addr).1 = p.addr ∧
      (freeBlockPrev L m b.addr).2.next p.addr = m.next b.addr ∧
      Frame L heap m (freeBlockPrev L m b.addr).2 ∧
      Holds L (freeBlockPrev L m b.addr).2 heap (xs ++ p.join b :: ys) fs := by
  have hh' : Holds L m heap ((xs ++ [p]) ++ b :: ys) fs := by
    rw [List.append_assoc]
    exact hh
  have hpmem : p ∈ xs ++ p :: b :: ys := List.mem_append_right xs List.mem_cons_self
  have hbmem : b ∈ xs ++ p :: b :: ys :=
    List.mem_append_right xs (List.mem_cons_of_mem p List.mem_cons_self)
  have hjoin := (joinsPrev_iff hh').mpr ⟨xs, p, rfl, hp⟩
  obtain ⟨hprev, -, hend⟩ := prev_of_cons hh
  obtain ⟨hpsize, hpmod⟩ := hh.sizes p hpmem
  obtain ⟨hbsize, hbmod⟩ := hh.sizes b hbmem
  have hregion := hh.mem_region hbmem
  have hlt := L.region_lt heap
  have hpattrs : m.attrs p.addr = packAttrs p.size heap p.type := hh.attrs p hpmem
  have hbattrs := hh'.used_attrs hb
  have hring := hh.ring
  rw [List.map_append, List.map_cons, List.map_cons] at hring
  have hring' : p.addr ∉ L.head heap.num :: (xs ++ ys).map Block.addr := by
    intro hmem
    apply hring.notMem_others
    rw [List.map_append] at hmem
    exact List.cons_subset_cons _ ((List.sublist_cons_self _ _).append_left _).subset hmem
  rw [freeBlockPrev_join hjoin, hprev]
  dsimp only
  refine ⟨rfl, Function.update_self _ _ _, fun a ha => ?_, ?_⟩
  · have h1 := ne_of_owned (hh.owns_block hpmem) ha
    have h2 := ne_of_owned hh'.owns_neighbours.2 ha
    simp only [Function.update_of_ne h1, Function.update_of_ne h2, and_self]
  · have hold : Holds L m heap (xs ++ [p, b] ++ ys) fs := by
      rw [List.append_assoc]
      exact hh
    have hsum : u32 (p.size + b.size) = p.size + b.size := Nat.mod_eq_of_lt (by omega)
    rw [← List.singleton_append, ← List.append_assoc]
    refine hold.edit ?_ hh.freeRing ?_ ?_ ?_ ?_
    · have hunlink := (List.append_cons _ _ _ ▸ hring).assign_unlink
      rw [hprev] at hunlink
      simp only [List.map_append, List.map_cons, List.append_assoc, List.cons_append,
        List.nil_append] at hunlink ⊢
      exact hunlink
    · intro a
      rw [hold.mem_free a, exists_mem_middle]
      simp only [List.mem_cons, List.not_mem_nil, or_false, exists_eq_or_imp, exists_eq_left, hb,
        Bool.false_eq_true, false_and, or_false, Block.join]
    · intro c hc
      rw [List.mem_singleton] at hc
      subst hc
      refine ⟨?_, hh.tag p hpmem, ?_, ?_⟩
      · dsimp only [Block.join, Block.attrs, Block.type]
        rw [Function.update_self, hpattrs, hbattrs, arenaSizeGet_pack hpmod,
          arenaSizeGet_pack hbmod, hsum, arenaSizeSet_pack hpmod _ _ (by omega)]
        rfl
      · dsimp only [Block.join]
        omega
      · dsimp only [Block.join]
        omega
    · intro a ha
      have hne : a ≠ p.addr := fun heq => hring' (heq ▸ ha)
      simp only [Function.update_of_ne hne, and_self]
    · rintro lo hi ⟨hlo, -, hhi⟩
      refine ⟨hlo, ?_⟩
      rw [tiles_nil] at hhi ⊢
      dsimp only [Block.join]
      omega

private theorem holds_release (hh : Holds L m heap (xs ++ b :: ys) fs) (hb : b.isFree = false)
    (hjoin : ¬ ∃ xs' p, xs = xs' ++ [p] ∧ p.isFree = true) :
    (freeBlockPrev L m b.addr).1 = b.addr ∧
      (freeBlockPrev L m b.addr).2.next b.addr = m.next b.addr ∧
      Frame L heap m (freeBlockPrev L m b.addr).2 ∧
      Holds L (freeBlockPrev L m b.addr).2 heap (xs ++ b.release :: ys) (b.addr :: fs) := by
  have hbmem : b ∈ xs ++ b :: ys := List.mem_append_right xs List.mem_cons_self
  obtain ⟨hbsize, hbmod⟩ := hh.sizes b hbmem
  have hbattrs := hh.used_attrs hb
  have hring := hh.ring
  rw [List.map_append, List.map_cons] at hring
  have hring' : b.addr ∉ L.head heap.num :: (xs ++ ys).map Block.addr := by
    rw [List.map_append]
    exact hring.notMem_others
  have hhead : L.head (arenaHeapGet (m.attrs b.addr)) = L.head heap.num := by
    rw [hbattrs, arenaHeapGet_pack hbmod]
  have hne : L.head heap.num ≠ b.addr := fun heq => hring' (heq ▸ List.mem_cons_self)
  have hout : b.addr ∉ L.head heap.num :: fs := by
    intro hmem
    rcases List.mem_cons.mp hmem with heq | hmem
    · exact hne heq.symm
    · obtain ⟨c, hc, hfree, haddr⟩ := (hh.mem_free _).mp hmem
      have hsame := hh.tiles.eq_of_addr
        (fun b hb => Nat.lt_of_lt_of_le (by decide) (hh.sizes b hb).1) hc hbmem haddr
      rw [hsame, hb] at hfree
      exact Bool.false_ne_true hfree
  rw [freeBlockPrev_link ((joinsPrev_iff hh).not.mpr hjoin) hhead hne]
  dsimp only
  refine ⟨rfl, rfl, fun a ha => ?_, ?_⟩
  · have h1 := ne_of_owned (hh.owns_block hbmem) ha
    have h2 := ne_of_owned (Or.inl rfl : L.Owns heap (L.head heap.num)) ha
    have h3 := ne_of_owned (hh.owns_ring (hh.mem_ring hh.freeRing.next_head_mem)) ha
    simp only [Function.update_of_ne h1, Function.update_of_ne h2, Function.update_of_ne h3,
      and_self]
  · have hold : Holds L m heap (xs ++ [b] ++ ys) fs := by
      rw [List.append_assoc]
      exact hh
    rw [← List.singleton_append, ← List.append_assoc]
    refine hold.edit ?_ (hh.freeRing.assign_linkHead hout) ?_ ?_ ?_ ?_
    · simp only [List.map_append, List.map_cons, List.append_assoc, List.cons_append,
        List.nil_append]
      exact hring
    · intro a
      rw [List.mem_cons, hold.mem_free a, exists_mem_middle, eq_comm]
      simp only [List.mem_cons, List.not_mem_nil, or_false, exists_eq_left, hb, Bool.false_eq_true,
        false_and, false_or, Block.release, true_and]
    · intro c hc
      rw [List.mem_singleton] at hc
      subst hc
      refine ⟨?_, Function.update_self _ _ _, hbsize, hbmod⟩
      dsimp only [Block.release, Block.attrs, Block.type]
      rw [Function.update_self, hbattrs, arenaTypeSet_pack hbmod]
      rfl
    · intro a ha
      have hne : a ≠ b.addr := fun heq => hring' (heq ▸ ha)
      simp only [Function.update_of_ne hne, and_self]
    · rintro lo hi ⟨hlo, hhi⟩
      exact ⟨hlo, hhi⟩

private theorem holds_joinNext (hh : Holds L m heap (xs ++ b :: n :: ys) fs)
    (hn : n.isFree = true) :
    Frame L heap m (freeBlockNext m b.addr (m.next b.addr)) ∧
      ∃ fs', Holds L (freeBlockNext m b.addr (m.next b.addr)) heap (xs ++ b.join n :: ys) fs' := by
  have hh' : Holds L m heap ((xs ++ [b]) ++ n :: ys) fs := by
    rw [List.append_assoc]
    exact hh
  obtain ⟨us, vs, rfl⟩ : ∃ us vs, fs = us ++ n.addr :: vs := by
    apply List.append_of_mem
    exact (hh'.mem_free _).mpr ⟨n, List.mem_append_right _ List.mem_cons_self, hn, rfl⟩
  have hbmem : b ∈ xs ++ b :: n :: ys := List.mem_append_right xs List.mem_cons_self
  have hnmem : n ∈ xs ++ b :: n :: ys :=
    List.mem_append_right xs (List.mem_cons_of_mem b List.mem_cons_self)
  have hjoin := (joinsNext_iff hh).mpr ⟨n, ys, rfl, hn⟩
  obtain ⟨hprev, hnext, hend⟩ := prev_of_cons hh
  obtain ⟨hbsize, hbmod⟩ := hh.sizes b hbmem
  obtain ⟨hnsize, hnmod⟩ := hh.sizes n hnmem
  have hregion := hh.mem_region hnmem
  have hlt := L.region_lt heap
  have hbattrs : m.attrs b.addr = packAttrs b.size heap b.type := hh.attrs b hbmem
  have hnattrs : m.attrs n.addr = packAttrs n.size heap n.type := hh.attrs n hnmem
  have hring := hh.ring
  rw [List.map_append, List.map_cons, List.map_cons] at hring
  have hring' : b.addr ∉ L.head heap.num :: (xs ++ ys).map Block.addr := by
    intro hmem
    apply hring.notMem_others
    rw [List.map_append] at hmem
    exact List.cons_subset_cons _ ((List.sublist_cons_self _ _).append_left _).subset hmem
  rw [hnext] at hjoin ⊢
  rw [freeBlockNext_join hjoin hh.freeRing.neighbours_ne.2 (by omega)]
  refine ⟨fun a ha => ?_, us ++ vs, ?_⟩
  · have h1 := ne_of_owned (hh.owns_block hbmem) ha
    have h2 := ne_of_owned hh'.owns_neighbours.2 ha
    have h3 := ne_of_owned hh.owns_neighboursFree.1 ha
    have h4 := ne_of_owned hh.owns_neighboursFree.2 ha
    simp only [Function.update_of_ne h1, Function.update_of_ne h2, Function.update_of_ne h3,
      Function.update_of_ne h4, and_self]
  · have hold : Holds L m heap (xs ++ [b, n] ++ ys) (us ++ n.addr :: vs) := by
      rw [List.append_assoc]
      exact hh
    have hsum : u32 (b.size + n.size) = b.size + n.size := Nat.mod_eq_of_lt (by omega)
    rw [← List.singleton_append, ← List.append_assoc]
    refine hold.edit ?_ hh.freeRing.assign_unlink ?_ ?_ ?_ ?_
    · have hunlink := (List.append_cons _ _ _ ▸ hring).assign_unlink
      rw [hprev] at hunlink
      simp only [List.map_append, List.map_cons, List.append_assoc, List.cons_append,
        List.nil_append] at hunlink ⊢
      exact hunlink
    · intro a
      rw [hh'.mem_free_others a, exists_mem_middle]
      simp only [List.mem_cons, List.not_mem_nil, or_false, exists_eq_left, Block.join]
    · intro c hc
      rw [List.mem_singleton] at hc
      subst hc
      refine ⟨?_, hh.tag b hbmem, ?_, ?_⟩
      · dsimp only [Block.join, Block.attrs, Block.type]
        rw [Function.update_self, hbattrs, hnattrs, arenaSizeGet_pack hbmod,
          arenaSizeGet_pack hnmod, hsum, arenaSizeSet_pack hbmod _ _ (by omega)]
        rfl
      · dsimp only [Block.join]
        omega
      · dsimp only [Block.join]
        omega
    · intro a ha
      have hne : a ≠ b.addr := fun heq => hring' (heq ▸ ha)
      simp only [Function.update_of_ne hne, and_self]
    · rintro lo hi ⟨hlo, -, hhi⟩
      refine ⟨hlo, ?_⟩
      rw [tiles_nil] at hhi ⊢
      dsimp only [Block.join]
      omega

/-! ## Both halves -/

/-- Up to the released block no two neighbours are both free. -/
private theorem freeBlockPrev_holds (hh : Holds L m heap (xs ++ b :: ys) fs)
    (hb : b.isFree = false) (hc : Coalesced xs) :
    ∃ xs' b' fs', (freeBlockPrev L m b.addr).1 = b'.addr ∧
      (freeBlockPrev L m b.addr).2.next b'.addr = m.next b.addr ∧
      Frame L heap m (freeBlockPrev L m b.addr).2 ∧
      Holds L (freeBlockPrev L m b.addr).2 heap (xs' ++ b' :: ys) fs' ∧
      b'.isFree = true ∧ Coalesced (xs' ++ [b']) ∧ used xs' = used xs := by
  have hnil : Coalesced [] := List.IsChain.nil
  by_cases hjoin : ∃ xs' p, xs = xs' ++ [p] ∧ p.isFree = true
  · obtain ⟨xs', p, rfl, hp⟩ := hjoin
    rw [List.append_assoc] at hh
    obtain ⟨haddr, hnext, hframe, hholds⟩ := holds_joinPrev hh hp hb
    refine ⟨xs', p.join b, fs, haddr, hnext, hframe, hholds, hp, ?_, ?_⟩
    · obtain ⟨hcxs, -, hfront⟩ := coalesced_middle.mp hc
      exact coalesced_middle.mpr ⟨hcxs, hnil, fun _ => hfront hp⟩
    · rw [used_append, used_cons_free hp]
      exact (List.append_nil _).symm
  · obtain ⟨haddr, hnext, hframe, hholds⟩ := holds_release hh hb hjoin
    refine ⟨xs, b.release, b.addr :: fs, haddr, hnext, hframe, hholds, rfl, ?_, rfl⟩
    refine coalesced_middle.mpr ⟨hc, hnil, fun _ => ⟨fun p hp => ?_, fun _ hn => nomatch hn⟩⟩
    obtain ⟨xs', hxs⟩ := List.getLast?_eq_some_iff.mp hp
    exact Bool.eq_false_iff.mpr fun hfree => hjoin ⟨xs', p, hxs, hfree⟩

/-- Behind the released block no two neighbours are both free, either. -/
private theorem freeBlockNext_holds (hh : Holds L m heap (xs ++ b :: ys) fs)
    (hb : b.isFree = true) (hc : Coalesced (xs ++ [b])) (hcys : Coalesced ys) :
    ∃ b' ys' fs', b'.addr = b.addr ∧ b'.isFree = true ∧
      Frame L heap m (freeBlockNext m b.addr (m.next b.addr)) ∧
      Holds L (freeBlockNext m b.addr (m.next b.addr)) heap (xs ++ b' :: ys') fs' ∧
      Coalesced (xs ++ b' :: ys') ∧ used ys' = used ys ∧ ys'.length ≤ ys.length := by
  obtain ⟨hcxs, -, hfront⟩ := coalesced_middle.mp hc
  by_cases hjoin : ∃ n ys', ys = n :: ys' ∧ n.isFree = true
  · obtain ⟨n, ys', rfl, hn⟩ := hjoin
    obtain ⟨hframe, fs', hholds⟩ := holds_joinNext hh hn
    obtain ⟨-, hcys', hback⟩ := (@coalesced_middle [] ys' n).mp hcys
    refine ⟨b.join n, ys', fs', rfl, hb, hframe, hholds, ?_, ?_, Nat.le_succ _⟩
    · exact coalesced_middle.mpr ⟨hcxs, hcys', fun _ => ⟨(hfront hb).1, (hback hn).2⟩⟩
    · rw [used_cons_free hn]
  · rw [freeBlockNext, if_neg ((joinsNext_iff hh).not.mpr hjoin)]
    refine ⟨b, ys, fs, rfl, hb, Frame.refl, hh, ?_, rfl, Nat.le_refl _⟩
    refine coalesced_middle.mpr ⟨hcxs, hcys, fun _ => ⟨(hfront hb).1, fun n hn => ?_⟩⟩
    obtain ⟨ys', hys⟩ := List.head?_eq_some_iff.mp hn
    exact Bool.eq_false_iff.mpr fun hfree => hjoin ⟨n, ys', hys, hfree⟩

/-- Releasing a block in use keeps the other blocks in use, and joins what is free. -/
theorem freeBlock_holds (hh : Holds L m heap (xs ++ b :: ys) fs) (hb : b.isFree = false)
    (hc : Coalesced (xs ++ b :: ys)) :
    ∃ xs' b' ys' fs', (freeBlock L m b.addr).1 = b'.addr ∧ b'.isFree = true ∧
      Frame L heap m (freeBlock L m b.addr).2 ∧
      Holds L (freeBlock L m b.addr).2 heap (xs' ++ b' :: ys') fs' ∧
      Coalesced (xs' ++ b' :: ys') ∧ used xs' = used xs ∧ used ys' = used ys ∧
      ys'.length ≤ ys.length := by
  obtain ⟨hfront, hback, -⟩ := coalesced_middle.mp hc
  obtain ⟨xs', b', fs', haddr, hnext, hframe, hholds, hfree, hc', hxs⟩ :=
    freeBlockPrev_holds hh hb hfront
  obtain ⟨b'', ys', fs'', haddr', hfree', hframe', hholds', hc'', hys, hlen⟩ :=
    freeBlockNext_holds hholds hfree hc' hback
  rw [freeBlock]
  dsimp only
  rw [haddr, ← hnext]
  exact ⟨xs', b'', ys', fs'', haddr'.symm, hfree', hframe.trans hframe', hholds', hc'', hxs, hys,
    hlen⟩

end Liigboot.Mem
