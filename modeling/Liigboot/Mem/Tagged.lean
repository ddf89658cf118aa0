import Liigboot.Mem.Free

/-!
# Releasing by tag, and starting up

`__free_tagged` walks the ring of all blocks while it releases some of them; the
block it goes on from is the one that swallowed the released one. `mem_init` puts
one block on each heap and releases it.
-/

namespace Liigboot.Mem

variable {L : Layout} {m : Arena} {heap : Heap} {xs ys : List Block} {b : Block} {fs : List Nat}

/-- The header of a block says whether `__free_tagged` releases it. -/
theorem releases_iff (hh : Holds L m heap (xs ++ b :: ys) fs) (tag : MallocOwner) :
    (arenaTypeGet (m.attrs b.addr) = .used ∧ m.tag b.addr = tag) ↔
      b.isFree = false ∧ b.tag = tag := by
  have hbmem : b ∈ xs ++ b :: ys := List.mem_append_right xs List.mem_cons_self
  rw [hh.attrs b hbmem, hh.tag b hbmem, Block.attrs, arenaTypeGet_pack (hh.sizes b hbmem).2,
    Block.type]
  cases b.isFree with
  | false => simp only [Bool.false_eq_true, if_false, true_and]
  | true => simp only [if_true, reduceCtorEq, false_and]

/-- The loop releases the blocks in use that have the tag, and keeps the others. -/
theorem freeTaggedFrom_holds (tag : MallocOwner) (rounds : Nat) {m : Arena} {xs ys : List Block}
    {fs : List Nat} (hh : Holds L m heap (xs ++ ys) fs) (hc : Coalesced (xs ++ ys))
    (hr : ys.length < rounds) :
    ∃ m' bs' fs', freeTaggedFrom L tag (L.head heap.num) rounds
        ((ys.map Block.addr).headD (L.head heap.num)) m = some m' ∧ Frame L heap m m' ∧
      Holds L m' heap bs' fs' ∧ Coalesced bs' ∧
      used bs' = used xs ++ (used ys).filter (·.tag ≠ tag) := by
  induction rounds generalizing m xs ys fs with
  | zero => exact absurd hr (Nat.not_lt_zero _)
  | succ rounds ih =>
    cases ys with
    | nil =>
      refine ⟨m, xs ++ [], fs, ?_, Frame.refl, hh, hc, ?_⟩
      · rw [List.map_nil, List.headD_nil, freeTaggedFrom, if_pos rfl]
      · rw [List.append_nil]
        exact (List.append_nil _).symm
    | cons b ys =>
      have hring := hh.ring
      rw [List.map_append, List.map_cons] at hring
      have hne : b.addr ≠ L.head heap.num := fun heq =>
        hring.notMem_others (heq ▸ List.mem_cons_self)
      rw [List.map_cons, List.headD_cons, freeTaggedFrom, if_neg hne]
      by_cases hrel : b.isFree = false ∧ b.tag = tag
      · rw [if_pos ((releases_iff hh tag).mpr hrel)]
        obtain ⟨xs', b', ys', fs', haddr, hfree, hframe, hholds, hc', hxs, hys, hlen⟩ :=
          freeBlock_holds hh hrel.1 hc
        have hring' := hholds.ring
        rw [List.map_append, List.map_cons] at hring'
        have hnext := hring'.next_eq
        rw [List.append_cons] at hholds hc'
        obtain ⟨m', bs', fs'', hloop, hframe', hholds', hc'', hused⟩ :=
          ih hholds hc' (by rw [List.length_cons] at hr; omega)
        refine ⟨m', bs', fs'', ?_, hframe.trans hframe', hholds', hc'', ?_⟩
        · dsimp only
          rw [haddr, hnext]
          exact hloop
        · have htag : ¬ decide (b.tag ≠ tag) = true := fun hne => of_decide_eq_true hne hrel.2
          rw [hused, used_append, used_cons_free hfree, hxs, hys, used_cons_used hrel.1,
            List.filter_cons, if_neg htag]
          exact congrArg (· ++ _) (List.append_nil _)
      · rw [if_neg ((releases_iff hh tag).not.mpr hrel)]
        have hnext := hring.next_eq
        rw [List.append_cons] at hh hc
        obtain ⟨m', bs', fs', hloop, hframe, hholds, hc', hused⟩ :=
          ih hh hc (Nat.lt_of_succ_lt_succ hr)
        refine ⟨m', bs', fs', ?_, hframe, hholds, hc', ?_⟩
        · dsimp only
          rw [hnext]
          exact hloop
        · rw [hused, used_append, List.append_assoc]
          congr 1
          cases hb : b.isFree with
          | true =>
            rw [used_cons_free hb, used_cons_free hb]
            rfl
          | false =>
            have htag : decide (b.tag ≠ tag) = true := decide_eq_true fun heq => hrel ⟨hb, heq⟩
            rw [used_cons_used hb, used_cons_used hb, List.filter_cons, if_pos htag]
            rfl

/-! ## Starting up -/

/-- A heap without blocks in use is one free block. -/
theorem whole_of_used_nil {bs : List Block} (hh : Holds L m heap bs fs) (hc : Coalesced bs)
    (hused : used bs = []) : ∃ tag, bs = [⟨L.base heap, L.size heap, true, tag⟩] := by
  have hfree : ∀ b ∈ bs, b.isFree = true := fun b hb => by
    have hnot := List.filter_eq_nil_iff.mp hused b hb
    simpa using hnot
  have htiles := hh.tiles
  cases bs with
  | nil =>
    have hsize := (L.size_ge heap).1
    rw [tiles_nil] at htiles
    omega
  | cons b bs =>
    cases bs with
    | nil =>
      obtain ⟨haddr, hend⟩ := htiles
      rw [tiles_nil] at hend
      have hb := hfree b List.mem_cons_self
      refine ⟨b.tag, ?_⟩
      obtain ⟨addr, size, isFree, tag⟩ := b
      dsimp only at *
      rw [haddr, hb]
      congr 2
      omega
    | cons c bs =>
      have hpair := (List.isChain_cons_cons.mp hc).1
      exact absurd ⟨hfree b List.mem_cons_self,
        hfree c (List.mem_cons_of_mem b List.mem_cons_self)⟩ hpair

/-- The head of a heap that has no blocks yet. -/
structure Empty (L : Layout) (m : Arena) (heap : Heap) : Prop where
  next : m.next (L.head heap.num) = L.head heap.num
  prev : m.prev (L.head heap.num) = L.head heap.num
  nextFree : m.nextFree (L.head heap.num) = L.head heap.num
  prevFree : m.prevFree (L.head heap.num) = L.head heap.num
  attrs : arenaTypeGet (m.attrs (L.head heap.num)) = .head

theorem Empty.frame {i : Heap} {m' : Arena} (he : Empty L m heap) (hne : heap ≠ i)
    (hf : Frame L i m m') : Empty L m' heap := by
  have hout : ¬ L.Owns i (L.head heap.num) := fun hi => L.owns_disjoint hne (Or.inl rfl) hi
  obtain ⟨-, h2, h3, h4, h5, h6⟩ := hf _ hout
  exact ⟨h3.trans he.next, h4.trans he.prev, h5.trans he.nextFree, h6.trans he.prevFree,
    h2 ▸ he.attrs⟩

theorem initHead_empty (L : Layout) (heap : Heap) (m : Arena) :
    Empty L (initHead L heap m) heap ∧ Frame L heap m (initHead L heap m) := by
  constructor
  · refine ⟨Function.update_self _ _ _, Function.update_self _ _ _, Function.update_self _ _ _,
      Function.update_self _ _ _, ?_⟩
    have hattrs : (initHead L heap m).attrs (L.head heap.num) = packAttrs 0 heap .head :=
      (Function.update_self _ _ _).trans (by
        rw [packAttrs]
        omega)
    rw [hattrs, arenaTypeGet_pack rfl]
  · intro a ha
    have hne := ne_of_owned (Or.inl rfl : L.Owns heap (L.head heap.num)) ha
    simp only [initHead, Arena.setTag, Arena.setAttrs, Arena.setNext, Arena.setPrev,
      Arena.setNextFree, Arena.setPrevFree, Function.update_of_ne hne, and_self]

/-- Injecting the region of a heap makes it the free memory of the heap. -/
theorem initHeap_holds {size : Nat} (he : Empty L m heap) (hsize : size / 16 * 16 = L.size heap) :
    ∃ m' bs fs, initHeap L heap (L.base heap) size m = some m' ∧ Frame L heap m m' ∧
      Holds L m' heap bs fs ∧ Coalesced bs ∧ used bs = [] := by
  have hregion := L.size_ge heap
  have hlt := L.region_lt heap
  have hhead := L.head_out heap heap
  have hne : L.head heap.num ≠ L.base heap := by omega
  have howns : L.Owns heap (L.base heap) := Or.inr ⟨Nat.le_refl _, by omega⟩
  -- the region as one block in use, in the ring of all blocks only
  let m₁ : Arena := { m with
    attrs := Function.update m.attrs (L.base heap) (packAttrs (L.size heap) heap .used)
    next := Function.update (Function.update m.next (L.base heap) (L.head heap.num))
      (L.head heap.num) (L.base heap)
    prev := Function.update (Function.update m.prev (L.base heap) (L.head heap.num))
      (L.head heap.num) (L.base heap) }
  have hinit : initHeap L heap (L.base heap) size m =
      some (freeBlock L m₁ (L.base heap)).2 := by
    have hattrs : arenaSizeSet (ArenaType.used.num + heap.num * 4) size =
        packAttrs (L.size heap) heap .used := by
      have hnum := heap.num_lt
      rw [arenaSizeSet, packAttrs, hsize, ArenaType.num]
      omega
    have hround : ringRounds = 2 ^ 28 - 1 + 1 := rfl
    rw [initHeap, injectFreeBlock]
    simp only [Arena.setAttrs, Function.update_self, Function.update_idem, hattrs,
      arenaHeapGet_pack hregion.2, he.next]
    rw [hround, findSuccessor, if_pos rfl]
    simp only [Arena.setNext, Arena.setPrev, he.prev, Function.update_self,
      Function.update_of_ne hne.symm]
    rfl
  have hframe₁ : Frame L heap m m₁ := by
    intro a ha
    have h1 := ne_of_owned howns ha
    have h2 := ne_of_owned (Or.inl rfl : L.Owns heap (L.head heap.num)) ha
    simp only [m₁, Function.update_of_ne h1, Function.update_of_ne h2, and_self]
  have hholds₁ : Holds L m₁ heap
      ([] ++ ⟨L.base heap, L.size heap, false, m.tag (L.base heap)⟩ :: []) [] := by
    refine ⟨?_, ?_, fun a => ?_, ?_, fun b hb => ?_, fun b hb => ?_, ⟨rfl, rfl⟩, fun b hb => ?_⟩
    · have hlink := (ring_nil.mpr ⟨he.next, he.prev⟩).assign_linkHead
        (not_or.mpr ⟨hne.symm, List.not_mem_nil⟩ ∘ List.mem_cons.mp)
      rw [he.next] at hlink
      exact hlink
    · exact ring_nil.mpr ⟨he.nextFree, he.prevFree⟩
    · simp
    · rw [← he.attrs]
      exact congrArg arenaTypeGet (Function.update_of_ne hne _ _)
    · rw [List.mem_singleton.mp hb]
      exact Function.update_self _ _ _
    · rw [List.mem_singleton.mp hb]
    · rw [List.mem_singleton.mp hb]
      exact hregion
  obtain ⟨xs, b, ys, fs, -, hfree, hframe, hholds, hc, hxs, hys, -⟩ :=
    freeBlock_holds hholds₁ rfl (List.IsChain.singleton _)
  refine ⟨_, xs ++ b :: ys, fs, hinit, hframe₁.trans hframe, hholds, hc, ?_⟩
  rw [used_append, used_cons_free hfree, hxs, hys]
  rfl

/-- `mem_init` leaves every heap without blocks in use. -/
theorem memInit_holds (L : Layout) (m : Arena) :
    ∃ m', memInit L m = some m' ∧ ∀ heap, ∃ bs fs, Holds L m' heap bs fs ∧ Coalesced bs ∧
      used bs = [] := by
  obtain ⟨hmain, -⟩ := initHead_empty L .main m
  obtain ⟨hlow, hframe⟩ := initHead_empty L .lowmem (initHead L .main m)
  have hmain' := hmain.frame (by decide) hframe
  obtain ⟨m₁, bs₁, fs₁, hinit₁, hframe₁, hholds₁, hc₁, hused₁⟩ :=
    @initHeap_holds L _ .main (2 ^ 17) hmain' rfl
  have hlow' := hlow.frame (by decide) hframe₁
  have hroom := L.lowmem_room
  have hbios := L.biosFreeMem_lt
  obtain ⟨m₂, bs₂, fs₂, hinit₂, hframe₂, hholds₂, hc₂, hused₂⟩ :=
    @initHeap_holds L _ .lowmem (u32 (L.biosFreeMem * 1024 + 2 ^ 32 - L.lowmemHeap)) hlow' (by
      rw [u32, Layout.size]
      omega)
  refine ⟨m₂, ?_, fun heap => ?_⟩
  · rw [memInit]
    exact (congrArg (Option.bind · _) hinit₁).trans hinit₂
  · cases heap with
    | main => exact ⟨bs₁, fs₁, hholds₁.frame (by decide) hframe₂, hc₁, hused₁⟩
    | lowmem => exact ⟨bs₂, fs₂, hholds₂, hc₂, hused₂⟩

end Liigboot.Mem
