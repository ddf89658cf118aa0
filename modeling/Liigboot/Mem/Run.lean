import Liigboot.Mem.Malloc
import Liigboot.Mem.Tagged

/-!
# Runs of the allocator

After `mem_init` the rest of the program allocates, releases and, in between, stores
into the blocks it has been given. In every state such a run reaches, each heap is
tiled by its blocks, and the blocks in use are those that were handed out and not
yet given back.
-/

namespace Liigboot.Mem

/-- A block that was handed out: the pointer, the bytes asked for, the heap and the tag. -/
structure Alloc where
  ptr : Nat
  size : Nat
  heap : Heap
  tag : MallocOwner
  deriving DecidableEq, Repr

/-- Memory, and what has been handed out and not given back. -/
structure System where
  arena : Arena
  live : List Alloc

/-- What the rest of the program does. -/
inductive Call
  | malloc (size : Nat)
  | lmalloc (size : Nat)
  | pmapiLmalloc (size : Nat)
  | free (ptr : Nat)
  | freeTagged (tag : MallocOwner)
  /-- A store into a block, where the links of the free ring were. -/
  | store (ptr nextFree prevFree : Nat)
  deriving DecidableEq, Repr

/-- The result of an allocation is recorded when it is not null. -/
def System.record (s : System) (r : Nat × Arena) (size : Nat) (heap : Heap) (tag : MallocOwner) :
    System :=
  ⟨r.2, if r.1 = 0 then s.live else ⟨r.1, size, heap, tag⟩ :: s.live⟩

/-- One call; `none` when a loop over a ring does not end. -/
def System.call (L : Layout) (s : System) : Call → Option System
  | .malloc size => (malloc L s.arena size).map fun r => s.record r size .main .core
  | .lmalloc size => (lmalloc L s.arena size).map fun r => s.record r size .lowmem .core
  | .pmapiLmalloc size => (pmapiLmalloc L s.arena size).map fun r => s.record r size .lowmem .module
  | .free ptr => some ⟨free L s.arena ptr, s.live.filter (·.ptr ≠ ptr)⟩
  | .freeTagged tag =>
    (freeTagged L s.arena tag).map fun m => ⟨m, s.live.filter (·.tag ≠ tag)⟩
  | .store ptr nextFree prevFree =>
    some ⟨(s.arena.setNextFree (ptr - 16) nextFree).setPrevFree (ptr - 16) prevFree, s.live⟩

/-- The calls the program may make: requests whose rounding does not wrap around, and pointers
that are live. -/
def System.Valid (s : System) : Call → Prop
  | .malloc size | .lmalloc size | .pmapiLmalloc size => size < 2 ^ 32 - 32
  | .free ptr => ptr = 0 ∨ ∃ a ∈ s.live, a.ptr = ptr
  | .freeTagged _ => True
  | .store ptr _ _ => ∃ a ∈ s.live, a.ptr = ptr

/-- The states of the runs that start with `mem_init`. -/
inductive Reachable (L : Layout) : System → Prop
  | init {m m' : Arena} : memInit L m = some m' → Reachable L ⟨m', []⟩
  | call {s s' : System} {c : Call} :
      Reachable L s → s.Valid c → s.call L c = some s' → Reachable L s'

/-! ## The invariant -/

/-- Memory holds the blocks, and the blocks in use are the live ones. -/
structure Inv (L : Layout) (s : System) (bs : Heap → List Block) : Prop where
  holds : ∀ heap, ∃ fs, Holds L s.arena heap (bs heap) fs
  coalesced : ∀ heap, Coalesced (bs heap)
  sound : ∀ a ∈ s.live, ∃ b ∈ used (bs a.heap), a.ptr = b.addr + 16 ∧ a.size + 16 ≤ b.size ∧
    b.tag = a.tag
  complete : ∀ heap, ∀ b ∈ used (bs heap), ∃ a ∈ s.live, a.heap = heap ∧ a.ptr = b.addr + 16
  nodup : (s.live.map Alloc.ptr).Nodup

variable {L : Layout} {s : System} {bs : Heap → List Block}

/-- Blocks that share an address are the same block of the same heap. -/
theorem Inv.block_unique (hi : Inv L s bs) {i j : Heap} {b c : Block} (hb : b ∈ bs i)
    (hc : c ∈ bs j) (heq : b.addr = c.addr) : i = j ∧ b = c := by
  obtain ⟨fs, hholds⟩ := hi.holds i
  obtain ⟨fs', hholds'⟩ := hi.holds j
  have hij : i = j := by
    by_contra hne
    exact L.owns_disjoint hne (hholds.owns_block hb) (heq ▸ hholds'.owns_block hc)
  subst hij
  exact ⟨rfl, hholds.tiles.eq_of_addr
    (fun b hb => Nat.lt_of_lt_of_le (by decide) (hholds.sizes b hb).1) hb hc heq⟩

/-- The block of a live pointer. -/
theorem Inv.block_of_live (hi : Inv L s bs) {a : Alloc} (ha : a ∈ s.live) {i : Heap} {b : Block}
    (hb : b ∈ used (bs i)) (heq : a.ptr = b.addr + 16) :
    a.heap = i ∧ a.size + 16 ≤ b.size ∧ b.tag = a.tag := by
  obtain ⟨c, hc, hptr, hsize, htag⟩ := hi.sound a ha
  obtain ⟨hheap, rfl⟩ := hi.block_unique (mem_used.mp hc).1 (mem_used.mp hb).1 (by omega)
  exact ⟨hheap, hsize, htag⟩

/-- After a call that edits one heap the other one holds what it held. -/
theorem Inv.holds_update (hi : Inv L s bs) {i : Heap} {m' : Arena} {bs' : List Block}
    {fs' : List Nat} (hf : Frame L i s.arena m') (hh : Holds L m' i bs' fs') (heap : Heap) :
    ∃ fs, Holds L m' heap (Function.update bs i bs' heap) fs := by
  by_cases heq : heap = i
  · subst heq
    rw [Function.update_self]
    exact ⟨fs', hh⟩
  · obtain ⟨fs, hholds⟩ := hi.holds heap
    rw [Function.update_of_ne heq]
    exact ⟨fs, hholds.frame heq hf⟩

private theorem coalesced_update (hc : ∀ heap, Coalesced (bs heap)) {i : Heap} {bs' : List Block}
    (hc' : Coalesced bs') (heap : Heap) : Coalesced (Function.update bs i bs' heap) := by
  by_cases heq : heap = i
  · subst heq
    rw [Function.update_self]
    exact hc'
  · rw [Function.update_of_ne heq]
    exact hc heap

/-! ## One call -/

/-- An allocation adds its block to the live ones. -/
theorem Inv.malloc (hi : Inv L s bs) {size : Nat} (hsize : size < 2 ^ 32 - 32) (heap : Heap)
    (tag : MallocOwner) :
    ∃ r bs', mallocTagged L s.arena size heap tag = some r ∧
      Inv L (s.record r size heap tag) bs' := by
  obtain ⟨fs, hholds⟩ := hi.holds heap
  obtain ⟨ptr, m', hmalloc, hframe, hcase⟩ :=
    mallocTagged_holds hholds (hi.coalesced heap) (by omega : size + 31 < 2 ^ 32) tag
  refine ⟨(ptr, m'), ?_⟩
  rcases hcase with ⟨rfl, rfl⟩ | ⟨bs', fs', us, b, ws, hholds', hc', hold, hnew, rfl, hfit, htag⟩
  · exact ⟨bs, hmalloc, hi⟩
  · have hb : b ∈ bs' := (mem_used.mp (hnew ▸ List.mem_append_right us List.mem_cons_self)).1
    have hholdsAll := hi.holds_update hframe hholds'
    -- no live pointer points to the new block
    have hfresh : ∀ i, ∀ c ∈ used (bs i), c.addr ≠ b.addr := by
      intro i c hc heq
      by_cases hii : i = heap
      · subst hii
        have hmem : c ∈ us ++ ws := hold ▸ hc
        have hnd := hholds'.nodup_used
        rw [hnew, List.map_append, List.map_cons] at hnd
        have hout := (List.nodup_cons.mp (List.nodup_middle.mp hnd)).1
        rw [← List.map_append] at hout
        exact hout (heq ▸ List.mem_map_of_mem hmem)
      · obtain ⟨fs'', hother⟩ := hi.holds i
        exact L.owns_disjoint hii (hother.owns_block (mem_used.mp hc).1)
          (heq ▸ hholds'.owns_block hb)
    refine ⟨Function.update bs heap bs', hmalloc, hholdsAll, coalesced_update hi.coalesced hc',
      ?_, ?_, ?_⟩
    all_goals rw [System.record, if_neg (Nat.succ_ne_zero _)]
    · intro a ha
      rcases List.mem_cons.mp ha with rfl | ha
      · refine ⟨b, ?_, rfl, hfit, htag⟩
        rw [Function.update_self, hnew]
        exact List.mem_append_right us List.mem_cons_self
      · obtain ⟨c, hc, hprops⟩ := hi.sound a ha
        refine ⟨c, ?_, hprops⟩
        by_cases hheap : a.heap = heap
        · rw [hheap] at hc ⊢
          rw [Function.update_self, hnew]
          rw [hold] at hc
          exact ((List.sublist_cons_self b ws).append_left us).subset hc
        · rwa [Function.update_of_ne hheap]
    · intro i c hc
      by_cases hii : i = heap
      · subst hii
        rw [Function.update_self, hnew] at hc
        rcases List.mem_cons.mp (List.perm_middle.mem_iff.mp hc) with rfl | hc
        · exact ⟨_, List.mem_cons_self, rfl, rfl⟩
        · obtain ⟨a, ha, hprops⟩ := hi.complete i c (hold ▸ hc)
          exact ⟨a, List.mem_cons_of_mem _ ha, hprops⟩
      · rw [Function.update_of_ne hii] at hc
        obtain ⟨a, ha, hprops⟩ := hi.complete i c hc
        exact ⟨a, List.mem_cons_of_mem _ ha, hprops⟩
    · rw [List.map_cons, List.nodup_cons]
      refine ⟨fun hmem => ?_, hi.nodup⟩
      obtain ⟨a, ha, hptr⟩ := List.mem_map.mp hmem
      obtain ⟨c, hc, hcptr, -⟩ := hi.sound a ha
      exact hfresh _ c hc (by dsimp only at hptr; omega)

/-- Giving a block back takes it out of the live ones. -/
theorem Inv.free (hi : Inv L s bs) {a : Alloc} (ha : a ∈ s.live) :
    ∃ bs', Inv L ⟨free L s.arena a.ptr, s.live.filter (·.ptr ≠ a.ptr)⟩ bs' := by
  obtain ⟨b, hb, hptr, -, -⟩ := hi.sound a ha
  obtain ⟨hbmem, hbused⟩ := mem_used.mp hb
  obtain ⟨fs, hholds⟩ := hi.holds a.heap
  obtain ⟨xs, ys, hsplit⟩ := List.append_of_mem hbmem
  have hregion := hholds.mem_region hbmem
  have hlt := L.region_lt a.heap
  have hfree : Mem.free L s.arena a.ptr = (freeBlock L s.arena b.addr).2 := by
    have haddr : u32 (a.ptr + 2 ^ 32 - 16) = b.addr := by
      rw [u32]
      omega
    rw [Mem.free, if_neg (by omega), haddr]
  have hc := hi.coalesced a.heap
  rw [hsplit] at hholds hc
  obtain ⟨xs', b', ys', fs', -, hfree', hframe, hholds', hc', hxs, hys, -⟩ :=
    freeBlock_holds hholds hbused hc
  rw [hfree]
  have hused : used (xs' ++ b' :: ys') = used xs ++ used ys := by
    rw [used_append, used_cons_free hfree', hxs, hys]
  have hold : used (bs a.heap) = used xs ++ b :: used ys := by
    rw [hsplit, used_append, used_cons_used hbused]
  refine ⟨Function.update bs a.heap (xs' ++ b' :: ys'), hi.holds_update hframe hholds',
    coalesced_update hi.coalesced hc', fun a' ha' => ?_, fun i c hc => ?_, ?_⟩
  · obtain ⟨ha', hne⟩ := List.mem_filter.mp ha'
    obtain ⟨c, hc, hprops⟩ := hi.sound a' ha'
    refine ⟨c, ?_, hprops⟩
    by_cases hheap : a'.heap = a.heap
    · rw [hheap] at hc ⊢
      rw [Function.update_self, hused]
      rw [hold] at hc
      rcases List.mem_cons.mp (List.perm_middle.mem_iff.mp hc) with rfl | hc
      · exact absurd (hprops.1.trans hptr.symm) (of_decide_eq_true hne)
      · exact hc
    · rwa [Function.update_of_ne hheap]
  · have hmem : c ∈ used (bs i) ∧ c.addr ≠ b.addr := by
      by_cases hii : i = a.heap
      · subst hii
        rw [Function.update_self, hused] at hc
        rw [hold]
        refine ⟨((List.sublist_cons_self b _).append_left _).subset hc, fun heq => ?_⟩
        rw [← hsplit] at hholds
        have hnd := hholds.nodup_used
        rw [hold, List.map_append, List.map_cons] at hnd
        have hout := (List.nodup_cons.mp (List.nodup_middle.mp hnd)).1
        rw [← List.map_append] at hout
        exact hout (heq ▸ List.mem_map_of_mem hc)
      · rw [Function.update_of_ne hii] at hc
        exact ⟨hc, fun heq => hii (hi.block_unique (mem_used.mp hc).1 hbmem heq).1⟩
    obtain ⟨a', ha', hheap, hptr'⟩ := hi.complete i c hmem.1
    refine ⟨a', List.mem_filter.mpr ⟨ha', decide_eq_true fun heq => hmem.2 ?_⟩, hheap, hptr'⟩
    omega
  · exact hi.nodup.sublist (List.filter_sublist.map Alloc.ptr)

/-- Releasing by tag takes the blocks with the tag out of the live ones. -/
theorem Inv.freeTagged (hi : Inv L s bs) (tag : MallocOwner) :
    ∃ m' bs', freeTagged L s.arena tag = some m' ∧
      Inv L ⟨m', s.live.filter (·.tag ≠ tag)⟩ bs' := by
  obtain ⟨fs₀, hholds₀⟩ := hi.holds .main
  obtain ⟨fs₁, hholds₁⟩ := hi.holds .lowmem
  have hnext : ∀ {m : Arena} {heap : Heap} {cs : List Block} {fs : List Nat},
      Holds L m heap cs fs →
        m.next (L.head heap.num) = (cs.map Block.addr).headD (L.head heap.num) :=
    fun hh => hh.ring.seg.next_eq
  obtain ⟨m₁, cs₀, gs₀, hloop₀, hframe₀, hh₀, hc₀, hused₀⟩ :=
    @freeTaggedFrom_holds L .main tag ringRounds _ [] _ _ hholds₀ (hi.coalesced .main)
      (Nat.lt_of_succ_lt hholds₀.length_lt)
  have hholds₁' := hholds₁.frame (by decide) hframe₀
  obtain ⟨m₂, cs₁, gs₁, hloop₁, hframe₁, hh₁, hc₁, hused₁⟩ :=
    @freeTaggedFrom_holds L .lowmem tag ringRounds _ [] _ _ hholds₁' (hi.coalesced .lowmem)
      (Nat.lt_of_succ_lt hholds₁'.length_lt)
  rw [← hnext hholds₀] at hloop₀
  rw [← hnext hholds₁'] at hloop₁
  -- both heaps afterwards, by one description
  let bs' : Heap → List Block := fun heap => if heap = .main then cs₀ else cs₁
  have hused : ∀ heap, used (bs' heap) = (used (bs heap)).filter (·.tag ≠ tag) := by
    intro heap
    cases heap
    · exact hused₀
    · exact hused₁
  refine ⟨m₂, bs', ?_, fun heap => ?_, fun heap => ?_, fun a ha => ?_, fun heap b hb => ?_, ?_⟩
  · rw [Mem.freeTagged]
    exact (congrArg (Option.bind · _) hloop₀).trans hloop₁
  · cases heap
    · exact ⟨gs₀, hh₀.frame (by decide) hframe₁⟩
    · exact ⟨gs₁, hh₁⟩
  · cases heap
    · exact hc₀
    · exact hc₁
  · obtain ⟨ha, hne⟩ := List.mem_filter.mp ha
    obtain ⟨b, hb, hptr, hsize, htag⟩ := hi.sound a ha
    refine ⟨b, ?_, hptr, hsize, htag⟩
    rw [hused]
    exact List.mem_filter.mpr ⟨hb, by rw [htag]; exact hne⟩
  · rw [hused] at hb
    obtain ⟨hb, hne⟩ := List.mem_filter.mp hb
    obtain ⟨a, ha, hheap, hptr⟩ := hi.complete heap b hb
    obtain ⟨-, -, htag⟩ := hi.block_of_live ha hb hptr
    exact ⟨a, List.mem_filter.mpr ⟨ha, by rw [← htag]; exact hne⟩, hheap, hptr⟩
  · exact hi.nodup.sublist (List.filter_sublist.map Alloc.ptr)

/-- Stores into live blocks do not reach the headers that the rings use. -/
theorem Inv.store (hi : Inv L s bs) {a : Alloc} (ha : a ∈ s.live) (nextFree prevFree : Nat) :
    Inv L ⟨(s.arena.setNextFree (a.ptr - 16) nextFree).setPrevFree (a.ptr - 16) prevFree, s.live⟩
      bs := by
  obtain ⟨b, hb, hptr, -, -⟩ := hi.sound a ha
  obtain ⟨hbmem, hbused⟩ := mem_used.mp hb
  have haddr : a.ptr - 16 = b.addr := by omega
  refine { hi with holds := fun heap => ?_ }
  obtain ⟨fs, hholds⟩ := hi.holds heap
  have hout : ∀ z ∈ L.head heap.num :: fs, z ≠ a.ptr - 16 := by
    rintro z hz rfl
    rw [haddr] at hz
    rcases List.mem_cons.mp hz with heq | hz
    · obtain ⟨fs', hother⟩ := hi.holds a.heap
      have hin := hother.mem_region hbmem
      have hhead := L.head_out heap a.heap
      have hsize := (hother.sizes b hbmem).1
      omega
    · obtain ⟨c, hc, hfree, heq⟩ := (hholds.mem_free _).mp hz
      obtain ⟨-, rfl⟩ := hi.block_unique hc hbmem heq
      rw [hfree] at hbused
      cases hbused
  refine ⟨fs, { hholds with freeRing := hholds.freeRing.congr (fun z hz => ?_) fun z hz => ?_ }⟩
  · exact Function.update_of_ne (hout z hz) _ _
  · exact Function.update_of_ne (hout z hz) _ _

/-! ## Runs -/

theorem Inv.call (hi : Inv L s bs) {c : Call} (hv : s.Valid c) :
    ∃ s' bs', s.call L c = some s' ∧ Inv L s' bs' := by
  cases c with
  | malloc size =>
    obtain ⟨r, bs', hmalloc, hi'⟩ := hi.malloc hv .main .core
    exact ⟨_, bs', congrArg (Option.map _) hmalloc, hi'⟩
  | lmalloc size =>
    obtain ⟨r, bs', hmalloc, hi'⟩ := hi.malloc hv .lowmem .core
    exact ⟨_, bs', congrArg (Option.map _) hmalloc, hi'⟩
  | pmapiLmalloc size =>
    obtain ⟨r, bs', hmalloc, hi'⟩ := hi.malloc hv .lowmem .module
    exact ⟨_, bs', congrArg (Option.map _) hmalloc, hi'⟩
  | free ptr =>
    rcases hv with rfl | ⟨a, ha, rfl⟩
    · -- `free(NULL)` does nothing, and no live pointer is null
      have hall : s.live.filter (·.ptr ≠ 0) = s.live := by
        rw [List.filter_eq_self]
        intro a ha
        obtain ⟨b, -, hptr, -⟩ := hi.sound a ha
        exact decide_eq_true (by omega)
      refine ⟨s, bs, ?_, hi⟩
      rw [System.call, hall, Mem.free, if_pos rfl]
    · obtain ⟨bs', hi'⟩ := hi.free ha
      exact ⟨_, bs', rfl, hi'⟩
  | freeTagged tag =>
    obtain ⟨m', bs', hfree, hi'⟩ := hi.freeTagged tag
    exact ⟨_, bs', congrArg (Option.map _) hfree, hi'⟩
  | store ptr nextFree prevFree =>
    obtain ⟨a, ha, rfl⟩ := hv
    exact ⟨_, bs, rfl, hi.store ha nextFree prevFree⟩

theorem Reachable.inv (hr : Reachable L s) : ∃ bs, Inv L s bs := by
  induction hr with
  | @init m m' hinit =>
    obtain ⟨m'', hinit', hheaps⟩ := memInit_holds L m
    obtain rfl : m'' = m' := Option.some.inj (hinit'.symm.trans hinit)
    choose bs fs hholds hc hused using hheaps
    refine ⟨bs, fun heap => ⟨fs heap, hholds heap⟩, hc, fun a ha => (nomatch ha), ?_,
      List.nodup_nil⟩
    intro heap b hb
    rw [hused heap] at hb
    cases hb
  | @call s s' c _ hv hcall ih =>
    obtain ⟨bs, hi⟩ := ih
    obtain ⟨s'', bs', hcall', hi'⟩ := hi.call hv
    obtain rfl : s'' = s' := Option.some.inj (hcall'.symm.trans hcall)
    exact ⟨bs', hi'⟩

/-- The state of the heaps: blocks in address order tile each region, the free ring holds the
free ones, no two neighbours are free, what is live is apart and large enough, and without
live blocks each region is one free block. -/
structure Sound (L : Layout) (s : System) : Prop where
  heaps : ∀ heap, ∃ bs fs, Holds L s.arena heap bs fs ∧ Coalesced bs ∧
    ∀ b ∈ bs, b.isFree = false ↔ ∃ a ∈ s.live, a.heap = heap ∧ a.ptr = b.addr + 16
  large : ∀ a ∈ s.live, arenaTypeGet (s.arena.attrs (a.ptr - 16)) = .used ∧
    a.size + 16 ≤ arenaSizeGet (s.arena.attrs (a.ptr - 16))
  apart : s.live.Pairwise fun a b => a.ptr + a.size ≤ b.ptr ∨ b.ptr + b.size ≤ a.ptr
  whole : s.live = [] → ∀ heap, ∃ tag,
    Holds L s.arena heap [⟨L.base heap, L.size heap, true, tag⟩] [L.base heap]

/-- Two blocks that were handed out do not overlap. -/
private theorem Inv.apart (hi : Inv L s bs) {a b : Alloc} (ha : a ∈ s.live) (hb : b ∈ s.live)
    (hne : a.ptr ≠ b.ptr) : a.ptr + a.size ≤ b.ptr ∨ b.ptr + b.size ≤ a.ptr := by
  obtain ⟨c, hc, hcptr, hcsize, -⟩ := hi.sound a ha
  obtain ⟨d, hd, hdptr, hdsize, -⟩ := hi.sound b hb
  obtain ⟨fs, hholds⟩ := hi.holds a.heap
  obtain ⟨fs', hholds'⟩ := hi.holds b.heap
  have hcmem := (mem_used.mp hc).1
  have hdmem := (mem_used.mp hd).1
  by_cases hheap : a.heap = b.heap
  · rw [hheap] at hcmem
    have hnot : ¬ (c.addr < d.addr ∧ d.addr < c.addr + c.size) := fun hin =>
      hholds'.tiles.inside_notMem hcmem hin.1 hin.2 (List.mem_map_of_mem hdmem)
    have hnot' : ¬ (d.addr < c.addr ∧ c.addr < d.addr + d.size) := fun hin =>
      hholds'.tiles.inside_notMem hdmem hin.1 hin.2 (List.mem_map_of_mem hcmem)
    omega
  · have hc := hholds.mem_region hcmem
    have hd := hholds'.mem_region hdmem
    have hregions := L.regions_apart hheap
    omega

theorem Inv.toSound (hi : Inv L s bs) : Sound L s := by
  refine ⟨fun heap => ?_, fun a ha => ?_, ?_, fun hnil heap => ?_⟩
  · obtain ⟨fs, hholds⟩ := hi.holds heap
    refine ⟨bs heap, fs, hholds, hi.coalesced heap, fun b hb => ⟨fun hused => ?_, ?_⟩⟩
    · exact hi.complete heap b (mem_used.mpr ⟨hb, hused⟩)
    · rintro ⟨a, ha, rfl, hptr⟩
      obtain ⟨c, hc, hcptr, -⟩ := hi.sound a ha
      obtain ⟨-, rfl⟩ := hi.block_unique (mem_used.mp hc).1 hb (by omega)
      exact (mem_used.mp hc).2
  · obtain ⟨b, hb, hptr, hsize, -⟩ := hi.sound a ha
    obtain ⟨hbmem, hused⟩ := mem_used.mp hb
    obtain ⟨fs, hholds⟩ := hi.holds a.heap
    have haddr : a.ptr - 16 = b.addr := by omega
    have hmod := (hholds.sizes b hbmem).2
    rw [haddr, hholds.attrs b hbmem, Block.attrs, arenaTypeGet_pack hmod, arenaSizeGet_pack hmod,
      Block.type, hused]
    exact ⟨rfl, hsize⟩
  · have hnd := hi.nodup
    rw [List.nodup_iff_pairwise_ne, List.pairwise_map] at hnd
    exact hnd.imp_of_mem fun ha hb hne => hi.apart ha hb hne
  · obtain ⟨fs, hholds⟩ := hi.holds heap
    have hused : used (bs heap) = [] := by
      rw [List.eq_nil_iff_forall_not_mem]
      intro b hb
      obtain ⟨a, ha, -⟩ := hi.complete heap b hb
      rw [hnil] at ha
      cases ha
    obtain ⟨tag, hone⟩ := whole_of_used_nil hholds (hi.coalesced heap) hused
    rw [hone] at hholds
    have hfs : fs = [L.base heap] := by
      have hmem : ∀ a, a ∈ fs ↔ a = L.base heap := fun a => by
        rw [hholds.mem_free a]
        simp only [List.mem_singleton, exists_eq_left, true_and, eq_comm]
      have hperm : fs.Perm [L.base heap] := by
        rw [List.perm_ext_iff_of_nodup (List.nodup_cons.mp hholds.freeRing.nodup).2
          (List.nodup_singleton _)]
        intro a
        rw [hmem a, List.mem_singleton]
      exact List.perm_singleton.mp hperm
    exact ⟨tag, hfs ▸ hholds⟩

/-- In every state that a run reaches the heaps are sound, and every valid call returns. -/
theorem allocator_sound (hr : Reachable L s) :
    Sound L s ∧ ∀ c, s.Valid c → ∃ s', s.call L c = some s' := by
  obtain ⟨bs, hi⟩ := hr.inv
  refine ⟨hi.toSound, fun c hv => ?_⟩
  obtain ⟨s', -, hcall, -⟩ := hi.call hv
  exact ⟨s', hcall⟩

/-- Heads below the main heap, and low memory of 639 kilobytes. -/
def sampleLayout : Layout where
  mallocHead := 0x108000
  mainHeap := 0x110000
  lowmemHeap := 0x9000
  biosFreeMem := 639
  biosFreeMem_lt := by decide
  mallocHead_lt := by decide
  mainHeap_lt := by decide
  lowmem_room := by decide
  head_main := by decide
  head_lowmem := by decide
  main_lowmem := by decide

/-- Memory before `mem_init`. -/
def clearMemory : Arena :=
  ⟨fun _ => .free, fun _ => 0, fun _ => 0, fun _ => 0, fun _ => 0, fun _ => 0⟩

/-- Two allocations, one on each heap. -/
theorem allocator_sound_twoCalls :
    ∃ s, s.live.map Alloc.size = [40, 100] ∧ Sound sampleLayout s := by
  have hrun : ((memInit sampleLayout clearMemory).bind fun m =>
      (System.call sampleLayout ⟨m, []⟩ (.malloc 100)).bind fun s =>
        s.call sampleLayout (.lmalloc 40)).map (fun s => s.live.map Alloc.size) =
          some [40, 100] := by
    decide +kernel
  obtain ⟨s, hs, hlive⟩ := Option.map_eq_some_iff.mp hrun
  obtain ⟨m, hm, hs⟩ := Option.bind_eq_some_iff.mp hs
  obtain ⟨s₁, hs₁, hs⟩ := Option.bind_eq_some_iff.mp hs
  have hv₁ : System.Valid ⟨m, []⟩ (.malloc 100) := (by decide : 100 < 2 ^ 32 - 32)
  have hv : s₁.Valid (.lmalloc 40) := (by decide : 40 < 2 ^ 32 - 32)
  have hr : Reachable sampleLayout s := ((Reachable.init hm).call hv₁ hs₁).call hv hs
  exact ⟨s, hlive, (allocator_sound hr).1⟩

end Liigboot.Mem
