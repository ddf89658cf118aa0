import Liigboot.Fs.Btrfs.Walk

/-!
# Where a search of a btrfs tree ends

When the key of each pointer is the first one below it, a search from the root ends at the last
item that is not behind the key, or at the first item of the tree when all are behind it. The item
has the key if and only if the search says so.
-/

namespace Liigboot.Fs.Btrfs

variable {disk : BtrfsDisk} {key : BtrfsDiskKey} {depth level loffset root : Nat}
  {path path' : BtrfsPath}

/-- The key of a pointer is the first one in the block it points to. -/
def ExactKeys (disk : BtrfsDisk) : Nat → Nat → Prop
  | 0, _ => True
  | level + 1, loffset => ∀ i < entries disk loffset,
    (disk loffset).key i = (disk (childOf disk loffset i)).key 0 ∧
      ExactKeys disk level (childOf disk loffset i)

/-! ## The items below a block -/

/-- A visit below a node is the visit below its child with the slot put in front. -/
theorem visitAt_cons {p : List Nat} (hp : p ≠ []) (i : Nat) :
    visitAt disk loffset (i :: p) =
      { visitAt disk (childOf disk loffset i) p with slots := i :: p } := by
  cases p with
  | nil => exact absurd rfl hp
  | cons j p => rfl

theorem mem_allVisits_zero {v : Visit} :
    v ∈ allVisits disk 0 loffset ↔ ∃ i < entries disk loffset, visitAt disk loffset [i] = v := by
  rw [allVisits, List.mem_map]
  constructor
  · rintro ⟨p, hp, rfl⟩
    obtain ⟨i, hi, rfl⟩ := mem_paths_zero.mp hp
    exact ⟨i, hi, rfl⟩
  · rintro ⟨i, hi, rfl⟩
    exact ⟨[i], mem_paths_zero.mpr ⟨i, hi, rfl⟩, rfl⟩

/-- The items below a node are those below its children, with one more slot. -/
theorem allVisits_succ : allVisits disk (level + 1) loffset =
    (List.range' 0 (entries disk loffset)).flatMap fun i =>
      (allVisits disk level (childOf disk loffset i)).map fun v =>
        { v with slots := i :: v.slots } := by
  rw [allVisits, paths, List.map_flatMap]
  refine List.flatMap_congr fun i hi => ?_
  rw [allVisits, List.map_map, List.map_map]
  refine List.map_congr_left fun p hp => ?_
  exact visitAt_cons (ne_nil_of_mem_paths hp) i

/-- The visits of a node are those of its children. -/
theorem mem_allVisits_succ {v : Visit} :
    v ∈ allVisits disk (level + 1) loffset ↔ ∃ i < entries disk loffset,
      ∃ w ∈ allVisits disk level (childOf disk loffset i),
        { w with slots := i :: w.slots } = v := by
  simp only [allVisits_succ, List.mem_flatMap, List.mem_map, List.mem_range'_1, Nat.zero_le,
    true_and, Nat.zero_add]

/-- The items below a block are not in front of its first key. -/
theorem first_le_of_mem (hwf : WellFormed disk level loffset) {v : Visit}
    (hv : v ∈ allVisits disk level loffset) :
    ((disk loffset).key 0).rank ≤ v.item.key.rank := by
  have hfirst : ∀ i < entries disk loffset,
      ((disk loffset).key 0).rank ≤ ((disk loffset).key i).rank := by
    intro i hi
    rcases Nat.eq_zero_or_pos i with rfl | hpos
    · exact le_rfl
    · exact (hwf.sorted.lt 0 i hpos hi).le
  induction level generalizing loffset v with
  | zero =>
    obtain ⟨i, hi, rfl⟩ := mem_allVisits_zero.mp hv
    have hle := hfirst i hi
    rw [Block.key, Block.key, if_pos hwf.level_eq, if_pos hwf.level_eq] at hle
    rw [Block.key, if_pos hwf.level_eq]
    exact hle
  | succ level ih =>
    obtain ⟨i, hi, w, hw, rfl⟩ := mem_allVisits_succ.mp hv
    obtain ⟨hchild, hbound⟩ := hwf.2 i hi
    have hbelow := ih hchild hw fun j hj => by
      rcases Nat.eq_zero_or_pos j with rfl | hpos
      · exact le_rfl
      · exact (hchild.sorted.lt 0 j hpos hj).le
    exact (hfirst i hi).trans ((hbound 0 hchild.sorted.pos).trans hbelow)

/-- The items below a node are sorted below each child, and from child to child. -/
theorem pairwise_allVisits_succ
    (h : (allVisits disk (level + 1) loffset).Pairwise
      fun v w => v.item.key.rank < w.item.key.rank) :
    (∀ i < entries disk loffset, (allVisits disk level (childOf disk loffset i)).Pairwise
      fun v w => v.item.key.rank < w.item.key.rank) ∧
    ∀ i j, i < j → j < entries disk loffset →
      ∀ v ∈ allVisits disk level (childOf disk loffset i),
      ∀ w ∈ allVisits disk level (childOf disk loffset j),
        v.item.key.rank < w.item.key.rank := by
  rw [allVisits_succ, List.pairwise_flatMap] at h
  obtain ⟨hwithin, hacross⟩ := h
  constructor
  · intro i hi
    have hchild := hwithin i (List.mem_range'_1.mpr ⟨Nat.zero_le i, by omega⟩)
    rw [List.pairwise_map] at hchild
    exact hchild
  · intro i j hlt hj v hv w hw
    have hij := List.pairwise_iff_getElem.mp hacross i j
      (by rw [List.length_range']; omega) (by rw [List.length_range']; omega) hlt
    rw [List.getElem_range', List.getElem_range', Nat.zero_add, Nat.one_mul, Nat.zero_add,
      Nat.one_mul] at hij
    exact hij { v with slots := i :: v.slots } (List.mem_map_of_mem hv)
      { w with slots := j :: w.slots } (List.mem_map_of_mem hw)

/-! ## The item of a search -/

theorem startSlots_ne_nil : startSlots disk key level loffset ≠ [] := by
  cases level with
  | zero => exact List.cons_ne_nil _ _
  | succ level => exact List.cons_ne_nil _ _

/-- The item that a search from a block ends at. -/
def startVisit (disk : BtrfsDisk) (key : BtrfsDiskKey) (level loffset : Nat) : Visit :=
  visitAt disk loffset (startSlots disk key level loffset)

/-- The slot that a search takes in a block. -/
def startSlot (disk : BtrfsDisk) (key : BtrfsDiskKey) (loffset : Nat) : Nat :=
  Nat.findGreatest (fun i => ((disk loffset).key i).rank ≤ key.rank) (entries disk loffset - 1)

theorem startVisit_zero (h : (disk loffset).level = 0) :
    (startVisit disk key 0 loffset).item.key =
      (disk loffset).key (startSlot disk key loffset) := by
  rw [Block.key, if_pos h]
  rfl

/-- In a node the search lands where it does in the child of the start slot. -/
theorem startVisit_succ : (startVisit disk key (level + 1) loffset).item =
    (startVisit disk key level (childOf disk loffset (startSlot disk key loffset))).item := by
  rw [startVisit, startSlots, visitAt_cons startSlots_ne_nil]
  rfl

/-- The start slot is a slot of the block. -/
theorem startSlot_lt (hsorted : (disk loffset).Sorted level) :
    startSlot disk key loffset < entries disk loffset :=
  Nat.lt_of_le_of_lt (Nat.findGreatest_le _) (Nat.sub_lt hsorted.pos Nat.one_pos)

/-- The key of the start slot is not above the one that is searched. -/
theorem startSlot_le (h : ((disk loffset).key 0).rank ≤ key.rank) :
    ((disk loffset).key (startSlot disk key loffset)).rank ≤ key.rank :=
  Nat.findGreatest_spec (P := fun i => ((disk loffset).key i).rank ≤ key.rank) (Nat.zero_le _) h

/-- The start slot is the last one whose key is not above the one that is searched. -/
theorem le_startSlot {i : Nat} (hi : i < entries disk loffset)
    (h : ((disk loffset).key i).rank ≤ key.rank) : i ≤ startSlot disk key loffset :=
  Nat.le_findGreatest (Nat.le_sub_one_of_lt hi) h

/-- The slots of a search are a path of the tree. -/
theorem startSlots_mem (hwf : WellFormed disk level loffset) :
    startSlots disk key level loffset ∈ paths (entries disk) (childOf disk) level loffset := by
  induction level generalizing loffset with
  | zero => exact mem_paths_zero.mpr ⟨_, startSlot_lt hwf.sorted, rfl⟩
  | succ level ih =>
    have hlt := @startSlot_lt disk key _ loffset hwf.sorted
    exact mem_paths_succ.mpr ⟨_, hlt, _, ih (hwf.2 _ hlt).1, rfl⟩

/-- A search ends at an item that is not behind the key, where there is one. -/
theorem startVisit_le (hwf : WellFormed disk level loffset)
    (hexact : ExactKeys disk level loffset) (h : ((disk loffset).key 0).rank ≤ key.rank) :
    (startVisit disk key level loffset).item.key.rank ≤ key.rank := by
  induction level generalizing loffset with
  | zero =>
    rw [startVisit_zero hwf.level_eq]
    exact startSlot_le h
  | succ level ih =>
    have hlt := @startSlot_lt disk key _ loffset hwf.sorted
    obtain ⟨hkey, hbelow⟩ := hexact _ hlt
    rw [startVisit_succ]
    refine ih (hwf.2 _ hlt).1 hbelow ?_
    rw [← hkey]
    exact startSlot_le h

/-- Where all is behind the key, a search ends at the first item. -/
theorem startVisit_first (hwf : WellFormed disk level loffset)
    (hexact : ExactKeys disk level loffset) (h : key.rank < ((disk loffset).key 0).rank) :
    (startVisit disk key level loffset).item.key = (disk loffset).key 0 := by
  have hslot : ∀ {level loffset}, (disk loffset).Sorted level →
      key.rank < ((disk loffset).key 0).rank → startSlot disk key loffset = 0 := by
    intro level loffset hsorted h
    refine Nat.findGreatest_eq_zero_iff.mpr fun i hpos hi => Nat.not_le.mpr (h.trans ?_)
    have hn := hsorted.pos
    exact hsorted.lt 0 i hpos (by change i ≤ (disk loffset).nritems - 1 at hi; omega)
  induction level generalizing loffset with
  | zero => rw [startVisit_zero hwf.level_eq, hslot hwf.sorted h]
  | succ level ih =>
    obtain ⟨hkey, hbelow⟩ := hexact 0 hwf.sorted.pos
    rw [startVisit_succ, hslot hwf.sorted h, hkey]
    rw [hkey] at h
    exact ih (hwf.2 0 hwf.sorted.pos).1 hbelow h

/-- No item that is not behind the key is behind the one that a search ends at. -/
theorem le_startVisit (hwf : WellFormed disk level loffset)
    (hsorted : (allVisits disk level loffset).Pairwise
      fun v w => v.item.key.rank < w.item.key.rank)
    {v : Visit} (hv : v ∈ allVisits disk level loffset) (hle : v.item.key.rank ≤ key.rank) :
    v.item.key.rank ≤ (startVisit disk key level loffset).item.key.rank := by
  induction level generalizing loffset v with
  | zero =>
    obtain ⟨i, hi, rfl⟩ := mem_allVisits_zero.mp hv
    have hkey : (visitAt disk loffset [i]).item.key = (disk loffset).key i := by
      rw [Block.key, if_pos hwf.level_eq]
      rfl
    rw [hkey] at hle ⊢
    rw [startVisit_zero hwf.level_eq]
    rcases Nat.lt_or_eq_of_le (le_startSlot hi hle) with hlt | heq
    · exact (hwf.sorted.lt _ _ hlt (startSlot_lt hwf.sorted)).le
    · rw [heq]
  | succ level ih =>
    obtain ⟨i, hi, w, hw, rfl⟩ := mem_allVisits_succ.mp hv
    obtain ⟨hwithin, hacross⟩ := pairwise_allVisits_succ hsorted
    obtain ⟨hchild, hbound⟩ := hwf.2 i hi
    have hlt := @startSlot_lt disk key _ loffset hwf.sorted
    have hi' : i ≤ startSlot disk key loffset :=
      le_startSlot hi ((hbound 0 hchild.sorted.pos).trans ((first_le_of_mem hchild hw).trans hle))
    rw [startVisit_succ]
    rcases Nat.lt_or_eq_of_le hi' with hfront | heq
    · refine (hacross _ _ hfront hlt w hw _ ?_).le
      exact List.mem_map_of_mem (startSlots_mem (hwf.2 _ hlt).1)
    · have hbelow := ih hchild (hwithin i hi) hw hle
      rw [heq] at hbelow
      exact hbelow

/-! ## The search -/

/-- Keys of one rank are the same key. -/
theorem BtrfsDiskKey.rank_inj {k1 k2 : BtrfsDiskKey} (h : k1.rank = k2.rank) : k1 = k2 := by
  have h1 := k1.offset.toNat_lt
  have h2 := k2.offset.toNat_lt
  have h3 := k1.type.toNat_lt
  have h4 := k2.type.toNat_lt
  rw [rank, rank] at h
  obtain ⟨objectid1, type1, offset1⟩ := k1
  obtain ⟨objectid2, type2, offset2⟩ := k2
  dsimp only at *
  congr 1
  · exact UInt64.toNat_inj.mp (by omega)
  · exact UInt8.toNat_inj.mp (by omega)
  · exact UInt64.toNat_inj.mp (by omega)

/-- In a leaf the search says whether its item has the key. -/
theorem searchTree_leaf_ret {ret : Nat} (hsorted : (disk loffset).Sorted 0)
    (hfits : FitsBuffer disk.leafsize) (hzero : path.slots 0 = 0)
    (h : searchTree disk key (depth + 1) loffset path = some (ret, path')) :
    ret = 0 ↔ path'.item.key = key := by
  obtain ⟨path'', hsearch, -, -, hslots, hitem, -⟩ :=
    @searchTree_leaf disk key depth loffset path hsorted.level_eq hfits
  rw [hsearch] at h
  split_ifs at h
  obtain ⟨hret, rfl⟩ := Prod.mk.inj (Option.some.inj h)
  have hpos := hsorted.pos
  obtain ⟨ret', slot, heq⟩ : ∃ ret' slot, binLoop
    (fun i => btrfsCompKeys ((disk loffset).key i) key) ((disk loffset).nritems - 0) 0
    (disk loffset).nritems = (ret', slot) := ⟨_, _, rfl⟩
  have hspec := @binLoop_spec (fun i => btrfsCompKeys ((disk loffset).key i) key)
    (fun i => ((disk loffset).key i).rank) ((disk loffset).nritems - 0) 0 (disk loffset).nritems
    (disk loffset).nritems key.rank (fun i => btrfsCompKeys_neg_iff _ _)
    (fun i => btrfsCompKeys_pos_iff _ _) hsorted.lt (Nat.zero_le _) le_rfl le_rfl
    (fun i hi => absurd hi (Nat.not_lt_zero i)) (fun i hle hlt => absurd hlt (Nat.not_lt.mpr hle))
  rw [heq] at hspec
  obtain ⟨hfound, hmissed⟩ := hspec
  have hkey : path''.item.key =
      (disk loffset).key (if ret' ≠ 0 ∧ slot > 0 then slot - 1 else slot) := by
    rw [hitem, hslots, store_self, hzero, findSlot, binSearch, entries, heq, Block.key,
      if_pos hsorted.level_eq]
  rw [hzero, binSearch, entries, heq] at hret
  rw [← hret, hkey]
  by_cases hzero' : ret' = 0
  · rw [if_neg fun h => h.1 hzero']
    exact iff_of_true hzero' (BtrfsDiskKey.rank_inj (hfound hzero').2)
  · obtain ⟨-, hbelow, habove⟩ := hmissed hzero'
    refine iff_of_false hzero' fun hsame => ?_
    by_cases hslot : slot > 0
    · rw [if_pos ⟨hzero', hslot⟩] at hsame
      have hlow := hbelow (slot - 1) (by omega)
      rw [hsame] at hlow
      exact lt_irrefl _ hlow
    · rw [if_neg fun h => hslot h.2] at hsame
      have hhigh := habove slot le_rfl (by omega)
      rw [hsame] at hhigh
      exact lt_irrefl _ hhigh

/-- The search from a block on whose levels no slots are set yet says whether it ends at an item
with the key. -/
theorem searchTree_ret {ret : Nat} (hwf : WellFormed disk level loffset) (hfits : disk.Fits level)
    (hlevel : level < btrfsMaxLevel) (hzero : ∀ j ≤ level, path.slots j = 0)
    (h : searchTree disk key depth loffset path = some (ret, path')) :
    ret = 0 ↔ path'.item.key = key := by
  induction level generalizing depth loffset path with
  | zero =>
    cases depth with
    | zero => exact nomatch h
    | succ depth => exact searchTree_leaf_ret hwf.sorted hfits.1 (hzero 0 le_rfl) h
  | succ level ih =>
    cases depth with
    | zero => exact nomatch h
    | succ depth =>
      rw [searchTree_node hwf.1.level_eq hlevel (hfits.2 (Nat.succ_ne_zero level))] at h
      dsimp only at h
      rw [hzero (level + 1) le_rfl] at h
      obtain ⟨hlt, -⟩ := @startSlot_spec disk key (level + 1) loffset hwf.sorted
      refine ih (hwf.2 _ hlt).1 (hfits.mono (Nat.le_succ level)) (by omega) (fun j hj => ?_) h
      rw [BtrfsPath.enter]
      dsimp only
      rw [store_of_ne (by omega), hzero j (by omega)]

/-- What a search of a tree finds. -/
theorem searchTree_start (hwf : WellFormed disk level root) (hfits : disk.Fits level)
    (hlevel : level < btrfsMaxLevel) (hdepth : level < depth) :
    ∃ ret path, searchTree disk key depth root clearPath = some (ret, path) ∧
      OnTree disk key path level root ∧
      slotList path.slots level = startSlots disk key level root ∧
      (ret = 0 ↔ path.item.key = key) := by
  obtain ⟨hlt, hlate⟩ := @startSlot_spec disk key level root hwf.sorted
  obtain ⟨ret, path, hsearch, hon, hlist, hsame⟩ := @searchTree_descend disk key depth level
    root clearPath _ hwf hfits hlevel hdepth (fun _ _ => rfl) rfl hlt hlate
  refine ⟨ret, path, hsearch, ⟨hon, fun j hj => (hsame j hj).2.1⟩, ?_,
    searchTree_ret hwf hfits hlevel (fun _ _ => rfl) hsearch⟩
  rw [hlist]
  exact (startSlots_eq hwf.sorted).symm

/-- A search finds the item with its key, or says that there is none. -/
theorem searchTree_find (hwf : WellFormed disk level root) (hexact : ExactKeys disk level root)
    (hsorted : (allVisits disk level root).Pairwise fun v w => v.item.key.rank < w.item.key.rank)
    (hfits : disk.Fits level) (hlevel : level < btrfsMaxLevel) (hdepth : level < depth) :
    ∃ ret path, searchTree disk key depth root clearPath = some (ret, path) ∧
      (ret = 0 ∧ (∃ v ∈ allVisits disk level root, v.item.key = key ∧ path.item = v.item ∧
        path.data = v.data) ∨ ret ≠ 0 ∧ ∀ v ∈ allVisits disk level root, v.item.key ≠ key) := by
  obtain ⟨ret, path, hsearch, htree, hslots, hret⟩ :=
    @searchTree_start disk key depth level root hwf hfits hlevel hdepth
  have hvisit : path.visit level = startVisit disk key level root := by
    rw [htree.onPath.visit_eq, hslots, startVisit]
  have hmem : startVisit disk key level root ∈ allVisits disk level root :=
    List.mem_map_of_mem (startSlots_mem hwf)
  refine ⟨ret, path, hsearch, ?_⟩
  by_cases hzero : ret = 0
  · have hitem : path.item = (startVisit disk key level root).item := congrArg Visit.item hvisit
    refine Or.inl ⟨hzero, _, hmem, ?_, hitem, congrArg Visit.data hvisit⟩
    rw [← hitem]
    exact hret.mp hzero
  · refine Or.inr ⟨hzero, fun v hv hkey => hzero (hret.mpr ?_)⟩
    have hitem : path.item = (startVisit disk key level root).item := congrArg Visit.item hvisit
    have hfirst := first_le_of_mem hwf hv
    have hle := @le_startVisit disk key level root hwf hsorted v hv (hkey ▸ le_rfl)
    rw [hkey] at hfirst hle
    rw [hitem]
    exact BtrfsDiskKey.rank_inj (Nat.le_antisymm (startVisit_le hwf hexact hfirst) hle)

end Liigboot.Fs.Btrfs
