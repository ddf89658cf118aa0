import Liigboot.Fs.Btrfs.Tree

/-!
# Searching a btrfs tree

In a block the search takes the last entry that is not behind the key, or the first one, as long
as it looks from slot 0 on. Further down it goes on in the same way, and the slots of the levels
above stay as they are.
-/

namespace Liigboot.Fs.Btrfs

variable {disk : BtrfsDisk} {key : BtrfsDiskKey} {depth level loffset : Nat}
  {path path' : BtrfsPath} {func : Nat → Int} {rank : Nat → Nat}

/-! ## One block -/

/-- The comparison is that of the ranks, below. -/
theorem btrfsCompKeys_neg_iff (k1 k2 : BtrfsDiskKey) :
    btrfsCompKeys k1 k2 < 0 ↔ k1.rank < k2.rank := by
  have h1 := k1.offset.toNat_lt
  have h2 := k2.offset.toNat_lt
  have h3 := k1.type.toNat_lt
  have h4 := k2.type.toNat_lt
  rw [btrfsCompKeys, BtrfsDiskKey.rank, BtrfsDiskKey.rank]
  simp only [gt_iff_lt, UInt64.lt_iff_toNat_lt, UInt8.lt_iff_toNat_lt]
  split_ifs <;> omega

/-- The comparison is that of the ranks, above. -/
theorem btrfsCompKeys_pos_iff (k1 k2 : BtrfsDiskKey) :
    0 < btrfsCompKeys k1 k2 ↔ k2.rank < k1.rank := by
  have h1 := k1.offset.toNat_lt
  have h2 := k2.offset.toNat_lt
  have h3 := k1.type.toNat_lt
  have h4 := k2.type.toNat_lt
  rw [btrfsCompKeys, BtrfsDiskKey.rank, BtrfsDiskKey.rank]
  simp only [gt_iff_lt, UInt64.lt_iff_toNat_lt, UInt8.lt_iff_toNat_lt]
  split_ifs <;> omega

/-- The search never goes below its interval. -/
theorem le_binLoop (steps low high : Nat) : low ≤ (binLoop func steps low high).2 := by
  induction steps generalizing low high with
  | zero => exact le_rfl
  | succ steps ih =>
    rw [binLoop]
    dsimp only
    split_ifs
    · exact Nat.le_trans (by omega) (ih ((low + high) / 2 + 1) high)
    · exact ih low _
    · show low ≤ (low + high) / 2
      omega
    · exact le_rfl

/-- Where everything is behind the key, the search ends where it begins. -/
theorem binLoop_of_pos {steps low high : Nat} (h : ∀ i, low ≤ i → i < high → 0 < func i) :
    binLoop func steps low high = (1, low) := by
  induction steps generalizing high with
  | zero => rfl
  | succ steps ih =>
    rw [binLoop]
    dsimp only
    split_ifs with hlt hneg hpos
    · have hmid := h ((low + high) / 2) (by omega) (by omega)
      omega
    · exact ih fun i hlo hhi => h i hlo (by omega)
    · exact absurd (h ((low + high) / 2) (by omega) (by omega)) hpos
    · rfl

/-- The search separates the entries in front of the key from those behind it. -/
theorem binLoop_spec {steps low high n k : Nat} (hneg : ∀ i, func i < 0 ↔ rank i < k)
    (hpos : ∀ i, 0 < func i ↔ k < rank i) (hsorted : ∀ i j, i < j → j < n → rank i < rank j)
    (hle : low ≤ high) (hhigh : high ≤ n) (hsteps : high - low ≤ steps)
    (hbelow : ∀ i < low, rank i < k) (habove : ∀ i, high ≤ i → i < n → k < rank i) :
    let (ret, slot) := binLoop func steps low high
    (ret = 0 → slot < n ∧ rank slot = k) ∧
      (ret ≠ 0 → slot ≤ n ∧ (∀ i < slot, rank i < k) ∧ ∀ i, slot ≤ i → i < n → k < rank i) := by
  induction steps generalizing low high with
  | zero =>
    have heq : low = high := by omega
    rw [heq] at hbelow ⊢
    exact ⟨fun h => absurd h Nat.one_ne_zero, fun _ => ⟨hhigh, hbelow, habove⟩⟩
  | succ steps ih =>
    rw [binLoop]
    dsimp only
    split_ifs with hlt hn hp
    · refine ih (by omega) hhigh (by omega) (fun i hi => ?_) habove
      have hmid := (hneg _).mp hn
      rcases Nat.lt_or_eq_of_le (Nat.le_of_lt_succ hi) with hi | rfl
      · exact (hsorted i _ hi (by omega)).trans hmid
      · exact hmid
    · refine ih (by omega) (by omega) (by omega) hbelow fun i hi hin => ?_
      have hmid := (hpos _).mp hp
      rcases Nat.lt_or_eq_of_le hi with hi | rfl
      · exact hmid.trans (hsorted _ i hi hin)
      · exact hmid
    · have hmid := hneg ((low + high) / 2)
      have hmid' := hpos ((low + high) / 2)
      exact ⟨fun _ => ⟨by omega, show rank ((low + high) / 2) = k by omega⟩,
        fun h => absurd rfl h⟩
    · have heq : low = high := by omega
      rw [heq] at hbelow ⊢
      exact ⟨fun h => h.elim, fun _ => ⟨hhigh, hbelow, habove⟩⟩

/-- The slot that the search takes in a block, from the slot `min` on. -/
def findSlot (disk : BtrfsDisk) (key : BtrfsDiskKey) (loffset min : Nat) : Nat :=
  let (ret, slot) := binSearch (fun i => btrfsCompKeys ((disk loffset).key i) key) min
    (entries disk loffset)
  if ret ≠ 0 ∧ slot > min then slot - 1 else slot

/-- The binary search never goes below where it starts. -/
theorem le_findSlot (min : Nat) : min ≤ findSlot disk key loffset min := by
  have hle := @le_binLoop (fun i => btrfsCompKeys ((disk loffset).key i) key)
    (entries disk loffset - min) min (entries disk loffset)
  rw [findSlot, binSearch]
  dsimp only
  split_ifs with h
  · omega
  · exact hle

/-- Where everything is behind the key, the search takes the first slot. -/
theorem findSlot_of_late {min : Nat}
    (h : ∀ i, min ≤ i → i < entries disk loffset → key.rank < ((disk loffset).key i).rank) :
    findSlot disk key loffset min = min := by
  have hpos : ∀ i, min ≤ i → i < entries disk loffset →
      0 < btrfsCompKeys ((disk loffset).key i) key :=
    fun i hlo hhi => (btrfsCompKeys_pos_iff _ _).mpr (h i hlo hhi)
  rw [findSlot, binSearch, binLoop_of_pos hpos]
  dsimp only
  rw [if_neg fun h => lt_irrefl _ h.2]

/-- In a sorted block, the search takes the last entry that is not behind the key. -/
theorem findSlot_zero (hsorted : (disk loffset).Sorted level) :
    findSlot disk key loffset 0 = Nat.findGreatest
      (fun i => ((disk loffset).key i).rank ≤ key.rank) (entries disk loffset - 1) := by
  have hpos := hsorted.pos
  have hspec := @binLoop_spec (fun i => btrfsCompKeys ((disk loffset).key i) key)
    (fun i => ((disk loffset).key i).rank) (entries disk loffset - 0) 0 (entries disk loffset)
    (entries disk loffset) key.rank (fun i => btrfsCompKeys_neg_iff _ _)
    (fun i => btrfsCompKeys_pos_iff _ _) hsorted.lt (Nat.zero_le _) le_rfl le_rfl
    (fun i hi => absurd hi (Nat.not_lt_zero i)) (fun i hle hlt => absurd hlt (Nat.not_lt.mpr hle))
  rw [findSlot, binSearch]
  obtain ⟨ret, slot, heq⟩ : ∃ ret slot, binLoop (fun i => btrfsCompKeys ((disk loffset).key i) key)
    (entries disk loffset - 0) 0 (entries disk loffset) = (ret, slot) := ⟨_, _, rfl⟩
  rw [heq] at hspec ⊢
  obtain ⟨hfound, hmissed⟩ := hspec
  change entries disk loffset > 0 at hpos
  dsimp only
  symm
  rw [Nat.findGreatest_eq_iff]
  by_cases hret : ret = 0
  · obtain ⟨hlt, hrank⟩ := hfound hret
    rw [if_neg fun h => h.1 hret]
    refine ⟨by omega, fun _ => hrank.le, fun i hi hle => ?_⟩
    have hafter := hsorted.lt slot i hi (by change i < entries disk loffset; omega)
    omega
  · obtain ⟨hle, hbelow, habove⟩ := hmissed hret
    split_ifs with h
    · refine ⟨by omega, fun _ => (hbelow _ (by omega)).le, fun i hi hin => ?_⟩
      exact Nat.not_le.mpr (habove i (by omega) (by omega))
    · have hzero : slot = 0 := by
        by_contra hne
        exact h ⟨hret, Nat.pos_of_ne_zero hne⟩
      rw [hzero] at habove ⊢
      refine ⟨Nat.zero_le _, fun hne => absurd rfl hne, fun i hi hin => ?_⟩
      exact Nat.not_le.mpr (habove i (Nat.zero_le i) (by omega))

/-! ## Paths -/

/-- The path has a slot of a block, and everything behind the slot is behind the key. -/
structure OnBlock (disk : BtrfsDisk) (key : BtrfsDiskKey) (path : BtrfsPath)
    (level loffset : Nat) : Prop where
  offsets_eq : path.offsets level = loffset
  itemsnr_eq : path.itemsnr level = entries disk loffset
  slot_lt : path.slots level < entries disk loffset
  late : ∀ i, path.slots level < i → i < entries disk loffset →
    key.rank < ((disk loffset).key i).rank

/-- The path leads from a block down to its item. -/
def OnPath (disk : BtrfsDisk) (key : BtrfsDiskKey) (path : BtrfsPath) : Nat → Nat → Prop
  | 0, loffset => OnBlock disk key path 0 loffset ∧
    path.item = (disk loffset).items (path.slots 0) ∧
    path.data = (disk loffset).data path.item.offset path.item.size
  | level + 1, loffset => OnBlock disk key path (level + 1) loffset ∧
    OnPath disk key path level (childOf disk loffset (path.slots (level + 1)))

/-- Above a level two paths agree. -/
def SameAbove (level : Nat) (path path' : BtrfsPath) : Prop :=
  ∀ j, level < j → path'.offsets j = path.offsets j ∧ path'.itemsnr j = path.itemsnr j ∧
    path'.slots j = path.slots j

theorem store_self (xs : Nat → Nat) (i x : Nat) : store xs i x i = x := if_pos rfl

/-- The slots of the other levels stay. -/
theorem store_of_ne {xs : Nat → Nat} {i j x : Nat} (h : j ≠ i) : store xs i x j = xs j := if_neg h

/-- A path with the slot of a block written. -/
def BtrfsPath.enter (path : BtrfsPath) (level nritems loffset slot : Nat) : BtrfsPath :=
  { path with
    offsets := store path.offsets level loffset
    itemsnr := store path.itemsnr level nritems
    slots := store path.slots level slot }

/-- A call in a node. -/
theorem searchTree_node (hlevel : (disk loffset).level = level + 1)
    (hlt : level + 1 < btrfsMaxLevel) (hfits : FitsBuffer disk.nodesize) :
    searchTree disk key (depth + 1) loffset path =
      let slot := findSlot disk key loffset (path.slots (level + 1))
      searchTree disk key depth (childOf disk loffset slot)
        (path.enter (level + 1) (entries disk loffset) loffset slot) := by
  have hkey : (fun i => btrfsCompKeys ((disk loffset).ptrs i).key key) =
      fun i => btrfsCompKeys ((disk loffset).key i) key := by
    funext i
    rw [Block.key, if_neg (by omega)]
  rw [searchTree]
  dsimp only
  rw [hlevel, if_neg (Nat.not_le.mpr hlt), if_pos (Nat.succ_ne_zero level),
    if_neg (not_not.mpr hfits), hkey]
  rfl

/-- A call in a leaf. -/
theorem searchTree_leaf (hlevel : (disk loffset).level = 0) (hfits : FitsBuffer disk.leafsize) :
    ∃ path', searchTree disk key (depth + 1) loffset path =
        (if btrfsMaxLeafSize < path'.item.size then none
        else some ((binSearch (fun i => btrfsCompKeys ((disk loffset).key i) key) (path.slots 0)
          (entries disk loffset)).1, path')) ∧
      path'.offsets = store path.offsets 0 loffset ∧
      path'.itemsnr = store path.itemsnr 0 (entries disk loffset) ∧
      path'.slots = store path.slots 0 (findSlot disk key loffset (path.slots 0)) ∧
      path'.item = (disk loffset).items (path'.slots 0) ∧
      path'.data = (disk loffset).data path'.item.offset path'.item.size := by
  have hkey : (fun i => btrfsCompKeys ((disk loffset).items i).key key) =
      fun i => btrfsCompKeys ((disk loffset).key i) key := by
    funext i
    rw [Block.key, if_pos hlevel]
  rw [searchTree]
  dsimp only
  rw [hlevel, if_neg (show ¬btrfsMaxLevel ≤ 0 by decide), if_neg (not_not.mpr rfl),
    if_neg (not_not.mpr hfits), hkey]
  refine ⟨⟨_, _, _, _, _⟩, rfl, rfl, rfl, rfl, ?_, rfl⟩
  dsimp only
  rw [store_self]

/-- A block that does not fit the buffer is not searched. -/
theorem searchTree_of_not_fits (hlevel : (disk loffset).level = level)
    (h : ¬FitsBuffer (if level ≠ 0 then disk.nodesize else disk.leafsize)) :
    searchTree disk key depth loffset path = none := by
  cases depth with
  | zero => rfl
  | succ depth =>
    rw [searchTree]
    dsimp only
    rw [hlevel]
    split_ifs at h ⊢ <;> rfl

/-- The root of a well-formed tree is a sound block. -/
theorem WellFormed.sound (h : WellFormed disk level loffset) : disk.Sound loffset level := by
  cases level with
  | zero => exact h
  | succ level => exact h.1

/-- The root of a well-formed tree is sorted. -/
theorem WellFormed.sorted (h : WellFormed disk level loffset) : (disk loffset).Sorted level :=
  h.sound.toSorted

/-- A search of an empty leaf takes what lies behind the header. -/
theorem searchTree_empty (hlevel : (disk loffset).level = 0) (hempty : entries disk loffset = 0)
    (hfits : FitsBuffer disk.leafsize) (hzero : path.slots 0 = 0) :
    ∃ ret path', searchTree disk key (depth + 1) loffset path =
        (if btrfsMaxLeafSize < ((disk loffset).items 0).size then none else some (ret, path')) ∧
      path'.itemsnr = store path.itemsnr 0 0 := by
  obtain ⟨path', hsearch, -, hitemsnr, hslots, hitem, -⟩ :=
    @searchTree_leaf disk key depth loffset path hlevel hfits
  have hslot : path'.slots 0 = 0 := by
    rw [hslots, store_self, hzero]
    refine findSlot_of_late fun i _ hi => ?_
    rw [hempty] at hi
    exact absurd hi (Nat.not_lt_zero i)
  rw [hitem, hslot] at hsearch
  exact ⟨_, path', hsearch, hempty ▸ hitemsnr⟩

/-- The data of an item fits where its leaf does. -/
theorem BtrfsDisk.Sound.size_le (h : disk.Sound loffset 0) (hfits : FitsBuffer disk.leafsize)
    {i : Nat} (hi : i < entries disk loffset) :
    ((disk loffset).items i).size ≤ btrfsMaxLeafSize :=
  (Nat.le_add_left _ _).trans ((h.data_le rfl i hi).trans hfits.2)

/-- The blocks below fit as well. -/
theorem BtrfsDisk.Fits.mono (h : disk.Fits level) {below : Nat} (hle : below ≤ level) :
    disk.Fits below :=
  ⟨h.1, fun hne => h.2 (by omega)⟩

/-- The first slot of a search, and everything behind it. -/
theorem startSlot_spec (hsorted : (disk loffset).Sorted level) :
    findSlot disk key loffset 0 < entries disk loffset ∧
      ∀ i, findSlot disk key loffset 0 < i → i < entries disk loffset →
        key.rank < ((disk loffset).key i).rank := by
  have hpos : 0 < entries disk loffset := hsorted.pos
  rw [findSlot_zero hsorted]
  constructor
  · exact Nat.lt_of_le_of_lt (Nat.findGreatest_le _) (Nat.sub_lt hpos Nat.one_pos)
  · intro i hi hin
    exact Nat.not_le.mp (Nat.findGreatest_is_greatest
      (P := fun i => ((disk loffset).key i).rank ≤ key.rank) hi (Nat.le_sub_one_of_lt hin))

/-- The path through a slot of a block that goes on as a search does. -/
def startFrom (disk : BtrfsDisk) (key : BtrfsDiskKey) (loffset slot : Nat) : Nat → List Nat
  | 0 => [slot]
  | level + 1 => slot :: startSlots disk key level (childOf disk loffset slot)

/-- The path starts with the slot the binary search finds. -/
theorem startSlots_eq (hsorted : (disk loffset).Sorted level) :
    startSlots disk key level loffset =
      startFrom disk key loffset (findSlot disk key loffset 0) level := by
  rw [findSlot_zero hsorted]
  cases level with
  | zero => rfl
  | succ level => rfl

/-- What a call does in a tree, where it looks from slot 0 on in the levels below. -/
theorem searchTree_descend {slot : Nat} (hwf : WellFormed disk level loffset)
    (hfits : disk.Fits level) (hlevel : level < btrfsMaxLevel) (hdepth : level < depth)
    (hbelow : ∀ j < level, path.slots j = 0)
    (hslot : findSlot disk key loffset (path.slots level) = slot)
    (hlt : slot < entries disk loffset)
    (hlate : ∀ i, slot < i → i < entries disk loffset →
      key.rank < ((disk loffset).key i).rank) :
    ∃ ret path', searchTree disk key depth loffset path = some (ret, path') ∧
      OnPath disk key path' level loffset ∧
      slotList path'.slots level = startFrom disk key loffset slot level ∧
      SameAbove level path path' := by
  obtain ⟨depth, rfl⟩ := Nat.exists_eq_succ_of_ne_zero (Nat.ne_zero_of_lt hdepth)
  induction level generalizing depth loffset path slot with
  | zero =>
    obtain ⟨path', hsearch, hoffsets, hitemsnr, hslots, hitem, hdata⟩ :=
      @searchTree_leaf disk key depth loffset path hwf.level_eq hfits.1
    rw [hslot] at hslots
    have hslot0 : path'.slots 0 = slot := by rw [hslots, store_self]
    rw [hitem, hslot0, if_neg (Nat.not_lt.mpr (hwf.size_le hfits.1 hlt))] at hsearch
    refine ⟨_, path', hsearch, ⟨⟨?_, ?_, ?_, ?_⟩, hitem, hdata⟩, ?_, fun j hj => ?_⟩
    · rw [hoffsets, store_self]
    · rw [hitemsnr, store_self]
    · rw [hslot0]
      exact hlt
    · rw [hslot0]
      exact hlate
    · rw [slotList, hslot0, startFrom]
    · rw [hoffsets, hitemsnr, hslots]
      exact ⟨store_of_ne hj.ne', store_of_ne hj.ne', store_of_ne hj.ne'⟩
  | succ level ih =>
    obtain ⟨depth, rfl⟩ := Nat.exists_eq_succ_of_ne_zero (show depth ≠ 0 by omega)
    obtain ⟨hsound, hchildren⟩ := hwf
    obtain ⟨hchild, -⟩ := hchildren slot hlt
    have hzero : ∀ j ≤ level, (path.enter (level + 1) (entries disk loffset) loffset slot).slots j
        = 0 := fun j hj => by
      rw [BtrfsPath.enter]
      dsimp only
      rw [store_of_ne (by omega), hbelow j (by omega)]
    obtain ⟨hstartLt, hstartLate⟩ := @startSlot_spec disk key level _ hchild.sorted
    obtain ⟨ret, path', hsearch, hon, hlist, hsame⟩ := @ih _
      (path.enter (level + 1) (entries disk loffset) loffset slot) _ hchild
      (hfits.mono (Nat.le_succ level)) (by omega)
      (fun j hj => hzero j hj.le) (congrArg _ (hzero level le_rfl)) hstartLt hstartLate
      depth (by omega)
    obtain ⟨hoffsets, hitemsnr, hslots⟩ := hsame (level + 1) (Nat.lt_succ_self level)
    rw [BtrfsPath.enter] at hoffsets hitemsnr hslots
    dsimp only at hoffsets hitemsnr hslots
    rw [store_self] at hoffsets hitemsnr hslots
    refine ⟨ret, path', ?_, ⟨⟨hoffsets, hitemsnr, ?_, ?_⟩, ?_⟩, ?_, fun j hj => ?_⟩
    · rw [searchTree_node hsound.level_eq hlevel (hfits.2 (Nat.succ_ne_zero level))]
      dsimp only
      rw [hslot]
      exact hsearch
    · rw [hslots]
      exact hlt
    · rw [hslots]
      exact hlate
    · rw [hslots]
      exact hon
    · rw [slotList, hslots, hlist, startFrom, startSlots_eq hchild.sorted]
    · obtain ⟨hoffsets, hitemsnr, hslots⟩ := hsame j (by omega)
      rw [hoffsets, hitemsnr, hslots]
      exact ⟨store_of_ne hj.ne', store_of_ne hj.ne', store_of_ne hj.ne'⟩

/-- A search goes to the first item where everything is behind the key. -/
theorem startSlots_of_late (hwf : WellFormed disk level loffset)
    (hlate : ∀ i < entries disk loffset, key.rank < ((disk loffset).key i).rank) :
    startSlots disk key level loffset = slotList (fun _ => 0) level := by
  have hzero : findSlot disk key loffset 0 = 0 := findSlot_of_late fun i _ hin => hlate i hin
  rw [startSlots_eq hwf.sorted, hzero]
  induction level generalizing loffset with
  | zero => rfl
  | succ level ih =>
    have hpos : 0 < entries disk loffset := hwf.sorted.pos
    obtain ⟨hchild, hbound⟩ := hwf.2 0 hpos
    have hlateChild : ∀ i < entries disk (childOf disk loffset 0),
        key.rank < ((disk (childOf disk loffset 0)).key i).rank :=
      fun i hi => (hlate 0 hpos).trans_le (hbound i hi)
    have hzeroChild : findSlot disk key (childOf disk loffset 0) 0 = 0 :=
      findSlot_of_late fun i _ hin => hlateChild i hin
    rw [startFrom, slotList, startSlots_eq hchild.sorted, hzeroChild,
      ih hchild hlateChild hzeroChild]

/-- No call moves a slot back. -/
theorem searchTree_mono {ret : Nat} (h : searchTree disk key depth loffset path = some (ret, path'))
    (j : Nat) : path.slots j ≤ path'.slots j := by
  induction depth generalizing loffset path with
  | zero => exact nomatch h
  | succ depth ih =>
    have hstore : ∀ level : Nat, path.slots j ≤ store path.slots level
        (findSlot disk key loffset (path.slots level)) j := by
      intro level
      rw [store]
      split_ifs with hj
      · rw [hj]
        exact le_findSlot _
      · exact le_rfl
    by_cases hfits : FitsBuffer
        (if (disk loffset).level ≠ 0 then disk.nodesize else disk.leafsize)
    · by_cases hmax : btrfsMaxLevel ≤ (disk loffset).level
      · rw [searchTree] at h
        dsimp only at h
        rw [if_pos hmax] at h
        exact nomatch h
      · cases hlevel : (disk loffset).level with
        | zero =>
          rw [hlevel, if_neg (not_not.mpr rfl)] at hfits
          obtain ⟨path'', hsearch, -, -, hslots, -⟩ :=
            @searchTree_leaf disk key depth loffset path hlevel hfits
          rw [hsearch] at h
          split_ifs at h
          obtain ⟨-, rfl⟩ := Prod.mk.inj (Option.some.inj h)
          rw [hslots]
          exact hstore 0
        | succ level =>
          rw [hlevel, if_pos (Nat.succ_ne_zero level)] at hfits
          rw [hlevel] at hmax
          rw [searchTree_node hlevel (Nat.not_le.mp hmax) hfits] at h
          exact Nat.le_trans (hstore (level + 1)) (ih h)
    · rw [searchTree_of_not_fits rfl hfits] at h
      exact nomatch h

/-- A search of a tree whose blocks do not fit overruns the buffer. -/
theorem searchTree_unfit (hwf : WellFormed disk level loffset) (hfits : ¬disk.Fits level)
    (hlevel : level < btrfsMaxLevel) (hzero : ∀ j ≤ level, path.slots j = 0) :
    searchTree disk key depth loffset path = none := by
  induction level generalizing depth loffset path with
  | zero =>
    refine searchTree_of_not_fits hwf.level_eq fun hleaf => hfits ⟨?_, fun h => absurd rfl h⟩
    rwa [if_neg (not_not.mpr rfl)] at hleaf
  | succ level ih =>
    by_cases hnode : FitsBuffer disk.nodesize
    · cases depth with
      | zero => rfl
      | succ depth =>
        obtain ⟨hlt, -⟩ := @startSlot_spec disk key (level + 1) loffset hwf.sorted
        rw [searchTree_node hwf.1.level_eq hlevel hnode]
        dsimp only
        rw [hzero (level + 1) le_rfl]
        refine ih (hwf.2 _ hlt).1 (fun h => hfits ⟨h.1, fun _ => hnode⟩) (by omega) fun j hj => ?_
        rw [BtrfsPath.enter]
        dsimp only
        rw [store_of_ne (by omega), hzero j (by omega)]
    · refine searchTree_of_not_fits hwf.1.level_eq ?_
      rwa [if_pos (Nat.succ_ne_zero level)]

end Liigboot.Fs.Btrfs
