import Liigboot.Fs.Btrfs.Search

/-!
# The chunk map of btrfs

Addresses in btrfs are logical. The map holds the chunks they lie in, sorted by their first
address, and both an insertion and a translation look up their place by a binary search.
-/

namespace Liigboot.Fs.Btrfs

/-- `struct btrfs_chunk_map_item`. -/
structure BtrfsChunkMapItem where
  logical : UInt64
  length : UInt64
  devid : UInt64
  physical : UInt64
  deriving DecidableEq, Repr

/-- `BTRFS_MAX_CHUNK_ENTRIES`. -/
def btrfsMaxChunkEntries : Nat := 256

/-- `btrfs_comp_chunk_map`. -/
def btrfsCompChunkMap (m1 m2 : BtrfsChunkMapItem) : Int :=
  if m1.logical > m2.logical then 1
  else if m1.logical < m2.logical then -1
  else 0

/-- `chunk_map.map[slot]`. -/
def mapEntry (map : List BtrfsChunkMapItem) (slot : Nat) : BtrfsChunkMapItem :=
  map.getD slot ⟨0, 0, 0, 0⟩

/-- `insert_map`, on the first `cur_length` entries of the map. -/
def insertMap (map : List BtrfsChunkMapItem) (item : BtrfsChunkMapItem) :
    List BtrfsChunkMapItem :=
  if map = [] then [item]
  else
    let (ret, slot) := binSearch (fun i => btrfsCompChunkMap (mapEntry map i) item) 0 map.length
    if ret = 0 then map
    else if map.length = btrfsMaxChunkEntries then map
    -- The loop moves the entries from the slot on up by one.
    else map.take slot ++ item :: map.drop slot

/-- `logical_physical`. -/
def logicalPhysical (map : List BtrfsChunkMapItem) (logical : UInt64) : UInt64 :=
  let item : BtrfsChunkMapItem := ⟨logical, 0, 0, 0⟩
  let (ret, slot) := binSearch (fun i => btrfsCompChunkMap (mapEntry map i) item) 0 map.length
  if ret ≠ 0 ∧ slot = 0 then -1
  else
    let slot := if ret = 0 then slot + 1 else slot
    let entry := mapEntry map (slot - 1)
    if logical ≥ entry.logical + entry.length then -1
    else entry.physical + logical - entry.logical

/-! ## Sorted maps -/

/-- The entries are sorted by their first address. -/
def Ordered (map : List BtrfsChunkMapItem) : Prop :=
  map.Pairwise fun a b => a.logical.toNat < b.logical.toNat

/-- A chunk that has an address. -/
def BtrfsChunkMapItem.Covers (e : BtrfsChunkMapItem) (logical : Nat) : Prop :=
  e.logical.toNat ≤ logical ∧ logical < e.logical.toNat + e.length.toNat

/-- Two chunks are one, or the first one in order ends in front of the other, within the address
space. -/
def Apart (a b : BtrfsChunkMapItem) : Prop :=
  a.logical.toNat + a.length.toNat < 2 ^ 64 ∧
    (a.logical = b.logical → a.length = b.length ∧ a.physical = b.physical) ∧
    (a.logical.toNat < b.logical.toNat → a.logical.toNat + a.length.toNat ≤ b.logical.toNat)

variable {map : List BtrfsChunkMapItem} {item e f : BtrfsChunkMapItem}

/-- Chunks are compared by their logical addresses, below. -/
theorem btrfsCompChunkMap_neg_iff (m1 m2 : BtrfsChunkMapItem) :
    btrfsCompChunkMap m1 m2 < 0 ↔ m1.logical.toNat < m2.logical.toNat := by
  rw [btrfsCompChunkMap]
  simp only [gt_iff_lt, UInt64.lt_iff_toNat_lt]
  split_ifs <;> omega

/-- Chunks are compared by their logical addresses, above. -/
theorem btrfsCompChunkMap_pos_iff (m1 m2 : BtrfsChunkMapItem) :
    0 < btrfsCompChunkMap m1 m2 ↔ m2.logical.toNat < m1.logical.toNat := by
  rw [btrfsCompChunkMap]
  simp only [gt_iff_lt, UInt64.lt_iff_toNat_lt]
  split_ifs <;> omega

/-- The entry in a slot of the map. -/
theorem mapEntry_eq {slot : Nat} (h : slot < map.length) : mapEntry map slot = map[slot] := by
  rw [mapEntry, List.getD_eq_getElem?_getD, List.getElem?_eq_getElem h, Option.getD_some]

/-- Logical addresses grow along the map. -/
theorem Ordered.lt (hord : Ordered map) {i j : Nat} (hlt : i < j) (hj : j < map.length) :
    (mapEntry map i).logical.toNat < (mapEntry map j).logical.toNat := by
  rw [mapEntry_eq (hlt.trans hj), mapEntry_eq hj]
  exact List.pairwise_iff_getElem.mp hord i j _ hj hlt

/-- No logical address is in the map twice. -/
theorem Ordered.nodup (hord : Ordered map) : (map.map BtrfsChunkMapItem.logical).Nodup := by
  refine List.pairwise_map.mpr (hord.imp fun hlt heq => ?_)
  rw [heq] at hlt
  exact lt_irrefl _ hlt

/-- In a sorted map the search finds the entry, or the place where it belongs. -/
theorem binSearch_map (hord : Ordered map) (item : BtrfsChunkMapItem) :
    ∃ ret slot, binSearch (fun i => btrfsCompChunkMap (mapEntry map i) item) 0 map.length =
        (ret, slot) ∧
      (ret = 0 → slot < map.length ∧ (mapEntry map slot).logical = item.logical) ∧
      (ret ≠ 0 → slot ≤ map.length ∧
        (∀ i < slot, (mapEntry map i).logical.toNat < item.logical.toNat) ∧
        ∀ i, slot ≤ i → i < map.length →
          item.logical.toNat < (mapEntry map i).logical.toNat) := by
  obtain ⟨hfound, hmissed⟩ := @binLoop_spec
    (fun i => btrfsCompChunkMap (mapEntry map i) item)
    (fun i => (mapEntry map i).logical.toNat) (map.length - 0) 0 map.length map.length
    item.logical.toNat (fun i => btrfsCompChunkMap_neg_iff _ _)
    (fun i => btrfsCompChunkMap_pos_iff _ _) (fun i j => hord.lt) (Nat.zero_le _) le_rfl le_rfl
    (fun i hi => absurd hi (Nat.not_lt_zero i)) (fun i hle hlt => absurd hlt (Nat.not_lt.mpr hle))
  refine ⟨_, _, rfl, fun hret => ?_, hmissed⟩
  obtain ⟨hlt, heq⟩ := hfound hret
  exact ⟨hlt, UInt64.toNat_inj.mp heq⟩

/-- What is in a slot is in the map. -/
theorem mapEntry_mem {slot : Nat} (h : slot < map.length) : mapEntry map slot ∈ map := by
  rw [mapEntry_eq h]
  exact List.getElem_mem h

/-- What is in the map is in a slot. -/
theorem mem_iff_mapEntry : e ∈ map ↔ ∃ i < map.length, mapEntry map i = e := by
  constructor
  · intro he
    obtain ⟨i, hi, heq⟩ := List.mem_iff_getElem.mp he
    exact ⟨i, hi, (mapEntry_eq hi).trans heq⟩
  · rintro ⟨i, hi, rfl⟩
    exact mapEntry_mem hi

/-- What an insertion does with a chunk whose address the map has already. -/
theorem insertMap_of_mem (hord : Ordered map) (he : e ∈ map) (heq : e.logical = item.logical) :
    insertMap map item = map := by
  obtain ⟨ret, slot, hsearch, -, hmissed⟩ := binSearch_map hord item
  obtain ⟨i, hi, hentry⟩ := mem_iff_mapEntry.mp he
  have hret : ret = 0 := by
    by_contra hne
    obtain ⟨-, hbelow, habove⟩ := hmissed hne
    have hlow := hbelow i
    have hhigh := habove i
    rw [hentry, heq] at hlow hhigh
    rcases Nat.lt_or_ge i slot with hlt | hge
    · exact lt_irrefl _ (hlow hlt)
    · exact lt_irrefl _ (hhigh hge hi)
  rw [insertMap, if_neg (List.ne_nil_of_mem he), hsearch]
  exact if_pos hret

/-- What an insertion does with another chunk, while there is room. -/
theorem insertMap_of_not_mem (hord : Ordered map) (hroom : map.length < btrfsMaxChunkEntries)
    (hnew : ∀ e ∈ map, e.logical ≠ item.logical) :
    Ordered (insertMap map item) ∧ (insertMap map item).length = map.length + 1 ∧
      ∀ e, e ∈ insertMap map item ↔ e = item ∨ e ∈ map := by
  by_cases hnil : map = []
  · rw [insertMap, if_pos hnil, hnil]
    refine ⟨List.pairwise_singleton _ _, rfl, fun e => ?_⟩
    rw [List.mem_singleton, or_iff_left List.not_mem_nil]
  · obtain ⟨ret, slot, hsearch, hfound, hmissed⟩ := binSearch_map hord item
    have hret : ret ≠ 0 := by
      intro hzero
      obtain ⟨hlt, heq⟩ := hfound hzero
      exact hnew _ (mapEntry_mem hlt) heq
    obtain ⟨hle, hbelow, habove⟩ := hmissed hret
    have hinsert : insertMap map item = map.take slot ++ item :: map.drop slot := by
      rw [insertMap, if_neg hnil, hsearch]
      dsimp only
      rw [if_neg hret, if_neg hroom.ne]
    have hfront : ∀ a ∈ map.take slot, a.logical.toNat < item.logical.toNat := by
      intro a ha
      obtain ⟨i, hi, rfl⟩ := List.mem_iff_getElem.mp ha
      rw [List.length_take] at hi
      have hlow := hbelow i (by omega)
      rw [mapEntry_eq (by omega)] at hlow
      rw [List.getElem_take]
      exact hlow
    have hback : ∀ b ∈ map.drop slot, item.logical.toNat < b.logical.toNat := by
      intro b hb
      obtain ⟨i, hi, rfl⟩ := List.mem_iff_getElem.mp hb
      rw [List.length_drop] at hi
      have hhigh := habove (slot + i) (Nat.le_add_right slot i) (by omega)
      rw [mapEntry_eq (by omega)] at hhigh
      rw [List.getElem_drop]
      exact hhigh
    have hsplit := hord
    rw [Ordered, ← List.take_append_drop slot map, List.pairwise_append] at hsplit
    obtain ⟨htake, hdrop, hcross⟩ := hsplit
    rw [hinsert]
    refine ⟨?_, ?_, fun e => ?_⟩
    · refine List.pairwise_append.mpr ⟨htake, List.pairwise_cons.mpr ⟨hback, hdrop⟩, ?_⟩
      intro a ha b hb
      rcases List.mem_cons.mp hb with rfl | hb
      · exact hfront a ha
      · exact hcross a ha b hb
    · rw [List.length_append, List.length_cons, List.length_take, List.length_drop]
      omega
    · rw [List.mem_append, List.mem_cons, or_left_comm, ← List.mem_append,
        List.take_append_drop]

/-- An address translates by the chunk that has it. -/
theorem logicalPhysical_eq {logical : UInt64} (hord : Ordered map) (he : e ∈ map)
    (hapart : ∀ f ∈ map, Apart e f) (hcovers : e.Covers logical.toNat) :
    logicalPhysical map logical = e.physical + logical - e.logical := by
  obtain ⟨hlow, hhigh⟩ := hcovers
  obtain ⟨ret, slot, hsearch, hfound, hmissed⟩ := binSearch_map hord ⟨logical, 0, 0, 0⟩
  obtain ⟨i, hi, rfl⟩ := mem_iff_mapEntry.mp he
  -- The entry that is taken is the last one that does not begin behind the address.
  have hlast : ¬(ret ≠ 0 ∧ slot = 0) ∧ (if ret = 0 then slot + 1 else slot) - 1 = i := by
    by_cases hret : ret = 0
    · obtain ⟨hlt, heq⟩ := hfound hret
      refine ⟨fun h => h.1 hret, ?_⟩
      rw [if_pos hret, Nat.add_sub_cancel]
      have hlogical : (mapEntry map slot).logical.toNat = logical.toNat :=
        congrArg UInt64.toNat heq
      obtain ⟨-, -, hends⟩ := hapart _ (mapEntry_mem hlt)
      rcases Nat.lt_trichotomy slot i with h | h | h
      · have hbehind := hord.lt h hi
        omega
      · exact h
      · have hfront := hends (hord.lt h hlt)
        omega
    · obtain ⟨hle, hbelow, habove⟩ := hmissed hret
      have hilt : i < slot := by
        by_contra hge
        have hbehind : logical.toNat < _ := habove i (Nat.not_lt.mp hge) hi
        omega
      refine ⟨fun h => absurd h.2 (Nat.ne_zero_of_lt hilt), ?_⟩
      rw [if_neg hret]
      by_contra hne
      have hlt : slot - 1 < map.length := by omega
      have hstart : (mapEntry map (slot - 1)).logical.toNat < logical.toNat :=
        hbelow (slot - 1) (by omega)
      obtain ⟨-, -, hends⟩ := hapart _ (mapEntry_mem hlt)
      have hfront := hends (hord.lt (by omega) hlt)
      omega
  obtain ⟨hwhole, -, -⟩ := hapart _ he
  have hend : ¬logical ≥ (mapEntry map i).logical + (mapEntry map i).length := by
    rw [ge_iff_le, UInt64.le_iff_toNat_le, UInt64.toNat_add, Nat.mod_eq_of_lt hwhole]
    exact Nat.not_le.mpr hhigh
  rw [logicalPhysical, hsearch]
  dsimp only
  rw [if_neg hlast.1, hlast.2, if_neg hend]

end Liigboot.Fs.Btrfs
