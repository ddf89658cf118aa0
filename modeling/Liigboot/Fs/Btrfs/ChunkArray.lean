import Liigboot.Lib.StringOps
import Liigboot.Fs.Btrfs.ChunkMap
import Mathlib.Data.List.Dedup
import Mathlib.Data.List.Perm.Subperm

/-!
# The array of the chunk map

The chunk map is an array of 256 items that is allocated for the first chunk. An insertion moves
the items behind its slot up by one. What the array holds is the sorted list of the chunks that have
been inserted, the first one for each start.
-/

namespace Liigboot.Fs.Btrfs

/-! ## The source -/

/-- `struct btrfs_chunk_map`. -/
structure BtrfsChunkMap where
  map : Option (Nat → BtrfsChunkMapItem)
  curLength : Nat

/-- `chunk_map.map[i]`, which is not read while there is no array. -/
def BtrfsChunkMap.entry (m : BtrfsChunkMap) (i : Nat) : BtrfsChunkMapItem :=
  m.map.elim ⟨0, 0, 0, 0⟩ fun map => map i

/-- The loop of `insert_map`, from `i` down to the slot. -/
def moveUp {α : Type*} (map : Nat → α) (slot : Nat) : Nat → Nat → α
  | 0 => map
  | i + 1 => if i + 1 > slot then moveUp (put map (i + 1) (map i)) slot i else map

/-- `insert_map`, with what `malloc` returns. -/
def BtrfsChunkMap.insertMap (fresh : Nat → BtrfsChunkMapItem) (m : BtrfsChunkMap)
    (item : BtrfsChunkMapItem) : BtrfsChunkMap :=
  match m.map with
  | none => ⟨some (put fresh 0 item), 1⟩
  | some map =>
    let (ret, slot) := binSearch (fun i => btrfsCompChunkMap (map i) item) 0 m.curLength
    if ret = 0 then m
    else if m.curLength = btrfsMaxChunkEntries then m
    else ⟨some (put (moveUp map slot m.curLength) slot item), m.curLength + 1⟩

/-- `logical_physical`. -/
def BtrfsChunkMap.logicalPhysical (m : BtrfsChunkMap) (logical : UInt64) : UInt64 :=
  let item : BtrfsChunkMapItem := ⟨logical, 0, 0, 0⟩
  let (ret, slot) := binSearch (fun i => btrfsCompChunkMap (m.entry i) item) 0 m.curLength
  if ret ≠ 0 ∧ slot = 0 then -1
  else
    let slot := if ret = 0 then slot + 1 else slot
    if logical ≥ (m.entry (slot - 1)).logical + (m.entry (slot - 1)).length then -1
    else (m.entry (slot - 1)).physical + logical - (m.entry (slot - 1)).logical

/-- The calls of `insert_map` for some chunks, from the empty map on. -/
def chunkMapOf (fresh : Nat → BtrfsChunkMapItem) (items : List BtrfsChunkMapItem) :
    BtrfsChunkMap :=
  items.foldl (BtrfsChunkMap.insertMap fresh) ⟨none, 0⟩

variable {α : Type*} {m : BtrfsChunkMap} {map : List BtrfsChunkMapItem} {arr : Nat → α}
  {items : List BtrfsChunkMapItem} {item e : BtrfsChunkMapItem} {func func' : Nat → Int}
  {fresh : Nat → BtrfsChunkMapItem}

/-! ## The array and the list -/

theorem moveUp_apply {slot n : Nat} (h : slot ≤ n) (i : Nat) :
    moveUp arr slot n i = if slot < i ∧ i ≤ n then arr (i - 1) else arr i := by
  induction n generalizing arr with
  | zero =>
    rw [moveUp, if_neg]
    omega
  | succ n ih =>
    rw [moveUp]
    obtain rfl | hlt := Nat.eq_or_lt_of_le h
    · rw [if_neg (lt_irrefl _), if_neg]
      omega
    · rw [if_pos hlt, ih (Nat.le_of_lt_succ hlt)]
      by_cases hi : i = n + 1
      · rw [if_neg (by omega), if_pos (by omega), hi, put_self, Nat.add_sub_cancel]
      · rw [put_of_ne _ hi]
        by_cases hin : slot < i ∧ i ≤ n
        · rw [if_pos hin, if_pos (by omega), put_of_ne _ (by omega)]
        · rw [if_neg hin, if_neg (by omega)]

theorem binLoop_congr {steps low high : Nat} (h : ∀ i, low ≤ i → i < high → func i = func' i) :
    binLoop func steps low high = binLoop func' steps low high := by
  induction steps generalizing low high with
  | zero => rfl
  | succ steps ih =>
    rw [binLoop, binLoop]
    dsimp only
    by_cases hlt : low < high
    · rw [if_pos hlt, if_pos hlt, h ((low + high) / 2) (by omega) (by omega),
        ih fun i hlo hhi => h i (by omega) hhi, ih fun i hlo hhi => h i hlo (by omega)]
    · rw [if_neg hlt, if_neg hlt]

/-- The array holds a list. -/
structure BtrfsChunkMap.Holds (m : BtrfsChunkMap) (map : List BtrfsChunkMapItem) : Prop where
  curLength : m.curLength = map.length
  none_iff : m.map = none ↔ map = []
  entry : ∀ i < map.length, m.entry i = mapEntry map i

theorem BtrfsChunkMap.Holds.search (h : m.Holds map) (item : BtrfsChunkMapItem) :
    binSearch (fun i => btrfsCompChunkMap (m.entry i) item) 0 m.curLength =
      binSearch (fun i => btrfsCompChunkMap (mapEntry map i) item) 0 map.length := by
  rw [h.curLength]
  exact binLoop_congr fun i _ hi => by rw [h.entry i hi]

theorem mapEntry_insert {slot : Nat} (h : slot ≤ map.length) (item : BtrfsChunkMapItem) (i : Nat) :
    mapEntry (map.take slot ++ item :: map.drop slot) i =
      if i < slot then mapEntry map i else if i = slot then item else mapEntry map (i - 1) := by
  have hlen : (map.take slot).length = slot := List.length_take_of_le h
  rw [mapEntry, List.getD_eq_getElem?_getD, List.getElem?_append, hlen]
  split_ifs with hlt heq
  · rw [List.getElem?_take_of_lt hlt, ← List.getD_eq_getElem?_getD, mapEntry]
  · rw [heq, Nat.sub_self, List.getElem?_cons_zero, Option.getD_some]
  · rw [show i - slot = i - 1 - slot + 1 by omega, List.getElem?_cons_succ, List.getElem?_drop,
      Nat.add_sub_cancel' (by omega), ← List.getD_eq_getElem?_getD, mapEntry]

/-- An insertion into the array is one into the list. -/
theorem BtrfsChunkMap.Holds.insertMap (h : m.Holds map) (hord : Ordered map)
    (item : BtrfsChunkMapItem) : (m.insertMap fresh item).Holds (Btrfs.insertMap map item) := by
  obtain ⟨ret, slot, hfound, -, hmissed⟩ := binSearch_map hord item
  have hsearch := (h.search item).trans hfound
  unfold BtrfsChunkMap.insertMap Btrfs.insertMap
  rw [hfound]
  cases harr : m.map with
  | none =>
    rw [if_pos (h.none_iff.mp harr)]
    refine ⟨rfl, ⟨fun hnone => (nomatch hnone), fun hnil => (nomatch hnil)⟩, fun i hi => ?_⟩
    obtain rfl := Nat.lt_one_iff.mp hi
    exact @put_self _ fresh 0 item
  | some arr =>
    have hentry : m.entry = arr := by
      funext i
      rw [BtrfsChunkMap.entry, harr, Option.elim_some]
    have hne : map ≠ [] := fun hnil => by
      rw [h.none_iff.mpr hnil] at harr
      cases harr
    rw [if_neg hne]
    dsimp only
    rw [← hentry, hsearch]
    dsimp only
    by_cases hret : ret = 0
    · rw [if_pos hret, if_pos hret]
      exact h
    · rw [if_neg hret, if_neg hret, h.curLength]
      by_cases hfull : map.length = btrfsMaxChunkEntries
      · rw [if_pos hfull, if_pos hfull]
        exact h
      · obtain ⟨hslot, -, -⟩ := hmissed hret
        rw [if_neg hfull, if_neg hfull]
        have hlen : (map.take slot ++ item :: map.drop slot).length = map.length + 1 := by
          rw [List.length_append, List.length_cons, List.length_take_of_le hslot,
            List.length_drop]
          omega
        refine ⟨hlen.symm, ⟨fun hnone => (nomatch hnone), fun hnil => ?_⟩, fun i hi => ?_⟩
        · rw [hnil] at hlen
          cases hlen
        · rw [hlen] at hi
          rw [mapEntry_insert hslot, BtrfsChunkMap.entry, Option.elim_some]
          by_cases heq : i = slot
          · rw [heq, put_self, if_neg (lt_irrefl _), if_pos rfl]
          · rw [put_of_ne _ heq, moveUp_apply hslot, if_neg heq]
            by_cases hlt : i < slot
            · rw [if_neg (by omega), if_pos hlt, h.entry i (by omega)]
            · rw [if_pos (by omega), if_neg hlt, h.entry (i - 1) (by omega)]

/-- A translation by the array is one by the list. -/
theorem BtrfsChunkMap.Holds.logicalPhysical (h : m.Holds map) (hord : Ordered map)
    (logical : UInt64) : m.logicalPhysical logical = Btrfs.logicalPhysical map logical := by
  obtain ⟨ret, slot, hfound, hzero, hmissed⟩ := binSearch_map hord ⟨logical, 0, 0, 0⟩
  have hsearch := (h.search ⟨logical, 0, 0, 0⟩).trans hfound
  rw [BtrfsChunkMap.logicalPhysical, Btrfs.logicalPhysical, hsearch, hfound]
  dsimp only
  by_cases hfront : ret ≠ 0 ∧ slot = 0
  · rw [if_pos hfront, if_pos hfront]
  · have hlt : (if ret = 0 then slot + 1 else slot) - 1 < map.length := by
      by_cases hret : ret = 0
      · rw [if_pos hret, Nat.add_sub_cancel]
        exact (hzero hret).1
      · have hle := (hmissed hret).1
        rw [if_neg hret]
        omega
    rw [if_neg hfront, if_neg hfront, h.entry _ hlt]

/-! ## Some insertions -/

/-- The range of one chunk begins in that of the other. -/
def BtrfsChunkMapItem.Meets (a b : BtrfsChunkMapItem) : Prop :=
  a.Covers b.logical.toNat ∨ b.Covers a.logical.toNat

instance (a b : BtrfsChunkMapItem) : Decidable (a.Meets b) :=
  inferInstanceAs (Decidable ((_ ≤ _ ∧ _ < _) ∨ _ ≤ _ ∧ _ < _))

/-- The ranges of the chunks do not overlap, and their ends are 64-bit numbers. -/
structure Separate (items : List BtrfsChunkMapItem) : Prop where
  apart : ∀ a ∈ items, ∀ b ∈ items, a ≠ b → ¬a.Meets b
  end_lt : ∀ a ∈ items, a.logical.toNat + a.length.toNat < 2 ^ 64

/-- What the map holds after some insertions: chunks of these, one for each start. -/
structure MapOf (items map : List BtrfsChunkMapItem) : Prop where
  ordered : Ordered map
  mem : ∀ e ∈ map, e ∈ items
  starts : ∀ item ∈ items, ∃ e ∈ map, e.logical = item.logical

/-- A list without repetitions is no longer than one that has its elements, even without its
repetitions. -/
theorem length_le_dedup [DecidableEq α] {xs ys : List α} (hnodup : xs.Nodup) (hsub : xs ⊆ ys) :
    xs.length ≤ ys.dedup.length :=
  (List.Nodup.subperm hnodup fun _ ha => List.mem_dedup.mpr (hsub ha)).length_le

/-- One more chunk. -/
theorem MapOf.insertMap (h : MapOf items map)
    (hlen : ((items ++ [item]).map (·.logical)).dedup.length ≤ btrfsMaxChunkEntries) :
    MapOf (items ++ [item]) (Btrfs.insertMap map item) := by
  have hold : ∀ e ∈ map, e ∈ items ++ [item] := fun e he => List.mem_append_left _ (h.mem e he)
  by_cases hmem : ∃ e ∈ map, e.logical = item.logical
  · obtain ⟨e, he, heq⟩ := hmem
    rw [insertMap_of_mem h.ordered he heq]
    refine ⟨h.ordered, hold, fun x hx => ?_⟩
    rcases List.mem_append.mp hx with hx | hx
    · exact h.starts x hx
    · obtain rfl := List.mem_singleton.mp hx
      exact ⟨e, he, heq⟩
  · have hnew : ∀ e ∈ map, e.logical ≠ item.logical := fun e he heq => hmem ⟨e, he, heq⟩
    have hroom : map.length < btrfsMaxChunkEntries := by
      -- the start of the new chunk is one more
      have hnodup : (item.logical :: map.map (·.logical)).Nodup := by
        refine List.nodup_cons.mpr ⟨fun hin => ?_, h.ordered.nodup⟩
        obtain ⟨e, he, heq⟩ := List.mem_map.mp hin
        exact hnew e he heq
      have hsub : item.logical :: map.map (·.logical) ⊆ (items ++ [item]).map (·.logical) := by
        intro a ha
        rcases List.mem_cons.mp ha with rfl | ha
        · exact List.mem_map_of_mem (List.mem_append_right _ (List.mem_singleton_self item))
        · obtain ⟨e, he, rfl⟩ := List.mem_map.mp ha
          exact List.mem_map_of_mem (hold e he)
      have hle := length_le_dedup hnodup hsub
      rw [List.length_cons, List.length_map] at hle
      omega
    obtain ⟨hord, -, hiff⟩ := insertMap_of_not_mem h.ordered hroom hnew
    refine ⟨hord, fun e he => ?_, fun x hx => ?_⟩
    · rcases (hiff e).mp he with rfl | he
      · exact List.mem_append_right _ (List.mem_singleton_self e)
      · exact hold e he
    · rcases List.mem_append.mp hx with hx | hx
      · obtain ⟨e, he, heq⟩ := h.starts x hx
        exact ⟨e, (hiff e).mpr (Or.inr he), heq⟩
      · obtain rfl := List.mem_singleton.mp hx
        exact ⟨x, (hiff x).mpr (Or.inl rfl), rfl⟩

/-- The array after some insertions. -/
theorem chunkMapOf_holds
    (hlen : (items.map (·.logical)).dedup.length ≤ btrfsMaxChunkEntries) :
    ∃ map, MapOf items map ∧ (chunkMapOf fresh items).Holds map := by
  induction items using List.reverseRecOn with
  | nil => exact ⟨[], ⟨.nil, fun e he => he, fun e he => (nomatch he)⟩,
      ⟨rfl, ⟨fun _ => rfl, fun _ => rfl⟩, fun i hi => absurd hi (Nat.not_lt_zero i)⟩⟩
  | append_singleton items item ih =>
    have hmono : (items.map (·.logical)).dedup.length ≤
        ((items ++ [item]).map (·.logical)).dedup.length := by
      refine length_le_dedup (List.nodup_dedup _) fun a ha => ?_
      obtain ⟨e, he, rfl⟩ := List.mem_map.mp (List.mem_dedup.mp ha)
      exact List.mem_map_of_mem (List.mem_append_left _ he)
    obtain ⟨map, hmap, hholds⟩ := ih (hmono.trans hlen)
    refine ⟨_, hmap.insertMap hlen, ?_⟩
    rw [chunkMapOf, List.foldl_append, List.foldl_cons, List.foldl_nil]
    exact hholds.insertMap hmap.ordered item

/-- An address in none of the chunks of a map is not translated. -/
theorem logicalPhysical_eq_neg_one {logical : UInt64} (hord : Ordered map)
    (hend : ∀ e ∈ map, e.logical.toNat + e.length.toNat < 2 ^ 64)
    (hnone : ∀ e ∈ map, ¬e.Covers logical.toNat) : logicalPhysical map logical = -1 := by
  obtain ⟨ret, slot, hsearch, hfound, hmissed⟩ := binSearch_map hord ⟨logical, 0, 0, 0⟩
  rw [logicalPhysical, hsearch]
  dsimp only
  by_cases hfront : ret ≠ 0 ∧ slot = 0
  · rw [if_pos hfront]
  · -- the entry that is taken begins at the address or in front of it
    obtain ⟨hlt, hstart⟩ : (if ret = 0 then slot + 1 else slot) - 1 < map.length ∧
        (mapEntry map ((if ret = 0 then slot + 1 else slot) - 1)).logical.toNat ≤
          logical.toNat := by
      by_cases hret : ret = 0
      · obtain ⟨hlt, heq⟩ := hfound hret
        rw [if_pos hret, Nat.add_sub_cancel]
        exact ⟨hlt, Nat.le_of_eq (congrArg UInt64.toNat heq)⟩
      · obtain ⟨hle, hbelow, -⟩ := hmissed hret
        have hpos : slot ≠ 0 := fun hzero => hfront ⟨hret, hzero⟩
        rw [if_neg hret]
        exact ⟨by omega, (hbelow (slot - 1) (by omega)).le⟩
    have hmem := mapEntry_mem hlt
    rw [if_neg hfront, if_pos]
    rw [ge_iff_le, UInt64.le_iff_toNat_le, UInt64.toNat_add, Nat.mod_eq_of_lt (hend _ hmem)]
    exact Nat.le_of_not_lt fun hin => hnone _ hmem ⟨hstart, hin⟩

/-- The chunks of a map are apart when those inserted are separate. -/
theorem MapOf.apart {f : BtrfsChunkMapItem} (h : MapOf items map) (hsep : Separate items)
    (he : e ∈ map) (hf : f ∈ map) : Apart e f := by
  refine ⟨hsep.end_lt e (h.mem e he), fun heq => ?_, fun hlt => ?_⟩
  · have hsame : e = f := by
      by_contra hne
      obtain ⟨i, hi, rfl⟩ := mem_iff_mapEntry.mp he
      obtain ⟨j, hj, rfl⟩ := mem_iff_mapEntry.mp hf
      rcases Nat.lt_trichotomy i j with hij | rfl | hij
      · exact absurd (congrArg UInt64.toNat heq) (h.ordered.lt hij hj).ne
      · exact hne rfl
      · exact absurd (congrArg UInt64.toNat heq) (h.ordered.lt hij hi).ne'
    rw [hsame]
    exact ⟨rfl, rfl⟩
  · have hne : e ≠ f := fun heq => lt_irrefl _ (heq ▸ hlt)
    by_contra hover
    exact hsep.apart e (h.mem e he) f (h.mem f hf) hne
      (Or.inl ⟨hlt.le, Nat.lt_of_not_le hover⟩)

/-- A chunk that has an address is in the map. -/
theorem MapOf.mem_of_covers (h : MapOf items map) (hsep : Separate items) (he : e ∈ items)
    {x : Nat} (hx : e.Covers x) : e ∈ map := by
  obtain ⟨f, hf, heq⟩ := h.starts e he
  have hsame : e = f := by
    by_contra hne
    refine hsep.apart e he f (h.mem f hf) hne (Or.inl ?_)
    rw [heq]
    obtain ⟨hlow, hhigh⟩ := hx
    exact ⟨Nat.le_refl _, by omega⟩
  exact hsame ▸ hf

/-- After any insertions of chunks with at most 256 starts the map is sorted, with one item for each
start. When the chunks are separate, an address is translated by the chunk that has it, and -1
stands for an address that is in no chunk. -/
theorem chunk_map_sorted_translates (fresh : Nat → BtrfsChunkMapItem)
    (items : List BtrfsChunkMapItem)
    (hlen : (items.map (·.logical)).dedup.length ≤ btrfsMaxChunkEntries) :
    (∀ i j, i < j → j < (chunkMapOf fresh items).curLength →
      ((chunkMapOf fresh items).entry i).logical < ((chunkMapOf fresh items).entry j).logical) ∧
    (∀ a, a ∈ items.map (·.logical) ↔ ∃ i < (chunkMapOf fresh items).curLength,
      ((chunkMapOf fresh items).entry i).logical = a) ∧
    (Separate items → ∀ x : UInt64,
      (∀ e ∈ items, e.Covers x.toNat →
        (chunkMapOf fresh items).logicalPhysical x = e.physical + (x - e.logical)) ∧
      ((∀ e ∈ items, ¬e.Covers x.toNat) → (chunkMapOf fresh items).logicalPhysical x = -1)) := by
  obtain ⟨map, hmap, hholds⟩ := @chunkMapOf_holds items fresh hlen
  refine ⟨fun i j hij hj => ?_, fun a => ⟨fun ha => ?_, ?_⟩, fun hsep x => ⟨?_, fun hnone => ?_⟩⟩
  · rw [hholds.curLength] at hj
    rw [hholds.entry i (hij.trans hj), hholds.entry j hj, UInt64.lt_iff_toNat_lt]
    exact hmap.ordered.lt hij hj
  · obtain ⟨item, hitem, rfl⟩ := List.mem_map.mp ha
    obtain ⟨e, he, heq⟩ := hmap.starts item hitem
    obtain ⟨i, hi, rfl⟩ := mem_iff_mapEntry.mp he
    rw [hholds.curLength]
    exact ⟨i, hi, by rw [hholds.entry i hi, heq]⟩
  · rintro ⟨i, hi, rfl⟩
    rw [hholds.curLength] at hi
    rw [hholds.entry i hi]
    exact List.mem_map_of_mem (hmap.mem _ (mapEntry_mem hi))
  · intro e he hx
    have hin := hmap.mem_of_covers hsep he hx
    rw [hholds.logicalPhysical hmap.ordered, UInt64.sub_eq_add_neg, ← UInt64.add_assoc,
      ← UInt64.sub_eq_add_neg]
    exact logicalPhysical_eq hmap.ordered hin (fun f hf => hmap.apart hsep hin hf) hx
  · rw [hholds.logicalPhysical hmap.ordered]
    exact logicalPhysical_eq_neg_one hmap.ordered
      (fun e he => hsep.end_lt e (hmap.mem e he)) fun e he => hnone e (hmap.mem e he)

/-- Two chunks, in the wrong order and one of them twice. -/
def twoChunks : List BtrfsChunkMapItem := [⟨100, 10, 1, 500⟩, ⟨0, 50, 1, 1000⟩, ⟨100, 10, 1, 500⟩]

/-- An address in the second chunk, and one between the chunks. -/
theorem chunk_map_sorted_translates_two :
    (chunkMapOf (fun _ => ⟨0, 0, 0, 0⟩) twoChunks).logicalPhysical 105 = 505 ∧
      (chunkMapOf (fun _ => ⟨0, 0, 0, 0⟩) twoChunks).logicalPhysical 60 = -1 := by
  obtain ⟨-, -, htranslates⟩ :=
    chunk_map_sorted_translates (fun _ => ⟨0, 0, 0, 0⟩) twoChunks (by decide)
  have hsep : Separate twoChunks := ⟨by decide, by decide⟩
  refine ⟨?_, (htranslates hsep 60).2 ?_⟩
  · exact (htranslates hsep 105).1 ⟨100, 10, 1, 500⟩ (List.mem_cons_self ..)
      ⟨by decide, by decide⟩
  · intro e he hcovers
    rcases hcovers with ⟨hlow, hhigh⟩
    revert e
    decide

end Liigboot.Fs.Btrfs
