import Liigboot.Fs.Btrfs.ChunkMap
import Liigboot.Fs.Btrfs.Landing
import Liigboot.Lib.Bytes
import Mathlib.Data.List.Dedup
import Mathlib.Data.List.Perm.Subperm

/-!
# Reading the chunk tree of btrfs

The chunk items of a volume lie in a tree of their own, together with others. The scan begins
where the search for the first possible key ends, and goes on for as long as the items are chunks.
The blocks of the tree are read through the map that it fills.
-/

namespace Liigboot.Fs.Btrfs

/-! ## The source -/

/-- `BTRFS_SUPER_FLAG_METADUMP`. -/
def btrfsSuperFlagMetadump : UInt64 := 1 <<< (33 : UInt64)

/-- `struct btrfs_super_block`, as far as the scan uses it. -/
structure BtrfsSuperBlock where
  flags : UInt64
  chunkRoot : Nat
  nodesize : UInt32
  leafsize : UInt32
  deriving DecidableEq, Repr

/-- `btrfs_comp_keys_type`. -/
def btrfsCompKeysType (k1 k2 : BtrfsDiskKey) : Int :=
  if k1.objectid > k2.objectid then 1
  else if k1.objectid < k2.objectid then -1
  else if k1.type > k2.type then 1
  else if k1.type < k2.type then -1
  else 0

/-- The size of `struct btrfs_chunk`. -/
def chunkSize : Nat := 80

/-- The entry of the map for an item of the tree: `length`, `stripe.devid` and `stripe.offset` of
`struct btrfs_chunk`. -/
def chunkMapItem (item : BtrfsItem) (data : List UInt8) : BtrfsChunkMapItem where
  logical := item.key.offset
  length := UInt64.ofNat (readLe data 0 8)
  devid := UInt64.ofNat (readLe data 48 8)
  physical := UInt64.ofNat (readLe data 56 8)

/-- The blocks at logical addresses, read from a volume through a map. -/
def blockAt (sb : BtrfsSuperBlock) (image : UInt64 → Block) (map : List BtrfsChunkMapItem) :
    BtrfsDisk where
  nodesize := sb.nodesize
  leafsize := sb.leafsize
  block loffset := image (logicalPhysical map (UInt64.ofNat loffset))

/-- The loops of `btrfs_read_chunk_tree`, for a number of items that is enough. -/
def chunkLoop (sb : BtrfsSuperBlock) (image : UInt64 → Block) (key : BtrfsDiskKey) (depth : Nat) :
    Nat → List BtrfsChunkMapItem → BtrfsPath → Option (List BtrfsChunkMapItem)
  | 0, _, _ => none
  | steps + 1, map, path =>
    -- Behind the inner loop the test is made again, so that its break ends both.
    if btrfsCompKeysType key path.item.key ≠ 0 then some map
    else
      let map := insertMap map (chunkMapItem path.item path.data)
      match nextSlot (blockAt sb image map) key depth path with
      | none => none
      | some (0, path) => chunkLoop sb image key depth steps map path
      | some (_ + 1, path) =>
        if btrfsCompKeysType key path.item.key ≠ 0 then some map
        else
          match nextLeaf (blockAt sb image map) key depth path with
          | none => none
          | some (0, path) => chunkLoop sb image key depth steps map path
          | some (_ + 1, _) => some map

/-- The key that the scan searches for: `BTRFS_FIRST_CHUNK_TREE_OBJECTID`,
`BTRFS_CHUNK_ITEM_KEY`. -/
def chunkKey : BtrfsDiskKey := ⟨256, 228, 0⟩

/-- `btrfs_read_chunk_tree`: the map behind it. -/
def btrfsReadChunkTree (image : UInt64 → Block) (sb : BtrfsSuperBlock) (depth steps : Nat)
    (map : List BtrfsChunkMapItem) : Option (List BtrfsChunkMapItem) :=
  if sb.flags &&& btrfsSuperFlagMetadump ≠ 0 then some map
  else
    match searchTree (blockAt sb image map) chunkKey depth sb.chunkRoot clearPath with
    | none => none
    | some (_, path) => chunkLoop sb image chunkKey depth steps map path

/-! ## Well-formed chunk trees -/

/-- The items of a tree that are chunks. -/
def BtrfsTree.chunkVisits (t : BtrfsTree) : List Visit :=
  (allVisits t.disk t.level t.root).filter fun v => btrfsCompKeysType chunkKey v.item.key = 0

/-- The chunks of a tree. -/
def BtrfsTree.chunks (t : BtrfsTree) : List BtrfsChunkMapItem :=
  t.chunkVisits.map fun v => chunkMapItem v.item v.data

/-- All blocks of a tree lie in chunks of the map. -/
def BlocksMapped (disk : BtrfsDisk) (map : List BtrfsChunkMapItem) : Nat → Nat → Prop
  | 0, loffset => ∃ e ∈ map, e.Covers loffset
  | level + 1, loffset => (∃ e ∈ map, e.Covers loffset) ∧
    ∀ i < entries disk loffset, BlocksMapped disk map level (childOf disk loffset i)

/-- A chunk tree, and a map that leads to its blocks. The chunks of the tree and those of the map
are apart, and they all fit into the map. -/
structure ChunkTree (image : UInt64 → Block) (sb : BtrfsSuperBlock)
    (map : List BtrfsChunkMapItem) extends BtrfsTree where
  disk_eq : disk = blockAt sb image map
  root_eq : root = sb.chunkRoot
  exact : ExactKeys disk level root
  mapped : BlocksMapped disk map level root
  ordered : Ordered map
  size_le : ∀ v ∈ toBtrfsTree.chunkVisits, chunkSize ≤ v.data.length
  apart : ∀ a ∈ map ++ toBtrfsTree.chunks, ∀ b ∈ map ++ toBtrfsTree.chunks, Apart a b
  room : ((map ++ toBtrfsTree.chunks).map BtrfsChunkMapItem.logical).dedup.length ≤
    btrfsMaxChunkEntries

/-- A map contains a chunk: its first address, its length and where it lies. -/
def Contains (map : List BtrfsChunkMapItem) (c : BtrfsChunkMapItem) : Prop :=
  ∃ e ∈ map, e.logical = c.logical ∧ e.length = c.length ∧ e.physical = c.physical

/-- The tree is read, and no item lies in front of its chunks, or the first chunk has the address
0. -/
def StartsAtChunk (sb : BtrfsSuperBlock) (t : BtrfsTree) : Prop :=
  sb.flags &&& btrfsSuperFlagMetadump = 0 ∧
    ((∀ v ∈ allVisits t.disk t.level t.root, chunkKey.rank ≤ v.item.key.rank) ∨
      ∃ v ∈ allVisits t.disk t.level t.root, v.item.key = chunkKey)

/-- What the scan reads fits, unless it reads nothing. -/
def ScanFits (sb : BtrfsSuperBlock) (t : BtrfsTree) : Prop :=
  sb.flags &&& btrfsSuperFlagMetadump = 0 → t.Fits

/-- Behind a chunk, no step to the next item leaves a slot behind. -/
def ChunksClimb (t : BtrfsTree) : Prop :=
  (allVisits t.disk t.level t.root).IsChain fun v w =>
    btrfsCompKeysType chunkKey v.item.key = 0 → climbOk v.slots w.slots = true

/-- The map contains all chunks of a tree behind the scan. -/
def ReadsAllChunks (image : UInt64 → Block) (sb : BtrfsSuperBlock) (depth : Nat)
    (map : List BtrfsChunkMapItem) (t : BtrfsTree) : Prop :=
  ∃ steps map', btrfsReadChunkTree image sb depth steps map = some map' ∧
    ∀ c ∈ t.chunks, Contains map' c

variable {image : UInt64 → Block} {sb : BtrfsSuperBlock} {map map' : List BtrfsChunkMapItem}
  {disk disk' : BtrfsDisk} {key : BtrfsDiskKey} {depth level loffset : Nat}
  {path path' : BtrfsPath} {c e : BtrfsChunkMapItem}

/-! ## Chunk keys -/

/-- The keys of chunks are one range. -/
theorem chunkKey_iff (k : BtrfsDiskKey) : btrfsCompKeysType chunkKey k = 0 ↔
    chunkKey.rank ≤ k.rank ∧ k.rank < chunkKey.rank + 2 ^ 64 := by
  have h1 := k.offset.toNat_lt
  have h2 := k.type.toNat_lt
  have hobjectid : chunkKey.objectid.toNat = 256 := rfl
  have htype : chunkKey.type.toNat = 228 := rfl
  have hoffset : chunkKey.offset.toNat = 0 := rfl
  rw [btrfsCompKeysType, BtrfsDiskKey.rank, BtrfsDiskKey.rank]
  simp only [gt_iff_lt, UInt64.lt_iff_toNat_lt, UInt8.lt_iff_toNat_lt]
  rw [hobjectid, htype, hoffset]
  split_ifs
  · omega
  · exact iff_of_false id (by omega)
  · omega
  · exact iff_of_false id (by omega)
  · omega

/-! ## The blocks of the tree while the map grows -/

/-- Two disks have the same tree. -/
def SameTree (disk disk' : BtrfsDisk) : Nat → Nat → Prop
  | 0, loffset => disk loffset = disk' loffset
  | level + 1, loffset => disk loffset = disk' loffset ∧
    ∀ i < entries disk loffset, SameTree disk disk' level (childOf disk loffset i)

/-- The root of a tree that is the same on both disks is the same block. -/
theorem SameTree.block_eq (h : SameTree disk disk' level loffset) :
    disk loffset = disk' loffset := by
  cases level with
  | zero => exact h
  | succ level => exact h.1

/-- The relation goes both ways. -/
theorem SameTree.symm (h : SameTree disk disk' level loffset) :
    SameTree disk' disk level loffset := by
  induction level generalizing loffset with
  | zero => exact Eq.symm h
  | succ level ih =>
    obtain ⟨hblock, hchildren⟩ := h
    refine ⟨hblock.symm, fun i hi => ?_⟩
    rw [entries, ← hblock] at hi
    rw [childOf, ← hblock]
    exact ih (hchildren i hi)

/-- A block is sound on every disk that has it, and the same sizes. -/
theorem BtrfsDisk.Sound.congr (h : disk.Sound loffset level) (hblock : disk loffset = disk' loffset)
    (hnode : disk.nodesize = disk'.nodesize) (hleaf : disk.leafsize = disk'.leafsize) :
    disk'.Sound loffset level := by
  obtain ⟨hsorted, hptrs, hitems, hdata⟩ := h
  rw [hblock] at hsorted
  rw [hblock, hnode] at hptrs
  rw [hblock, hleaf] at hitems hdata
  exact ⟨hsorted, hptrs, hitems, hdata⟩

/-- The same tree is well formed on both disks. -/
theorem SameTree.wellFormed (h : SameTree disk disk' level loffset)
    (hnode : disk.nodesize = disk'.nodesize) (hleaf : disk.leafsize = disk'.leafsize)
    (hwf : WellFormed disk level loffset) : WellFormed disk' level loffset := by
  induction level generalizing loffset with
  | zero => exact hwf.sound.congr h.block_eq hnode hleaf
  | succ level ih =>
    obtain ⟨hblock, hchildren⟩ := h
    obtain ⟨hsound, hbelow⟩ := hwf
    have hchildOf : childOf disk' loffset = childOf disk loffset := by
      funext i
      rw [childOf, childOf, hblock]
    refine ⟨hsound.congr hblock hnode hleaf, fun i hi => ?_⟩
    rw [entries, ← hblock] at hi
    obtain ⟨hchild, hbound⟩ := hbelow i hi
    have hsame := hchildren i hi
    rw [hchildOf, entries, ← hblock, ← hsame.block_eq]
    exact ⟨ih hsame hchild, hbound⟩

/-- A search takes the same path in the same tree. -/
theorem SameTree.onPath (h : SameTree disk disk' level loffset)
    (hon : OnPath disk key path level loffset) : OnPath disk' key path level loffset := by
  have hblock : OnBlock disk' key path level loffset := by
    obtain ⟨hoffsets, hitemsnr, hlt, hlate⟩ := hon.onBlock
    rw [entries, h.block_eq] at hitemsnr hlt hlate
    exact ⟨hoffsets, hitemsnr, hlt, hlate⟩
  induction level generalizing loffset with
  | zero =>
    obtain ⟨-, hitem, hdata⟩ := hon
    rw [h.block_eq] at hitem hdata
    exact ⟨hblock, hitem, hdata⟩
  | succ level ih =>
    have hchild := h.2 _ hon.1.slot_lt
    refine ⟨hblock, ?_⟩
    rw [childOf, ← h.block_eq]
    refine ih hchild hon.2 ?_
    obtain ⟨hoffsets, hitemsnr, hlt, hlate⟩ := hon.2.onBlock
    rw [entries, hchild.block_eq] at hitemsnr hlt hlate
    exact ⟨hoffsets, hitemsnr, hlt, hlate⟩

/-! ## Filling the map -/

/-- A larger map still contains the chunk. -/
theorem Contains.mono (h : Contains map c) (hsub : ∀ e ∈ map, e ∈ map') : Contains map' c := by
  obtain ⟨e, he, hsame⟩ := h
  exact ⟨e, hsub e he, hsame⟩

/-- A map on the way from the first one: it keeps the entries of that, and holds chunks of the tree
besides. -/
structure Filling (map chunks map' : List BtrfsChunkMapItem) : Prop where
  ordered : Ordered map'
  keeps : ∀ e ∈ map, e ∈ map'
  subset : ∀ e ∈ map', e ∈ map ++ chunks

/-- The tree of blocks is the same through every map on the way. -/
theorem Filling.sameTree {chunks : List BtrfsChunkMapItem} (hfill : Filling map chunks map')
    (hord : Ordered map) (hapart : ∀ a ∈ map ++ chunks, ∀ b ∈ map ++ chunks, Apart a b)
    (hmapped : BlocksMapped (blockAt sb image map) map level loffset) :
    SameTree (blockAt sb image map) (blockAt sb image map') level loffset := by
  have hblock : ∀ loffset, (∃ e ∈ map, e.Covers loffset) →
      blockAt sb image map loffset = blockAt sb image map' loffset := by
    rintro loffset ⟨e, he, hcovers⟩
    have heAll := List.mem_append_left chunks he
    have hwhole := (hapart e heAll e heAll).1
    have hsame : (UInt64.ofNat loffset).toNat = loffset :=
      UInt64.toNat_ofNat_of_lt' (hcovers.2.trans hwhole)
    rw [← hsame] at hcovers
    change image (logicalPhysical map _) = image (logicalPhysical map' _)
    rw [logicalPhysical_eq hord he (fun f hf => hapart e heAll f (List.mem_append_left chunks hf))
        hcovers,
      logicalPhysical_eq hfill.ordered (hfill.keeps e he)
        (fun f hf => hapart e heAll f (hfill.subset f hf)) hcovers]
  induction level generalizing loffset with
  | zero => exact hblock loffset hmapped
  | succ level ih =>
    obtain ⟨hhead, hchildren⟩ := hmapped
    exact ⟨hblock loffset hhead, fun i hi => ih (hchildren i hi)⟩

/-- Another chunk of the tree is entered. -/
theorem Filling.insert {chunks : List BtrfsChunkMapItem} (hfill : Filling map chunks map')
    (hapart : ∀ a ∈ map ++ chunks, ∀ b ∈ map ++ chunks, Apart a b)
    (hroom : ((map ++ chunks).map BtrfsChunkMapItem.logical).dedup.length ≤ btrfsMaxChunkEntries)
    (hc : c ∈ chunks) :
    Filling map chunks (insertMap map' c) ∧ (∀ e ∈ map', e ∈ insertMap map' c) ∧
      Contains (insertMap map' c) c := by
  have hcAll := List.mem_append_right map hc
  by_cases hold : ∃ e ∈ map', e.logical = c.logical
  · obtain ⟨e, he, heq⟩ := hold
    rw [insertMap_of_mem hfill.ordered he heq]
    obtain ⟨hlength, hphysical⟩ := (hapart e (hfill.subset e he) c hcAll).2.1 heq
    exact ⟨hfill, fun _ he => he, e, he, heq, hlength, hphysical⟩
  · have hnew : ∀ e ∈ map', e.logical ≠ c.logical := fun e he heq => hold ⟨e, he, heq⟩
    have hlt : map'.length < btrfsMaxChunkEntries := by
      have hnodup : (c.logical :: map'.map BtrfsChunkMapItem.logical).Nodup := by
        refine List.nodup_cons.mpr ⟨fun hmem => ?_, hfill.ordered.nodup⟩
        obtain ⟨e, he, heq⟩ := List.mem_map.mp hmem
        exact hnew e he heq
      have hsub : c.logical :: map'.map BtrfsChunkMapItem.logical ⊆
          ((map ++ chunks).map BtrfsChunkMapItem.logical).dedup := by
        intro x hx
        rw [List.mem_dedup]
        rcases List.mem_cons.mp hx with rfl | hx
        · exact List.mem_map_of_mem hcAll
        · obtain ⟨e, he, rfl⟩ := List.mem_map.mp hx
          exact List.mem_map_of_mem (hfill.subset e he)
      have hlength := (hnodup.subperm hsub).length_le
      rw [List.length_cons, List.length_map] at hlength
      omega
    obtain ⟨hord, -, hmem⟩ := insertMap_of_not_mem hfill.ordered hlt hnew
    refine ⟨⟨hord, fun e he => ?_, fun e he => ?_⟩, fun e he => (hmem e).mpr (Or.inr he), c,
      (hmem c).mpr (Or.inl rfl), rfl, rfl, rfl⟩
    · exact (hmem e).mpr (Or.inr (hfill.keeps e he))
    · rcases (hmem e).mp he with rfl | he
      · exact hcAll
      · exact hfill.subset e he

/-! ## The scan -/

/-- A next slot that finds nothing leaves the path. -/
theorem nextSlot_stays {ret : Nat} (h : nextSlot disk key depth path = some (ret + 1, path')) :
    path' = path := by
  rw [nextSlot] at h
  dsimp only at h
  split_ifs at h
  · exact (Prod.mk.inj (Option.some.inj h)).2.symm
  · exact (Prod.mk.inj (Option.some.inj h)).2.symm
  · obtain ⟨found, -, heq⟩ := Option.map_eq_some_iff.mp h
    exact absurd (Prod.mk.inj heq).1 (Nat.succ_ne_zero ret).symm

/-- The loop ends at the first item that is no chunk item. -/
theorem chunkLoop_other (steps : Nat) (h : btrfsCompKeysType key path.item.key ≠ 0) :
    chunkLoop sb image key depth (steps + 1) map path = some map := by
  rw [chunkLoop]
  exact if_pos h

/-- With a chunk, the loops enter it and go on with the next item. -/
theorem chunkLoop_chunk (steps : Nat) (h : btrfsCompKeysType key path.item.key = 0) :
    chunkLoop sb image key depth (steps + 1) map path =
      match nextPath (blockAt sb image (insertMap map (chunkMapItem path.item path.data))) key depth
        path with
      | none => none
      | some none => some (insertMap map (chunkMapItem path.item path.data))
      | some (some path') => chunkLoop sb image key depth steps
          (insertMap map (chunkMapItem path.item path.data)) path' := by
  rw [chunkLoop, if_neg (not_not.mpr h), nextPath]
  dsimp only
  cases hslot : nextSlot (blockAt sb image (insertMap map (chunkMapItem path.item path.data))) key
    depth path with
  | none => rfl
  | some found =>
    obtain ⟨ret, path'⟩ := found
    cases ret with
    | zero => rfl
    | succ ret =>
      obtain rfl := nextSlot_stays hslot
      dsimp only
      rw [if_neg (not_not.mpr h)]
      rcases nextLeaf (blockAt sb image (insertMap map (chunkMapItem path'.item path'.data))) key depth
        path' with _ | ⟨_ | ret, path''⟩
      · rfl
      · rfl
      · rfl

/-- Through every map on the way, the step behind an item goes to the next item of the tree if it
leaves no slot behind, and ends behind the last item. -/
theorem Filling.nextPath (t : ChunkTree image sb map)
    (hwf : WellFormed t.disk t.level t.root) (hfits : t.disk.Fits t.level) (hdepth : t.level < depth)
    (hfill : Filling map t.chunks map') (h : OnTree t.disk chunkKey path t.level t.root)
    {p : List Nat} {rest : List (List Nat)}
    (hrest : pathsFrom (entries t.disk) (childOf t.disk) path.slots t.level t.root = p :: rest)
    (hclimb : ∀ q ∈ rest.head?,
      climbOk (path.visit t.level).slots (visitAt t.disk t.root q).slots = true) :
    (rest = [] ∧ nextPath (blockAt sb image map') chunkKey depth path = some none) ∨
      ∃ path', nextPath (blockAt sb image map') chunkKey depth path = some (some path') ∧
        OnTree t.disk chunkKey path' t.level t.root ∧
        pathsFrom (entries t.disk) (childOf t.disk) path'.slots t.level t.root = rest := by
  have hmapped := t.mapped
  have hdisk := t.disk_eq
  have hsame : SameTree t.disk (blockAt sb image map') t.level t.root := by
    rw [hdisk] at hmapped ⊢
    exact hfill.sameTree t.ordered t.apart hmapped
  have hnode : t.disk.nodesize = sb.nodesize := by rw [hdisk, blockAt]
  have hleaf : t.disk.leafsize = sb.leafsize := by rw [hdisk, blockAt]
  have hfits' : (blockAt sb image map').Fits t.level := by
    rw [BtrfsDisk.Fits, blockAt, ← hnode, ← hleaf]
    exact hfits
  have h' : OnTree (blockAt sb image map') chunkKey path t.level t.root :=
    ⟨hsame.onPath h.onPath, h.above⟩
  rcases last_or_lowest path.slots path.itemsnr t.level with hlast | ⟨step, hstep, hlast, hmore⟩
  · left
    rw [pathsFrom_last h.onPath.along hlast] at hrest
    obtain ⟨-, rfl⟩ := List.cons.inj hrest
    exact ⟨rfl, nextPath_last h' hlast⟩
  · right
    rw [pathsFrom_next hwf.populated h.onPath.along hstep hlast hmore] at hrest
    obtain ⟨-, htail⟩ := List.cons.inj hrest
    obtain ⟨others, hothers⟩ := pathsFrom_advance_head hwf.populated h.onPath.along hstep hmore
    rw [htail] at hothers
    have hclean : ∀ j, j + 1 < step → path.slots j = 0 := by
      rw [hothers] at hclimb
      exact (climbOk_iff hstep).mp (hclimb _ rfl)
    obtain ⟨path', hnext, hon', hslots⟩ :=
      nextPath_clean (hsame.wellFormed hnode hleaf hwf) hfits' h' t.level_lt hdepth hstep hlast
        hmore hclean
    refine ⟨path', hnext, ⟨hsame.symm.onPath hon'.onPath, hon'.above⟩, ?_⟩
    rw [← htail]
    exact pathsFrom_congr (slotList_inj hslots)

/-- From an item on that is not in front of the chunks, the scan enters all chunks that follow. -/
theorem chunkLoop_run (t : ChunkTree image sb map)
    (hwf : WellFormed t.disk t.level t.root) (hfits : t.disk.Fits t.level) (hdepth : t.level < depth)
    (hfill : Filling map t.chunks map') (h : OnTree t.disk chunkKey path t.level t.root)
    {rest : List (List Nat)}
    (hrest : pathsFrom (entries t.disk) (childOf t.disk) path.slots t.level t.root = rest)
    (hmem : ∀ v ∈ rest.map (visitAt t.disk t.root), v ∈ allVisits t.disk t.level t.root)
    (hsorted : (rest.map (visitAt t.disk t.root)).Pairwise
      fun v w => v.item.key.rank < w.item.key.rank)
    (hclimb : (rest.map (visitAt t.disk t.root)).IsChain fun v w =>
      btrfsCompKeysType chunkKey v.item.key = 0 → climbOk v.slots w.slots = true)
    (hfront : chunkKey.rank ≤ path.item.key.rank) :
    ∃ steps map'', chunkLoop sb image chunkKey depth steps map' path = some map'' ∧
      (∀ e ∈ map', e ∈ map'') ∧
      ∀ v ∈ rest.map (visitAt t.disk t.root), btrfsCompKeysType chunkKey v.item.key = 0 →
        Contains map'' (chunkMapItem v.item v.data) := by
  induction rest generalizing path map' with
  | nil =>
    obtain ⟨rest, hcons⟩ := pathsFrom_head h.onPath.along
    rw [hrest] at hcons
    exact absurd hcons (List.cons_ne_nil _ _).symm
  | cons p rest ih =>
    have hvisit := h.onPath.visit_eq
    have hp : slotList path.slots t.level = p := by
      obtain ⟨tail, htail⟩ := pathsFrom_head h.onPath.along
      rw [hrest] at htail
      exact (List.cons.inj htail).1.symm
    rw [hp] at hvisit
    rw [List.map_cons] at hmem hsorted hclimb ⊢
    rw [← hvisit] at hmem hsorted hclimb ⊢
    obtain ⟨hbehind, hsortedRest⟩ := List.pairwise_cons.mp hsorted
    by_cases hchunk : btrfsCompKeysType chunkKey path.item.key = 0
    · have hc : chunkMapItem path.item path.data ∈ t.chunks :=
        List.mem_map.mpr ⟨path.visit t.level, List.mem_filter.mpr
          ⟨hmem _ List.mem_cons_self, decide_eq_true hchunk⟩, rfl⟩
      obtain ⟨hfill', hkeeps, hcontains⟩ := hfill.insert t.apart t.room hc
      have hclean : ∀ q ∈ rest.head?,
          climbOk (path.visit t.level).slots (visitAt t.disk t.root q).slots = true := by
        intro q hq
        obtain ⟨others, rfl⟩ := List.head?_eq_some_iff.mp hq
        rw [List.map_cons, List.isChain_cons_cons] at hclimb
        exact hclimb.1 hchunk
      rcases hfill'.nextPath t hwf hfits hdepth h hrest hclean with
        ⟨rfl, hnext⟩ | ⟨path', hnext, htree, hrest'⟩
      · refine ⟨1, _, ?_, hkeeps, fun v hv _ => ?_⟩
        · rw [chunkLoop_chunk 0 hchunk, hnext]
        · obtain rfl := List.mem_singleton.mp hv
          exact hcontains
      · have hnextFront : path.item.key.rank < path'.item.key.rank := by
          obtain ⟨tail, htail⟩ := pathsFrom_head htree.onPath.along
          rw [hrest'] at htail
          refine hbehind (path'.visit t.level) ?_
          rw [htree.onPath.visit_eq, htail]
          exact List.mem_map_of_mem List.mem_cons_self
        obtain ⟨steps, map'', hloop, hsub, hall⟩ := ih hfill' htree hrest'
          (fun v hv => hmem v (List.mem_cons_of_mem _ hv)) hsortedRest hclimb.tail
          (hfront.trans hnextFront.le)
        refine ⟨steps + 1, map'', ?_, fun e he => hsub e (hkeeps e he), fun v hv hv' => ?_⟩
        · rw [chunkLoop_chunk steps hchunk, hnext]
          exact hloop
        · rcases List.mem_cons.mp hv with rfl | hv
          · exact hcontains.mono hsub
          · exact hall v hv hv'
    · refine ⟨1, map', chunkLoop_other 0 hchunk, fun _ he => he, fun v hv hv' => ?_⟩
      have hle := (chunkKey_iff _).mp hv'
      have hpast : ¬path.item.key.rank < chunkKey.rank + 2 ^ 64 := fun hlt =>
        hchunk ((chunkKey_iff _).mpr ⟨hfront, hlt⟩)
      rcases List.mem_cons.mp hv with rfl | hv
      · exact absurd hv' hchunk
      · have hlt : path.item.key.rank < _ := hbehind v hv
        omega

/-- Where the scan starts: not in front of the chunks, and no chunk lies in front of it. -/
theorem startVisit_front (t : ChunkTree image sb map) (hwf : WellFormed t.disk t.level t.root)
    {front rest : List Visit}
    (hall : allVisits t.disk t.level t.root =
      front ++ startVisit t.disk chunkKey t.level t.root :: rest)
    (hstarts : StartsAtChunk sb t.toBtrfsTree) :
    chunkKey.rank ≤ (startVisit t.disk chunkKey t.level t.root).item.key.rank ∧
      ∀ v ∈ front, btrfsCompKeysType chunkKey v.item.key ≠ 0 := by
  have hmem : startVisit t.disk chunkKey t.level t.root ∈ allVisits t.disk t.level t.root := by
    rw [hall]
    exact List.mem_append_right front List.mem_cons_self
  have hfront : ∀ v ∈ front, v ∈ allVisits t.disk t.level t.root ∧
      v.item.key.rank < (startVisit t.disk chunkKey t.level t.root).item.key.rank := by
    intro v hv
    have hsorted := t.sorted
    rw [hall] at hsorted ⊢
    exact ⟨List.mem_append_left _ hv,
      (List.pairwise_append.mp hsorted).2.2 v hv _ List.mem_cons_self⟩
  rcases hstarts.2 with hnone | ⟨u, hu, hkey⟩
  · refine ⟨hnone _ hmem, fun v hv => ?_⟩
    obtain ⟨hvAll, hlt⟩ := hfront v hv
    rcases Nat.lt_or_ge chunkKey.rank ((t.disk t.root).key 0).rank with hbehind | hle
    · rw [startVisit_first hwf t.exact hbehind] at hlt
      exact absurd (first_le_of_mem hwf hvAll) (Nat.not_le.mpr hlt)
    · have hstart := startVisit_le hwf t.exact hle
      have hge := hnone v hvAll
      omega
  · have hle := first_le_of_mem hwf hu
    have hstart := @le_startVisit t.disk chunkKey t.level t.root hwf t.sorted u hu (hkey ▸ le_rfl)
    rw [hkey] at hle hstart
    have hstart' := startVisit_le hwf t.exact hle
    refine ⟨hstart, fun v hv hchunk => ?_⟩
    have hlt := (hfront v hv).2
    have hge := ((chunkKey_iff _).mp hchunk).1
    omega

/-- What the scan begins with: the item that the search ends at, and the items in front of it. -/
theorem chunkScan_start (t : ChunkTree image sb map) (hwf : WellFormed t.disk t.level t.root)
    (hfits : t.disk.Fits t.level) (hdepth : t.level < depth)
    (hflags : sb.flags &&& btrfsSuperFlagMetadump = 0) :
    ∃ path front rest,
      (∀ steps, btrfsReadChunkTree image sb depth steps map =
        chunkLoop sb image chunkKey depth steps map path) ∧
      OnTree t.disk chunkKey path t.level t.root ∧
      path.visit t.level = startVisit t.disk chunkKey t.level t.root ∧
      (pathsFrom (entries t.disk) (childOf t.disk) path.slots t.level t.root).map
          (visitAt t.disk t.root) = startVisit t.disk chunkKey t.level t.root :: rest ∧
      allVisits t.disk t.level t.root =
        front ++ startVisit t.disk chunkKey t.level t.root :: rest := by
  obtain ⟨ret, path, hsearch, htree, hslots, -⟩ :=
    @searchTree_start t.disk chunkKey depth t.level t.root hwf hfits t.level_lt hdepth
  obtain ⟨front, hfront⟩ := paths_eq_append htree.onPath.along
  obtain ⟨rest, hrest⟩ := pathsFrom_head htree.onPath.along
  refine ⟨path, front.map (visitAt t.disk t.root), rest.map (visitAt t.disk t.root),
    fun steps => ?_, htree, ?_, ?_, ?_⟩
  · have hsearch' : searchTree (blockAt sb image map) chunkKey depth sb.chunkRoot clearPath =
        some (ret, path) := by
      rw [← t.disk_eq, ← t.root_eq]
      exact hsearch
    rw [btrfsReadChunkTree, if_neg (not_not.mpr hflags), hsearch']
  · rw [htree.onPath.visit_eq, hslots, startVisit]
  · rw [hrest, List.map_cons, hslots, startVisit]
  · rw [allVisits, hfront, hrest, List.map_append, List.map_cons, hslots, startVisit]

/-- The scan of a root without entries ends. -/
theorem chunkScan_empty (t : ChunkTree image sb map) (hfits : ScanFits sb t.toBtrfsTree)
    (hdepth : t.level < depth) (hlevel : t.level = 0) (hblock : (t.disk t.root).level = 0)
    (hempty : entries t.disk t.root = 0) :
    t.chunks = [] ∧ ∃ map', btrfsReadChunkTree image sb depth 1 map = some map' := by
  constructor
  · rw [BtrfsTree.chunks, BtrfsTree.chunkVisits, allVisits, hlevel, paths, hempty]
    rfl
  · rw [btrfsReadChunkTree, ← t.disk_eq, ← t.root_eq]
    split_ifs with hflags
    · exact ⟨_, rfl⟩
    · obtain ⟨hblocks, hdata⟩ := hfits (not_not.mp hflags)
      obtain ⟨depth, rfl⟩ := Nat.exists_eq_succ_of_ne_zero (Nat.ne_zero_of_lt hdepth)
      obtain ⟨ret, path, hsearch, hitemsnr⟩ :=
        @searchTree_empty t.disk chunkKey depth t.root clearPath hblock hempty hblocks.1 rfl
      rw [hsearch, if_neg (Nat.not_lt.mpr (hdata hempty))]
      dsimp only
      by_cases hchunk : btrfsCompKeysType chunkKey path.item.key = 0
      · have hzero : ∀ j, path.itemsnr j = 0 := by
          intro j
          rw [hitemsnr, store, ite_eq_left_iff]
          exact fun _ => rfl
        rw [chunkLoop_chunk 0 hchunk, nextPath, nextSlot, if_pos (hzero 0)]
        dsimp only
        rw [nextLeaf, btrfsMaxLevel, nextLeafLoop, if_pos (hzero 1)]
        exact ⟨_, rfl⟩
      · rw [chunkLoop_other 0 hchunk]
        exact ⟨_, rfl⟩

/-- The scan of a tree that does not fit overruns the buffer of the search or the data of its path.
-/
theorem chunkScan_unfit (t : ChunkTree image sb map) (hfits : ¬ScanFits sb t.toBtrfsTree)
    (steps : Nat) : btrfsReadChunkTree image sb depth steps map = none := by
  rw [ScanFits, Classical.not_imp] at hfits
  obtain ⟨hflags, hfits⟩ := hfits
  have hsearch : searchTree t.disk chunkKey depth t.root clearPath = none := by
    rcases t.wellFormed with hwf | ⟨hlevel, hblock, hempty⟩
    · refine searchTree_unfit hwf (fun h => hfits ⟨h, fun hempty => ?_⟩) t.level_lt fun _ _ => rfl
      have hpos : 0 < entries t.disk t.root := hwf.sorted.pos
      omega
    · cases depth with
      | zero => rfl
      | succ depth =>
        by_cases hleaf : FitsBuffer t.disk.leafsize
        · obtain ⟨ret, path, hsearch, -⟩ :=
            @searchTree_empty t.disk chunkKey depth t.root clearPath hblock hempty hleaf rfl
          rw [hsearch, if_pos]
          exact Nat.not_le.mp fun h => hfits ⟨⟨hleaf, fun hne => absurd hlevel hne⟩, fun _ => h⟩
        · exact searchTree_of_not_fits hblock hleaf
  rw [btrfsReadChunkTree, if_neg (not_not.mpr hflags), ← t.disk_eq, ← t.root_eq, hsearch]

/-- A scan that fits but does not start at a chunk leaves the map as it is. -/
theorem chunkScan_other (t : ChunkTree image sb map) (hfits : ScanFits sb t.toBtrfsTree)
    (hdepth : t.level < depth) (hnot : ¬StartsAtChunk sb t.toBtrfsTree) :
    (∃ steps, btrfsReadChunkTree image sb depth steps map = some map') ↔ map' = map := by
  by_cases hflags : sb.flags &&& btrfsSuperFlagMetadump = 0
  · obtain ⟨hbefore, hnokey⟩ := not_or.mp fun hstarts => hnot ⟨hflags, hstarts⟩
    rcases t.wellFormed with hwf | ⟨hlevel, -, hempty⟩
    · obtain ⟨path, front, rest, hread, -, hvisit, -, hall⟩ :=
        chunkScan_start t hwf (hfits hflags).blocks hdepth hflags
      have hmem : startVisit t.disk chunkKey t.level t.root ∈
          allVisits t.disk t.level t.root := by
        rw [hall]
        exact List.mem_append_right front List.mem_cons_self
      obtain ⟨v, hv, hlt⟩ : ∃ v ∈ allVisits t.disk t.level t.root,
          v.item.key.rank < chunkKey.rank := by
        by_contra hnone
        exact hbefore fun v hv => Nat.not_lt.mp fun hlt => hnone ⟨v, hv, hlt⟩
      have hle := startVisit_le hwf t.exact ((first_le_of_mem hwf hv).trans hlt.le)
      have hne : (startVisit t.disk chunkKey t.level t.root).item.key.rank ≠ chunkKey.rank :=
        fun heq => hnokey ⟨_, hmem, BtrfsDiskKey.rank_inj heq⟩
      have hother : btrfsCompKeysType chunkKey path.item.key ≠ 0 := by
        intro hchunk
        have hge := ((chunkKey_iff _).mp hchunk).1
        have hsame : path.item = (startVisit t.disk chunkKey t.level t.root).item :=
          congrArg Visit.item hvisit
        rw [hsame] at hge
        omega
      constructor
      · rintro ⟨_ | steps, hsteps⟩
        · rw [hread] at hsteps
          exact nomatch hsteps
        · rw [hread, chunkLoop_other steps hother] at hsteps
          exact (Option.some.inj hsteps).symm
      · rintro rfl
        exact ⟨1, (hread 1).trans (chunkLoop_other 0 hother)⟩
    · refine absurd (fun v hv => ?_) hbefore
      rw [allVisits, hlevel, paths, hempty] at hv
      exact absurd hv List.not_mem_nil
  · have hread : ∀ steps, btrfsReadChunkTree image sb depth steps map = some map :=
      fun steps => if_pos hflags
    constructor
    · rintro ⟨steps, hsteps⟩
      rw [hread] at hsteps
      exact (Option.some.inj hsteps).symm
    · rintro rfl
      exact ⟨0, hread 0⟩

/-- When the tree fits and is read from a chunk on, and no step behind a chunk leaves a slot behind,
the map contains all chunks of the tree behind the scan. When the tree is not read from a chunk on,
it does if and only if the tree fits, unless it is not read at all, and the map contained the chunks
before. -/
theorem chunks_read_iff (t : ChunkTree image sb map) (depth : Nat) (hdepth : t.level < depth) :
    (ScanFits sb t.toBtrfsTree → StartsAtChunk sb t.toBtrfsTree → ChunksClimb t.toBtrfsTree →
      ReadsAllChunks image sb depth map t.toBtrfsTree) ∧
    (¬ScanFits sb t.toBtrfsTree → ¬ReadsAllChunks image sb depth map t.toBtrfsTree) ∧
    (¬StartsAtChunk sb t.toBtrfsTree →
      (ReadsAllChunks image sb depth map t.toBtrfsTree ↔
        ScanFits sb t.toBtrfsTree ∧ ∀ c ∈ t.chunks, Contains map c)) := by
  have hunfit : ¬ScanFits sb t.toBtrfsTree →
      ¬ReadsAllChunks image sb depth map t.toBtrfsTree := by
    rintro hfits ⟨steps, map', hsteps, -⟩
    rw [chunkScan_unfit t hfits] at hsteps
    exact nomatch hsteps
  refine ⟨fun hfits hstarts hclimb => ?_, hunfit, fun hnot => ?_⟩
  · rcases t.wellFormed with hwf | ⟨hlevel, hblock, hempty⟩
    · obtain ⟨path, front, rest, hread, htree, hvisit, hrest, hall⟩ :=
        chunkScan_start t hwf (hfits hstarts.1).blocks hdepth hstarts.1
      obtain ⟨hfront, hother⟩ := startVisit_front t hwf hall hstarts
      have hfill : Filling map t.chunks map :=
        ⟨t.ordered, fun _ he => he, fun e he => List.mem_append_left _ he⟩
      have hsorted := t.sorted
      have hclimbAll := hclimb
      rw [ChunksClimb] at hclimbAll
      rw [hall] at hsorted hclimbAll
      rw [← hvisit] at hfront
      obtain ⟨steps, map', hloop, -, hcontains⟩ := chunkLoop_run t hwf (hfits hstarts.1).blocks
        hdepth hfill htree rfl
        (fun v hv => by
          rw [hrest] at hv
          rw [hall]
          exact List.mem_append_right front hv)
        (by rw [hrest]; exact (List.pairwise_append.mp hsorted).2.1)
        (by rw [hrest]; exact hclimbAll.right_of_append) hfront
      refine ⟨steps, map', (hread steps).trans hloop, fun c hc => ?_⟩
      obtain ⟨v, hv, rfl⟩ := List.mem_map.mp hc
      obtain ⟨hvAll, hchunk⟩ := List.mem_filter.mp hv
      have hchunk := of_decide_eq_true hchunk
      rw [hall] at hvAll
      rcases List.mem_append.mp hvAll with hv | hv
      · exact absurd hchunk (hother v hv)
      · rw [← hrest] at hv
        exact hcontains v hv hchunk
    · obtain ⟨hnone, map', hread⟩ := chunkScan_empty t hfits hdepth hlevel hblock hempty
      refine ⟨1, map', hread, fun c hc => ?_⟩
      rw [hnone] at hc
      exact absurd hc List.not_mem_nil
  · by_cases hfits : ScanFits sb t.toBtrfsTree
    · rw [and_iff_right hfits]
      constructor
      · rintro ⟨steps, map', hsteps, hcontains⟩
        obtain rfl := (chunkScan_other t hfits hdepth hnot).mp ⟨steps, hsteps⟩
        exact hcontains
      · intro hcontains
        obtain ⟨steps, hsteps⟩ := (chunkScan_other t hfits hdepth hnot).mpr rfl
        exact ⟨steps, map, hsteps, hcontains⟩
    · exact iff_of_false (hunfit hfits) fun h => hfits h.1

/-! ## Examples -/

instance (map : List BtrfsChunkMapItem) (c : BtrfsChunkMapItem) : Decidable (Contains map c) :=
  inferInstanceAs (Decidable (∃ e ∈ map, _))

instance (a b : BtrfsChunkMapItem) : Decidable (Apart a b) :=
  inferInstanceAs (Decidable (_ ∧ _ ∧ _))

instance (sb : BtrfsSuperBlock) (t : BtrfsTree) : Decidable (StartsAtChunk sb t) :=
  inferInstanceAs (Decidable (_ ∧ _))

/-- The bytes of a chunk item with one stripe. -/
def sampleChunk (length physical : Nat) : List UInt8 :=
  leBytes length 8 ++ List.replicate 40 0 ++ leBytes 1 8 ++ leBytes physical 8 ++
    List.replicate 16 0

/-- A leaf with a device item and two chunks, the first one at a given address. -/
def sampleLeaf (first : UInt64) : Block where
  level := 0
  nritems := 3
  ptrs _ := ⟨⟨0, 0, 0⟩, 0⟩
  items
    | 0 => ⟨⟨1, 216, 1⟩, 3897, 98⟩
    | 1 => ⟨⟨256, 228, first⟩, 3817, 80⟩
    | _ => ⟨⟨256, 228, 0x1c00000⟩, 3737, 80⟩
  data offset size :=
    if offset = 3817 then sampleChunk 0x800000 0x100000
    else if offset = 3737 then sampleChunk 0x40000000 0x900000
    else List.replicate size 0

def sampleSb (first : UInt64) : BtrfsSuperBlock := ⟨0, first.toNat + 0x4000, 4096, 4096⟩

/-- The map has the first chunk from the superblock. -/
def sampleMap (first : UInt64) : List BtrfsChunkMapItem := [⟨first, 0x800000, 1, 0x100000⟩]

/-- The sample leaf is sorted by key. -/
theorem sampleLeaf_sorted {first : UInt64} (h : first = 0 ∨ first = 0x1400000) :
    (sampleLeaf first).Sorted 0 := by
  refine ⟨rfl, Nat.succ_pos 2, fun i j hlt hj => ?_⟩
  have hall : ∀ j < 3, ∀ i < j,
      ((sampleLeaf first).key i).rank < ((sampleLeaf first).key j).rank := by
    rcases h with rfl | rfl
    · decide +kernel
    · decide +kernel
  exact hall j hj i hlt

/-- The sample leaf is a sound block wherever it lies. -/
theorem sampleLeaf_sound {first : UInt64} (h : first = 0 ∨ first = 0x1400000) (loffset : Nat) :
    (blockAt (sampleSb first) (fun _ => sampleLeaf first) (sampleMap first)).Sound loffset 0 where
  toSorted := sampleLeaf_sorted h
  ptrs_le hne := absurd rfl hne
  items_le _ := show 101 + 3 * 25 ≤ (4096 : UInt32).toNat by decide
  data_le _ i hi := by
    obtain rfl | rfl | rfl : i = 0 ∨ i = 1 ∨ i = 2 := by
      change i < 3 at hi
      omega
    · exact (by decide : 101 + 3897 + 98 ≤ (4096 : UInt32).toNat)
    · exact (by decide : 101 + 3817 + 80 ≤ (4096 : UInt32).toNat)
    · exact (by decide : 101 + 3737 + 80 ≤ (4096 : UInt32).toNat)

/-- A chunk tree of one leaf. -/
def sampleChunkTree (first : UInt64) (h : first = 0 ∨ first = 0x1400000) :
    ChunkTree (fun _ => sampleLeaf first) (sampleSb first) (sampleMap first) where
  disk := blockAt (sampleSb first) (fun _ => sampleLeaf first) (sampleMap first)
  root := first.toNat + 0x4000
  level := 0
  level_lt := leafLevel_lt
  wellFormed := Or.inl (sampleLeaf_sound h _)
  sorted := by
    rcases h with rfl | rfl
    · decide +kernel
    · decide +kernel
  disk_eq := rfl
  root_eq := rfl
  exact := trivial
  mapped := by
    refine ⟨_, List.mem_singleton_self _, Nat.le_add_right _ _, ?_⟩
    exact Nat.add_lt_add_left (show 0x4000 < (0x800000 : UInt64).toNat by decide) _
  ordered := List.pairwise_singleton _ _
  size_le := by
    rcases h with rfl | rfl
    · decide +kernel
    · decide +kernel
  apart := by
    rcases h with rfl | rfl
    · decide +kernel
    · decide +kernel
  room := by
    rcases h with rfl | rfl
    · decide +kernel
    · decide +kernel

/-- The sample tree fits into the buffer of the search. -/
theorem sampleChunkTree_fits (first : UInt64) (h : first = 0 ∨ first = 0x1400000) :
    ScanFits (sampleSb first) (sampleChunkTree first h).toBtrfsTree :=
  fun _ => ⟨⟨(by decide : FitsBuffer 4096), fun hne => absurd rfl hne⟩, nofun⟩

/-- One chunk tree whose chunks are read and one that has a chunk that is not. -/
theorem chunks_read_iff_sample :
    ReadsAllChunks (fun _ => sampleLeaf 0) (sampleSb 0) 1 (sampleMap 0)
      (sampleChunkTree 0 (Or.inl rfl)).toBtrfsTree ∧
    (ReadsAllChunks (fun _ => sampleLeaf 0x1400000) (sampleSb 0x1400000) 1 (sampleMap 0x1400000)
        (sampleChunkTree 0x1400000 (Or.inr rfl)).toBtrfsTree ↔
      ScanFits (sampleSb 0x1400000) (sampleChunkTree 0x1400000 (Or.inr rfl)).toBtrfsTree ∧
        ∀ c ∈ (sampleChunkTree 0x1400000 (Or.inr rfl)).chunks,
          Contains (sampleMap 0x1400000) c) :=
  ⟨(chunks_read_iff (sampleChunkTree 0 (Or.inl rfl)) 1 (by decide)).1
      (sampleChunkTree_fits 0 (Or.inl rfl)) (by decide +kernel)
      (by unfold ChunksClimb; decide +kernel),
    (chunks_read_iff (sampleChunkTree 0x1400000 (Or.inr rfl)) 1 (by decide)).2.2
      (by decide +kernel)⟩

/-- Behind a device item, no chunk is read. -/
theorem chunks_not_read : ¬∀ (image : UInt64 → Block) (sb : BtrfsSuperBlock)
    (map : List BtrfsChunkMapItem) (t : ChunkTree image sb map) (depth : Nat), t.level < depth →
      sb.flags &&& btrfsSuperFlagMetadump = 0 →
      ReadsAllChunks image sb depth map t.toBtrfsTree := by
  intro h
  obtain ⟨steps, map', hsteps, hcontains⟩ :=
    h _ _ _ (sampleChunkTree 0x1400000 (Or.inr rfl)) 1 (by decide) (by decide +kernel)
  have hnot : ¬StartsAtChunk (sampleSb 0x1400000)
      (sampleChunkTree 0x1400000 (Or.inr rfl)).toBtrfsTree := by
    decide +kernel
  have hfits := sampleChunkTree_fits 0x1400000 (Or.inr rfl)
  obtain rfl := (chunkScan_other (sampleChunkTree 0x1400000 (Or.inr rfl)) hfits (by decide)
    hnot).mp ⟨steps, hsteps⟩
  have hmissing : ¬∀ c ∈ (sampleChunkTree 0x1400000 (Or.inr rfl)).chunks,
      Contains (sampleMap 0x1400000) c := by
    decide +kernel
  exact hmissing hcontains

end Liigboot.Fs.Btrfs
