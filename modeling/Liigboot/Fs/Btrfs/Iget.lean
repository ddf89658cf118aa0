import Liigboot.Fs.Btrfs.NextExtent

/-!
# Names in a btrfs directory

`btrfs_iget` searches the tree for the hash of a name and takes the first entry of the item that it
finds. It does not compare the names, so that a name may lead to an entry with another name that has
the same hash.
-/

namespace Liigboot.Fs.Btrfs

/-! ## The source -/

/-- A step of the loop of `btrfs_init_crc32c`, with the reflected polynomial. -/
def crc32cStep (v : UInt32) : UInt32 := (v >>> 1) ^^^ (if v &&& 1 ≠ 0 then 0x82f63b78 else 0)

/-- `crc32c_table`, as `btrfs_init_crc32c` fills it. -/
def crc32cTable (i : UInt8) : UInt32 := (List.range 8).foldl (fun v _ => crc32cStep v) i.toUInt32

/-- `crc32c_le`. -/
def crc32cLe (crc : UInt32) : List UInt8 → UInt32
  | [] => crc
  | b :: data => crc32cLe (crc32cTable (crc.toUInt8 ^^^ b) ^^^ (crc >>> 8)) data

/-- `btrfs_name_hash`. -/
def btrfsNameHash (name : List UInt8) : UInt64 := (crc32cLe (~~~1) name).toUInt64

/-- `BTRFS_INODE_ITEM_KEY`. -/
def btrfsInodeItemKey : UInt8 := 1

/-- `BTRFS_DIR_ITEM_KEY`. -/
def btrfsDirItemKey : UInt8 := 84

/-- What `btrfs_iget_by_inr` fills in of a `struct inode`, and its private data. -/
structure BtrfsInode where
  ino : UInt32
  size : UInt32
  mode : Nat
  offset : UInt64
  deriving DecidableEq, Repr

/-- `IFTODT`. -/
def iftodt (mode : Nat) : Nat := (mode &&& 0o170000) >>> 12

/-- A search from the root of the tree that has the files. -/
def BtrfsVolume.search (vol : BtrfsVolume) (key : BtrfsDiskKey) : Option (Nat × BtrfsPath) :=
  searchTree (blockAt vol.sb vol.image vol.map) key btrfsMaxLevel vol.fsTree clearPath

/-- `btrfs_iget_by_inr`, while there is memory. There is no result when a search overruns its
buffers, or would go deeper than a tree can be. -/
def btrfsIgetByInr (vol : BtrfsVolume) (inr : UInt64) : Option (Option BtrfsInode) :=
  match vol.search ⟨inr, btrfsInodeItemKey, 0⟩ with
  | none => none
  | some (_ + 1, _) => some none
  | some (0, path) =>
    let size := UInt32.ofNat (readLe path.data 16 8)
    let mode := iftodt (readLe path.data 52 4)
    -- a file or a symbolic link
    if mode = 8 ∨ mode = 10 then
      match vol.search ⟨inr, btrfsExtentDataKey, 0⟩ with
      | none => none
      | some (_ + 1, _) => some none
      | some (0, path) =>
        let extentItem := fileExtentItem path.data
        let offset := if extentItem.type = btrfsFileExtentInline then
            UInt64.ofNat (path.offsets 0 + sizeofHeader + path.item.offset + inlineOffset)
          else extentItem.diskBytenr
        some (some ⟨inr.toUInt32, size, mode, offset⟩)
    else some (some ⟨inr.toUInt32, size, mode, 0⟩)

/-- `btrfs_iget`, for the inode number of the directory. -/
def btrfsIget (vol : BtrfsVolume) (name : List UInt8) (ino : UInt32) :
    Option (Option BtrfsInode) :=
  match vol.search ⟨ino.toUInt64, btrfsDirItemKey, btrfsNameHash name⟩ with
  | none => none
  | some (_ + 1, _) => some none
  | some (0, path) => btrfsIgetByInr vol (UInt64.ofNat (readLe path.data 0 8))

/-! ## Directories -/

/-- An entry of a directory: what `struct btrfs_dir_item` says, the name and the data behind it. -/
structure DirEntry where
  location : BtrfsDiskKey
  transid : UInt64
  type : UInt8
  name : List UInt8
  data : List UInt8
  deriving DecidableEq, Repr

/-- The bytes of an entry in its item. -/
def DirEntry.bytes (e : DirEntry) : List UInt8 :=
  leBytes e.location.objectid.toNat 8 ++ [e.location.type] ++ leBytes e.location.offset.toNat 8 ++
    leBytes e.transid.toNat 8 ++ leBytes e.data.length 2 ++ leBytes e.name.length 2 ++ [e.type] ++
      e.name ++ e.data

/-- A directory of a volume. The entries whose names have the same hash are in one item, one behind
the other, and no two entries have the same name. -/
structure BtrfsDirectory (vol : BtrfsVolume) (ino : UInt32) extends BtrfsTree where
  disk_eq : disk = blockAt vol.sb vol.image vol.map
  root_eq : root = vol.fsTree
  exact : ExactKeys disk level root
  inode_mem : ∃ v ∈ allVisits disk level root, v.item.key = ⟨ino.toUInt64, btrfsInodeItemKey, 0⟩
  /-- The entries whose names have a hash. -/
  bucket : UInt64 → List DirEntry
  hash_eq : ∀ h, ∀ e ∈ bucket h, btrfsNameHash e.name = h
  distinct : ∀ h, ((bucket h).map DirEntry.name).Nodup
  item_ne_nil : ∀ v ∈ allVisits disk level root, ∀ h,
    v.item.key = ⟨ino.toUInt64, btrfsDirItemKey, h⟩ → bucket h ≠ []
  item_data : ∀ v ∈ allVisits disk level root, ∀ h,
    v.item.key = ⟨ino.toUInt64, btrfsDirItemKey, h⟩ → v.data = (bucket h).flatMap DirEntry.bytes
  item_mem : ∀ h, bucket h ≠ [] →
    ∃ v ∈ allVisits disk level root, v.item.key = ⟨ino.toUInt64, btrfsDirItemKey, h⟩

variable {vol : BtrfsVolume} {ino : UInt32} {e : DirEntry} {name : List UInt8}

/-- An entry is in the directory. -/
def BtrfsDirectory.Has (d : BtrfsDirectory vol ino) (e : DirEntry) : Prop :=
  e ∈ d.bucket (btrfsNameHash e.name)

/-- The entry that has a name. -/
def BtrfsDirectory.find (d : BtrfsDirectory vol ino) (name : List UInt8) : Option DirEntry :=
  (d.bucket (btrfsNameHash name)).find? fun e => e.name = name

/-- The size of an inode in its item, as far as a `struct inode` has it. -/
def Visit.inodeSize (v : Visit) : UInt32 := UInt32.ofNat (readLe v.data 16 8)

/-- The type of an inode, by the mode in its item. -/
def Visit.inodeMode (v : Visit) : Nat := iftodt (readLe v.data 52 4)

/-- An entry has an inode with a number, a size and a type: they are those of the inode item at its
location. -/
def BtrfsDirectory.Describes (d : BtrfsDirectory vol ino) (e : DirEntry) (inr size : UInt32)
    (mode : Nat) : Prop :=
  e.location.type = btrfsInodeItemKey ∧ inr.toUInt64 = e.location.objectid ∧
    ∃ v ∈ allVisits d.disk d.level d.root, v.item.key = e.location ∧
      v.inodeSize = size ∧ v.inodeMode = mode

/-- The inode with a number can be opened: the tree has its item, and for a file or a symbolic link
an extent item at its start. -/
def BtrfsDirectory.Opens (d : BtrfsDirectory vol ino) (inr : UInt64) (v : Visit) : Prop :=
  v ∈ allVisits d.disk d.level d.root ∧ v.item.key = ⟨inr, btrfsInodeItemKey, 0⟩ ∧
    (v.inodeMode = 8 ∨ v.inodeMode = 10 →
      ∃ w ∈ allVisits d.disk d.level d.root, w.item.key = ⟨inr, btrfsExtentDataKey, 0⟩)

theorem BtrfsDirectory.find_eq_some_iff (d : BtrfsDirectory vol ino) :
    d.find name = some e ↔ d.Has e ∧ e.name = name := by
  constructor
  · intro h
    rw [find] at h
    have hname : e.name = name := by simpa only [decide_eq_true_eq] using List.find?_some h
    refine ⟨?_, hname⟩
    rw [Has, hname]
    exact List.mem_of_find?_eq_some h
  · rintro ⟨hmem, rfl⟩
    cases hfind : d.find e.name with
    | none => exact absurd (decide_eq_true rfl) (List.find?_eq_none.mp hfind e hmem)
    | some f =>
      rw [find] at hfind
      have hname : f.name = e.name := by
        simpa only [decide_eq_true_eq] using List.find?_some hfind
      rw [List.inj_on_of_nodup_map (d.distinct _) (List.mem_of_find?_eq_some hfind) hmem hname]

theorem BtrfsDirectory.find_eq_none_iff (d : BtrfsDirectory vol ino) :
    d.find name = none ↔ ∀ e, d.Has e → e.name ≠ name := by
  constructor
  · intro h e hmem hname
    rw [d.find_eq_some_iff.mpr ⟨hmem, hname⟩] at h
    cases h
  · intro h
    by_contra hne
    obtain ⟨e, he⟩ := Option.ne_none_iff_exists'.mp hne
    obtain ⟨hmem, hname⟩ := d.find_eq_some_iff.mp he
    exact h e hmem hname

/-! ## The search -/

theorem BtrfsDirectory.wf (d : BtrfsDirectory vol ino) : WellFormed d.disk d.level d.root := by
  obtain ⟨v, hv, -⟩ := d.inode_mem
  exact d.wf_of_mem hv

/-- The number in front of an item is that of its first entry. -/
theorem readLe_objectid (e : DirEntry) (rest : List UInt8) :
    UInt64.ofNat (readLe (e.bytes ++ rest) 0 8) = e.location.objectid := by
  have hslice : slice (e.bytes ++ rest) 0 8 = leBytes e.location.objectid.toNat 8 := by
    rw [slice, List.drop_zero, DirEntry.bytes]
    simp only [List.append_assoc]
    exact List.take_left' (length_leBytes _ _)
  rw [readLe, hslice, leNat_leBytes, show 256 ^ 8 = 2 ^ 64 by decide,
    Nat.mod_eq_of_lt e.location.objectid.toNat_lt, UInt64.ofNat_toNat]

/-- What a search of the tree finds. -/
theorem BtrfsDirectory.search_find (d : BtrfsDirectory vol ino) (hfits : d.disk.Fits d.level)
    (key : BtrfsDiskKey) :
    ∃ ret path, vol.search key = some (ret, path) ∧
      (ret = 0 ∧ (∃ v ∈ allVisits d.disk d.level d.root, v.item.key = key ∧
          path.item = v.item ∧ path.data = v.data) ∨
        ret ≠ 0 ∧ ∀ v ∈ allVisits d.disk d.level d.root, v.item.key ≠ key) := by
  obtain ⟨ret, path, hsearch, hcases⟩ := @searchTree_find d.disk key btrfsMaxLevel d.level d.root
    d.wf d.exact d.sorted hfits d.level_lt d.level_lt
  rw [d.disk_eq, d.root_eq] at hsearch
  exact ⟨ret, path, hsearch, hcases⟩

/-- Where the blocks do not fit the buffer, every search overruns it. -/
theorem BtrfsDirectory.search_unfit (d : BtrfsDirectory vol ino) (hfits : ¬d.disk.Fits d.level)
    (key : BtrfsDiskKey) : vol.search key = none := by
  rw [BtrfsVolume.search, ← d.disk_eq, ← d.root_eq]
  exact searchTree_unfit d.wf hfits d.level_lt fun _ _ => rfl

/-- An item has its key alone. -/
theorem BtrfsTree.eq_of_key (t : BtrfsTree) {v w : Visit} (hv : v ∈ allVisits t.disk t.level t.root)
    (hw : w ∈ allVisits t.disk t.level t.root) (h : v.item.key = w.item.key) : v = w := by
  have hnodup : ((allVisits t.disk t.level t.root).map fun v => v.item.key.rank).Nodup :=
    List.pairwise_map.mpr (t.sorted.imp fun hlt => hlt.ne)
  exact List.inj_on_of_nodup_map hnodup hv hw (congrArg BtrfsDiskKey.rank h)

/-- What the driver makes of an inode number: the inode with the size and the type in its item, or
NULL when it cannot be opened. -/
theorem btrfsIgetByInr_cases (d : BtrfsDirectory vol ino) (hfits : d.disk.Fits d.level)
    (inr : UInt64) :
    (∃ v inode, d.Opens inr v ∧ btrfsIgetByInr vol inr = some (some inode) ∧
        inode.ino = inr.toUInt32 ∧ inode.size = v.inodeSize ∧ inode.mode = v.inodeMode) ∨
      (∀ v, ¬d.Opens inr v) ∧ btrfsIgetByInr vol inr = some none := by
  obtain ⟨ret, path, hsearch, hcases⟩ := d.search_find hfits ⟨inr, btrfsInodeItemKey, 0⟩
  rcases hcases with ⟨rfl, v, hv, hkey, -, hdata⟩ | ⟨hret, hnone⟩
  · by_cases hmode : v.inodeMode = 8 ∨ v.inodeMode = 10
    · have hmode' := hmode
      rw [Visit.inodeMode, ← hdata] at hmode'
      obtain ⟨ret, start, hstart, hextent⟩ := d.search_find hfits ⟨inr, btrfsExtentDataKey, 0⟩
      rcases hextent with ⟨rfl, w, hw, hwkey, -⟩ | ⟨hret, hnone⟩
      · have hget : ∃ offset, btrfsIgetByInr vol inr =
            some (some ⟨inr.toUInt32, v.inodeSize, v.inodeMode, offset⟩) := by
          rw [btrfsIgetByInr, hsearch]
          dsimp only
          rw [if_pos hmode', hstart, hdata]
          exact ⟨_, rfl⟩
        obtain ⟨offset, hget⟩ := hget
        exact Or.inl ⟨v, _, ⟨hv, hkey, fun _ => ⟨w, hw, hwkey⟩⟩, hget, rfl, rfl, rfl⟩
      · obtain ⟨ret, rfl⟩ := Nat.exists_eq_succ_of_ne_zero hret
        refine Or.inr ⟨fun u hopens => ?_, ?_⟩
        · obtain rfl := d.eq_of_key hopens.1 hv (hopens.2.1.trans hkey.symm)
          obtain ⟨w, hw, hwkey⟩ := hopens.2.2 hmode
          exact hnone w hw hwkey
        · rw [btrfsIgetByInr, hsearch]
          dsimp only
          rw [if_pos hmode', hstart]
    · have hmode' := hmode
      rw [Visit.inodeMode, ← hdata] at hmode'
      refine Or.inl ⟨v, ⟨inr.toUInt32, v.inodeSize, v.inodeMode, 0⟩,
        ⟨hv, hkey, fun h => absurd h hmode⟩, ?_, rfl, rfl, rfl⟩
      rw [btrfsIgetByInr, hsearch]
      dsimp only
      rw [if_neg hmode', hdata]
      rfl
  · obtain ⟨ret, rfl⟩ := Nat.exists_eq_succ_of_ne_zero hret
    refine Or.inr ⟨fun v hopens => hnone v hopens.1 hopens.2.1, ?_⟩
    rw [btrfsIgetByInr, hsearch]

/-- What the lookup of a name does: it takes the first entry with the hash of the name. -/
theorem btrfsIget_eq (d : BtrfsDirectory vol ino) (hfits : d.disk.Fits d.level)
    (name : List UInt8) :
    btrfsIget vol name ino =
      match (d.bucket (btrfsNameHash name)).head? with
      | none => some none
      | some f => btrfsIgetByInr vol f.location.objectid := by
  obtain ⟨ret, path, hsearch, hcases⟩ :=
    d.search_find hfits ⟨ino.toUInt64, btrfsDirItemKey, btrfsNameHash name⟩
  rw [btrfsIget, hsearch]
  rcases hcases with ⟨rfl, v, hv, hkey, -, hdata⟩ | ⟨hret, hnone⟩
  · obtain ⟨e, es, hbucket⟩ := List.exists_cons_of_ne_nil (d.item_ne_nil v hv _ hkey)
    change btrfsIgetByInr vol (UInt64.ofNat (readLe path.data 0 8)) = _
    rw [hdata, d.item_data v hv _ hkey, hbucket, List.flatMap_cons, readLe_objectid,
      List.head?_cons]
  · have hempty : d.bucket (btrfsNameHash name) = [] := by
      by_contra hne
      obtain ⟨v, hv, hkey⟩ := d.item_mem _ hne
      exact hnone v hv hkey
    rw [hempty, List.head?_nil]
    cases ret with
    | zero => exact absurd rfl hret
    | succ ret => rfl

/-! ## When the lookup is right -/

/-- The lookup of a name returns the inode of the entry that has it, or NULL when there is none. -/
def FindsName (d : BtrfsDirectory vol ino) (name : List UInt8) : Prop :=
  (∀ e, d.Has e → e.name = name → ∃ inode, btrfsIget vol name ino = some (some inode) ∧
      d.Describes e inode.ino inode.size inode.mode) ∧
    ((∀ e, d.Has e → e.name ≠ name) → btrfsIget vol name ino = some none)

/-- An entry stands for a name: what is opened for it is the inode of the entry that has the name,
or nothing when there is no such entry. -/
def StandsFor (d : BtrfsDirectory vol ino) (f : DirEntry) (name : List UInt8) : Prop :=
  (∃ e v, d.Has e ∧ e.name = name ∧ d.Opens f.location.objectid v ∧
      d.Describes e f.location.objectid.toUInt32 v.inodeSize v.inodeMode) ∨
    (∀ e, d.Has e → e.name ≠ name) ∧ ∀ v, ¬d.Opens f.location.objectid v

/-- No two entries have the same name. -/
theorem BtrfsDirectory.Has.unique {d : BtrfsDirectory vol ino} {f : DirEntry} (he : d.Has e)
    (hf : d.Has f) (h : e.name = f.name) : e = f := by
  have hfind := d.find_eq_some_iff.mpr ⟨he, h⟩
  rw [d.find_eq_some_iff.mpr ⟨hf, rfl⟩] at hfind
  exact (Option.some.inj hfind).symm

/-- The lookup of a name is right if and only if the blocks of the tree fit the buffer of a search,
and there is no entry with its hash, or the first one of these stands for the name. -/
theorem btrfs_iget_finds_iff (d : BtrfsDirectory vol ino) (name : List UInt8) :
    FindsName d name ↔ d.disk.Fits d.level ∧
      ∀ f, (d.bucket (btrfsNameHash name)).head? = some f → StandsFor d f name := by
  by_cases hfits : d.disk.Fits d.level
  · rw [and_iff_right hfits, FindsName, btrfsIget_eq d hfits]
    cases hhead : (d.bucket (btrfsNameHash name)).head? with
    | none =>
      have hempty := List.head?_eq_none_iff.mp hhead
      refine iff_of_true ⟨fun e hmem hname => ?_, fun _ => rfl⟩ fun f hf => nomatch hf
      rw [BtrfsDirectory.Has, hname, hempty] at hmem
      cases hmem
    | some f =>
      simp only [Option.some.injEq, forall_eq']
      rcases btrfsIgetByInr_cases d hfits f.location.objectid with
        ⟨v, inode, hopens, hget, hino, hsize, hmode⟩ | ⟨hclosed, hget⟩
      · rw [hget]
        constructor
        · rintro ⟨hfound, hmissed⟩
          by_cases hname : ∃ e, d.Has e ∧ e.name = name
          · obtain ⟨e, hmem, hname⟩ := hname
            obtain ⟨inode', heq, hdescribes⟩ := hfound e hmem hname
            obtain rfl := Option.some.inj (Option.some.inj heq)
            rw [hino, hsize, hmode] at hdescribes
            exact Or.inl ⟨e, v, hmem, hname, hopens, hdescribes⟩
          · have hnull := hmissed fun e hmem heq => hname ⟨e, hmem, heq⟩
            exact nomatch hnull
        · rintro (⟨e, w, hmem, hname, hopens', hdescribes⟩ | ⟨-, hclosed⟩)
          · obtain rfl := d.eq_of_key hopens'.1 hopens.1 (hopens'.2.1.trans hopens.2.1.symm)
            refine ⟨fun e' hmem' hname' => ⟨inode, rfl, ?_⟩, fun hnone => absurd hname (hnone e hmem)⟩
            obtain rfl := hmem'.unique hmem (hname'.trans hname.symm)
            rw [hino, hsize, hmode]
            exact hdescribes
          · exact absurd hopens (hclosed v)
      · rw [hget]
        constructor
        · rintro ⟨hfound, -⟩
          refine Or.inr ⟨fun e hmem hname => ?_, hclosed⟩
          obtain ⟨inode, heq, -⟩ := hfound e hmem hname
          exact nomatch heq
        · rintro (⟨e, v, -, -, hopens, -⟩ | ⟨hnone, -⟩)
          · exact absurd hopens (hclosed v)
          · exact ⟨fun e hmem hname => absurd hname (hnone e hmem), fun _ => rfl⟩
  · refine iff_of_false (fun ⟨hfound, hmissed⟩ => ?_) fun h => hfits h.1
    have hget : btrfsIget vol name ino = none := by rw [btrfsIget, d.search_unfit hfits]
    rw [hget] at hfound hmissed
    by_cases hname : ∃ e, d.Has e ∧ e.name = name
    · obtain ⟨e, hmem, hname⟩ := hname
      obtain ⟨inode, heq, -⟩ := hfound e hmem hname
      exact nomatch heq
    · have hnull := hmissed fun e hmem heq => hname ⟨e, hmem, heq⟩
      exact nomatch hnull

/-! ## Examples -/

/-- A name, and another one with the same hash. -/
def sampleName : List UInt8 := [0x69, 0x59, 0x6d, 0x50, 0x79]

@[inherit_doc sampleName] def collidingName : List UInt8 := [0x35, 0x5a, 0x78, 0x36, 0x65]

/-- The entry of a directory in the root directory. -/
def sampleEntry : DirEntry := ⟨⟨257, btrfsInodeItemKey, 0⟩, 7, 2, sampleName, []⟩

/-- A leaf with the root directory, its entry and the inode of that. -/
def sampleDirLeaf : Block where
  level := 0
  nritems := 3
  ptrs _ := ⟨⟨0, 0, 0⟩, 0⟩
  items i :=
    if i = 0 then ⟨⟨256, btrfsInodeItemKey, 0⟩, 3835, 160⟩
    else if i = 1 then ⟨⟨256, btrfsDirItemKey, 0xd6c7b10e⟩, 3800, 35⟩
    else ⟨⟨257, btrfsInodeItemKey, 0⟩, 3640, 160⟩
  data offset size :=
    if offset = 3800 then sampleEntry.bytes
    else leBytes 0 16 ++ leBytes 0 8 ++ leBytes 0 28 ++ leBytes 0o40755 4 ++ leBytes 0 (size - 56)

def sampleDirVolume : BtrfsVolume where
  sb := ⟨0, 0, 4096, 4096⟩
  image _ := sampleDirLeaf
  map := [⟨0, 0x400000, 1, 0⟩]
  fsTree := 0x4000
  sectorShift := 9
  disk _ := List.replicate 512 0
  shift_le := usualShift_le
  shift_lt := usualShift_lt
  disk_length := zeroSectors_length

theorem sampleDirLeaf_sorted : sampleDirLeaf.Sorted 0 := by
  refine ⟨rfl, Nat.succ_pos 2, fun i j hlt hj => ?_⟩
  have hall : ∀ j < 3, ∀ i < j,
      (sampleDirLeaf.key i).rank < (sampleDirLeaf.key j).rank := by
    decide +kernel
  exact hall j hj i hlt

theorem sampleDirLeaf_sound (loffset : Nat) : (blockAt sampleDirVolume.sb sampleDirVolume.image
    sampleDirVolume.map).Sound loffset 0 where
  toSorted := sampleDirLeaf_sorted
  ptrs_le hne := absurd rfl hne
  items_le _ := (by decide : 101 + 3 * 25 ≤ (4096 : UInt32).toNat)
  data_le _ i _ := by
    change 101 + (sampleDirLeaf.items i).offset + (sampleDirLeaf.items i).size ≤
      (4096 : UInt32).toNat
    rw [sampleDirLeaf]
    dsimp only
    split_ifs
    · decide
    · decide
    · decide

def sampleDirTree : BtrfsTree where
  disk := blockAt sampleDirVolume.sb sampleDirVolume.image sampleDirVolume.map
  root := 0x4000
  level := 0
  level_lt := leafLevel_lt
  wellFormed := Or.inl (sampleDirLeaf_sound _)
  sorted := by decide +kernel

/-- The items of the tree that belong to the entries of the directory. -/
theorem sampleDirTree_items {v : Visit} {h : UInt64}
    (hv : v ∈ allVisits sampleDirTree.disk sampleDirTree.level sampleDirTree.root)
    (hkey : v.item.key = ⟨256, btrfsDirItemKey, h⟩) :
    h = 0xd6c7b10e ∧ v.data = sampleEntry.bytes := by
  have hall : ∀ v ∈ allVisits sampleDirTree.disk sampleDirTree.level sampleDirTree.root,
      v.item.key.type = btrfsDirItemKey →
        v.item.key.offset = 0xd6c7b10e ∧ v.data = sampleEntry.bytes := by
    decide +kernel
  have hitem := hall v hv (by rw [hkey])
  rwa [hkey] at hitem

def sampleDirectory : BtrfsDirectory sampleDirVolume 256 where
  toBtrfsTree := sampleDirTree
  disk_eq := rfl
  root_eq := rfl
  exact := trivial
  inode_mem := by decide +kernel
  bucket h := if h = 0xd6c7b10e then [sampleEntry] else []
  hash_eq h e he := by
    split_ifs at he with hh
    · obtain rfl := List.mem_singleton.mp he
      rw [hh]
      decide +kernel
    · cases he
  distinct h := by
    split_ifs
    · exact List.nodup_singleton _
    · exact List.nodup_nil
  item_ne_nil v hv h hkey := by
    rw [if_pos (sampleDirTree_items hv hkey).1]
    exact List.cons_ne_nil _ _
  item_data v hv h hkey := by
    obtain ⟨hh, hdata⟩ := sampleDirTree_items hv hkey
    rw [if_pos hh, hdata, List.flatMap_singleton]
  item_mem h hne := by
    by_cases hh : h = 0xd6c7b10e
    · rw [hh]
      decide +kernel
    · rw [if_neg hh] at hne
      exact absurd rfl hne

/-- A name that is not in the directory leads to an inode. -/
theorem btrfs_iget_finds_colliding : ¬∀ (vol : BtrfsVolume) (ino : UInt32)
    (d : BtrfsDirectory vol ino) (name : List UInt8), FindsName d name := by
  intro h
  obtain ⟨-, hmissed⟩ := h sampleDirVolume 256 sampleDirectory collidingName
  have hget : btrfsIget sampleDirVolume collidingName 256 = some (some ⟨257, 0, 4, 0⟩) := by
    decide +kernel
  rw [hget] at hmissed
  refine absurd (Option.some.inj (hmissed fun e he hname => ?_)) (Option.some_ne_none _)
  rw [BtrfsDirectory.Has] at he
  change e ∈ if btrfsNameHash e.name = 0xd6c7b10e then [sampleEntry] else [] at he
  split_ifs at he
  · obtain rfl := List.mem_singleton.mp he
    exact absurd hname (by decide)
  · cases he

end Liigboot.Fs.Btrfs
