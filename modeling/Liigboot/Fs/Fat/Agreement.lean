import Liigboot.Fs.Fat.Listing
import Mathlib.Data.List.Pairwise

/-!
# Listing and lookup agree

A name that is listed is found at its own entry when no entry in front of it is taken for it, and
when the entry has clusters: cluster 0 is taken for the root directory. Long names of 20 pieces
are found, but not listed.
-/

namespace Liigboot.Fs.Fat

variable {cp : Codepage} {sectorShift : Nat} {sbi : FatSbInfo} {rootCluster : UInt32}
  {dir : Directory} {s : List UInt8}

/-! ## Inodes -/

/-- A file that has no clusters. -/
def Slot.IsEmptyFile (de : Slot) : Prop :=
  de.startCluster = 0 ∧ de.attr &&& attrDirectory = 0

/-- The inode belongs to an entry. A directory that starts at cluster 0 is the root directory. -/
def Slot.IsInode (de : Slot) (sbi : FatSbInfo) (rootCluster : UInt32) (found : Found) : Prop :=
  found.isDirectory = decide (de.attr &&& attrDirectory ≠ 0) ∧
    if de.startCluster = 0 ∧ de.attr &&& attrDirectory ≠ 0 then
      found.start = sbi.root ∧ found.startCluster = rootCluster
    else found.size = de.fileSize ∧ found.startCluster = de.startCluster

/-- The inode of a slot is the one that its fields give. -/
theorem foundInode_isInode {de : Slot} (h : ¬de.IsEmptyFile) :
    de.IsInode sbi rootCluster (foundInode sectorShift sbi rootCluster de) := by
  rw [foundInode]
  by_cases hzero : de.startCluster = 0
  · have hdir : de.attr &&& attrDirectory ≠ 0 := fun hfile => h ⟨hzero, hfile⟩
    rw [if_pos hzero]
    refine ⟨rfl, ?_⟩
    rw [if_pos ⟨hzero, hdir⟩]
    exact ⟨rfl, rfl⟩
  · rw [if_neg hzero]
    refine ⟨rfl, ?_⟩
    rw [if_neg fun hroot => hzero hroot.1]
    exact ⟨rfl, rfl⟩

/-- Two entries start at the same cluster, or are both the root directory. -/
def Slot.SameStart (a b : Slot) : Prop :=
  a.startCluster = b.startCluster ∧
    (a.startCluster = 0 → a.attr &&& attrDirectory ≠ 0 ∧ b.attr &&& attrDirectory ≠ 0)

theorem Slot.sameStart_self {de : Slot} (h : ¬de.IsEmptyFile) : de.SameStart de :=
  ⟨rfl, fun hzero => ⟨fun hfile => h ⟨hzero, hfile⟩, fun hfile => h ⟨hzero, hfile⟩⟩⟩

/-- Two files start at one place, in either order. -/
theorem Slot.SameStart.symm {a b : Slot} (h : a.SameStart b) : b.SameStart a :=
  ⟨h.1.symm, fun hzero => (h.2 (h.1.trans hzero)).symm⟩

/-- No cluster belongs to two entries, or to an entry and the root directory, and a file without
clusters is empty. -/
structure Directory.Consistent (dir : Directory) (sectorShift : Nat) (sbi : FatSbInfo)
    (rootCluster : UInt32) : Prop where
  rootSize_lt : sbi.rootSize * 2 ^ sectorShift < 2 ^ 32
  empty : ∀ e ∈ dir.entries, e.short.IsEmptyFile → e.short.fileSize = 0
  root_ne : ∀ e ∈ dir.entries, e.short.startCluster ≠ 0 → e.short.startCluster ≠ rootCluster
  distinct : dir.entries.Pairwise fun a b => ¬a.short.SameStart b.short

theorem foundInode_zero {de : Slot} (h : de.startCluster = 0) :
    (foundInode sectorShift sbi rootCluster de).startCluster = rootCluster := by
  rw [foundInode, if_pos h]

/-- Another start is kept. -/
theorem foundInode_startCluster {de : Slot} (h : de.startCluster ≠ 0) :
    (foundInode sectorShift sbi rootCluster de).startCluster = de.startCluster := by
  rw [foundInode, if_neg h]

/-- A directory is told by its attribute. -/
theorem foundInode_isDirectory (de : Slot) :
    (foundInode sectorShift sbi rootCluster de).isDirectory =
      decide (de.attr &&& attrDirectory ≠ 0) := by
  rw [foundInode]
  split_ifs <;> rfl

/-- The size of the root directory is never 0. -/
theorem foundInode_size_ne {de : Slot} (hlt : sbi.rootSize * 2 ^ sectorShift < 2 ^ 32)
    (hzero : de.startCluster = 0) :
    (foundInode sectorShift sbi rootCluster de).size ≠ 0 := by
  rw [foundInode, if_pos hzero]
  dsimp only
  split_ifs with hsize
  · rw [ne_eq, ← UInt32.toNat_inj, UInt32.toNat_ofNat_of_lt' hlt]
    exact (Nat.mul_pos (Nat.pos_of_ne_zero hsize) (Nat.two_pow_pos _)).ne'
  · decide

/-- An inode that was made for one entry belongs to another one only if that starts at the same
cluster. -/
theorem Directory.Consistent.sameStart (hdir : dir.Consistent sectorShift sbi rootCluster)
    {a b : Entry} (ha : a ∈ dir.entries) (hb : b ∈ dir.entries)
    (h : b.short.IsInode sbi rootCluster (foundInode sectorShift sbi rootCluster a.short)) :
    ¬b.short.IsEmptyFile ∧ b.short.SameStart a.short := by
  obtain ⟨htype, hrest⟩ := h
  rw [foundInode_isDirectory, decide_eq_decide] at htype
  by_cases hzero : b.short.startCluster = 0
  · by_cases hroot : b.short.attr &&& attrDirectory = 0
    · -- No inode is that of an empty file.
      have hsize := hdir.empty b hb ⟨hzero, hroot⟩
      rw [if_neg fun h => h.2 hroot, hsize, hzero] at hrest
      by_cases hzero' : a.short.startCluster = 0
      · exact absurd hrest.1 (foundInode_size_ne hdir.rootSize_lt hzero')
      · rw [foundInode_startCluster hzero'] at hrest
        exact absurd hrest.2 hzero'
    · rw [if_pos ⟨hzero, hroot⟩] at hrest
      have hzero' : a.short.startCluster = 0 := by
        by_contra hne
        rw [foundInode_startCluster hne] at hrest
        exact hdir.root_ne a ha hne hrest.2
      exact ⟨fun h => hroot h.2, hzero.trans hzero'.symm, fun _ => ⟨hroot, htype.mpr hroot⟩⟩
  · rw [if_neg fun h => hzero h.1] at hrest
    have hzero' : a.short.startCluster ≠ 0 := by
      intro heq
      rw [foundInode_zero heq] at hrest
      exact hdir.root_ne b hb hzero hrest.2.symm
    rw [foundInode_startCluster hzero'] at hrest
    exact ⟨fun h => hzero h.1, hrest.2.symm, fun h => absurd h hzero⟩

/-- Different entries do not start at the same cluster. -/
theorem Directory.Consistent.eq_of_sameStart (hdir : dir.Consistent sectorShift sbi rootCluster)
    {a b : Entry} (ha : a ∈ dir.entries) (hb : b ∈ dir.entries)
    (h : b.short.SameStart a.short) : b = a := by
  have hsymm : Std.Symm fun a b : Entry => ¬a.short.SameStart b.short :=
    ⟨fun _ _ hab hba => hab hba.symm⟩
  by_contra hne
  exact hdir.distinct.forall hb ha hne h

/-! ## Agreement -/

/-- Every name that is listed for an entry is found at this entry, and it is the long name, if that
can be written. -/
def Directory.Agrees (dir : Directory) (cp : Codepage) (sectorShift : Nat) (sbi : FatSbInfo)
    (rootCluster : UInt32) : Prop :=
  ∀ pre e d, dir.EntryAt pre e → Lists cp dir.slots d → d.dOff = entryOffset pre e →
    (∃ found, vfatFindEntry cp sectorShift sbi rootCluster (upToNul d.dName) dir.slots =
      some (some found) ∧ e.short.IsInode sbi rootCluster found) ∧
    ((∃ s, e.matchesLong cp s = true) → e.matchesLong cp (upToNul d.dName) = true)

/-- The entries that have a name of their own: a long name that has codes has fewer than 20
pieces, a file has clusters, and no entry in front is taken for the name that is listed. -/
def Directory.Findable (dir : Directory) (cp : Codepage) : Prop :=
  ∀ pre e, dir.EntryAt pre e →
    ((∃ s, e.matchesLong cp s = true) → pieceCount e.long.length < 20) ∧
    ¬e.short.IsEmptyFile ∧ e.matches cp (e.name cp) = true ∧
    ∀ e', Item.entry e' ∈ pre → e'.matches cp (e.name cp) = false

/-- An entry stands behind the ones in front of it. -/
theorem Directory.EntryAt.entries {pre : List Item} {e : Entry} (h : dir.EntryAt pre e) :
    ∃ post, dir.entries = pre.filterMap Item.entry? ++ e :: post := by
  obtain ⟨post, hitems⟩ := h
  refine ⟨post.filterMap Item.entry?, ?_⟩
  rw [Directory.entries, hitems, List.filterMap_append]
  rfl

/-- The entries among some items. -/
theorem mem_filterMap_entry {pre : List Item} {e : Entry} :
    e ∈ pre.filterMap Item.entry? ↔ Item.entry e ∈ pre := by
  rw [List.mem_filterMap]
  constructor
  · rintro ⟨item, hitem, he⟩
    cases item with
    | gap de hgap => exact nomatch he
    | entry e' => exact Option.some.inj he ▸ hitem
  · exact fun h => ⟨_, h, rfl⟩

/-- All items have slots. -/
theorem eq_of_slotCount_eq {xs ys : List Item} (h : xs <+: ys)
    (hcount : slotCount xs = slotCount ys) :
    xs = ys := by
  obtain ⟨items, rfl⟩ := h
  rw [slotCount_append] at hcount
  cases items with
  | nil => exact (List.append_nil xs).symm
  | cons item items =>
    have hpos : 0 < slotCount [item] := by
      cases item with
      | gap de hgap => exact Nat.one_pos
      | entry e =>
        rw [← List.nil_append [Item.entry e], slotCount_entry]
        exact Nat.succ_pos _
    rw [← List.singleton_append, slotCount_append] at hcount
    omega

/-- The offset tells an entry. -/
theorem Directory.EntryAt.unique {pre pre' : List Item} {e e' : Entry} (h : dir.EntryAt pre e)
    (h' : dir.EntryAt pre' e') (hoffset : entryOffset pre e = entryOffset pre' e') : e = e' := by
  have hfront' : ∀ {pre e}, dir.EntryAt pre e → pre ++ [.entry e] <+: dir.items :=
    fun ⟨post, hitems⟩ => ⟨post, (List.append_assoc ..).trans hitems.symm⟩
  have hcount : slotCount (pre ++ [.entry e]) = slotCount (pre' ++ [.entry e']) := by
    rw [entryOffset, entryOffset] at hoffset
    rw [slotCount_entry, slotCount_entry]
    omega
  have hsame : pre ++ [.entry e] = pre' ++ [.entry e'] := by
    rcases List.prefix_or_prefix_of_prefix (hfront' h) (hfront' h') with hle | hle
    · exact eq_of_slotCount_eq hle hcount
    · exact (eq_of_slotCount_eq hle hcount.symm).symm
  exact Item.entry.inj (List.singleton_inj.mp (List.append_inj_right' hsame rfl))

/-- A name takes twenty pieces at most. -/
theorem Entry.pieceCount_name_le (cp : Codepage) (e : Entry) :
    pieceCount (e.name cp).length ≤ 20 := by
  rcases e.name_cases cp with ⟨hmatch, -⟩ | ⟨hle, -⟩
  · rw [Entry.pieceCount_of_matchesLong hmatch]
    exact e.pieceCount_le
  · exact hle.trans (by decide)

/-- A name has no NUL. -/
theorem Entry.nul_notMem_name (cp : Codepage) (e : Entry) : 0 ∉ e.name cp := fun hmem =>
  absurd rfl (of_decide_eq_true (List.mem_takeWhile_imp (p := fun c : UInt8 => decide (c ≠ 0)) hmem))

/-- The lookup gives the first entry that matches. -/
theorem vfatFindEntry_eq (hs : 0 ∉ s) (h : pieceCount s.length ≤ 20) :
    vfatFindEntry cp sectorShift sbi rootCluster s dir.slots =
      some ((dir.entries.find? (Entry.matches cp · s)).map
        fun e => foundInode sectorShift sbi rootCluster e.short) := by
  rw [vfatFindEntry, vfatFindSlot_eq dir hs h, Option.map_some, Option.map_map]
  rfl

/-- A name that is listed is found at its entry if and only if the entry is the first one that is
taken for it, and has clusters. -/
theorem agrees_iff_findable (cp : Codepage) (sectorShift : Nat) (sbi : FatSbInfo)
    (rootCluster : UInt32) (dir : Directory) :
    (dir.Findable cp → dir.Agrees cp sectorShift sbi rootCluster) ∧
      (dir.Consistent sectorShift sbi rootCluster →
        (dir.Agrees cp sectorShift sbi rootCluster ↔ dir.Findable cp)) := by
  have hagrees : dir.Findable cp → dir.Agrees cp sectorShift sbi rootCluster := by
    intro hfind pre e d he hlists hoffset
    obtain ⟨pre', e', he', rfl⟩ := dir.lists_iff.mp hlists
    obtain rfl := he.unique he' hoffset.symm
    obtain ⟨hlong, hfile, hmatch, hfirst⟩ := hfind pre e he
    obtain ⟨post, hentries⟩ := he.entries
    have hname : upToNul (e.dirent cp (entryOffset pre' e)).dName = e.name cp := upToNul_cStr _
    have hfound : dir.entries.find? (Entry.matches cp · (e.name cp)) = some e := by
      refine List.find?_eq_some_iff_append.mpr ⟨hmatch, _, post, hentries, fun e' he' => ?_⟩
      rw [hfirst e' (mem_filterMap_entry.mp he')]
      rfl
    rw [hname]
    refine ⟨⟨foundInode sectorShift sbi rootCluster e.short, ?_, foundInode_isInode hfile⟩,
      fun hex => ?_⟩
    · rw [vfatFindEntry_eq (e.nul_notMem_name cp) (e.pieceCount_name_le cp), hfound]
      rfl
    · rcases e.name_cases cp with ⟨hlisted, -⟩ | ⟨-, hcount⟩
      · exact hlisted
      · exact absurd (hlong hex) (Nat.not_lt.mpr (hcount hex))
  refine ⟨hagrees, fun hdir => ⟨fun h pre e he => ?_, hagrees⟩⟩
  obtain ⟨⟨found, hfound, hinode⟩, hlong⟩ :=
    h pre e _ he (dir.lists_iff.mpr ⟨pre, e, he, rfl⟩) rfl
  have hname : upToNul (e.dirent cp (entryOffset pre e)).dName = e.name cp := upToNul_cStr _
  rw [hname] at hfound hlong
  rw [vfatFindEntry_eq (e.nul_notMem_name cp) (e.pieceCount_name_le cp)] at hfound
  obtain ⟨a, ha, rfl⟩ := Option.map_eq_some_iff.mp (Option.some.inj hfound)
  obtain ⟨post, hentries⟩ := he.entries
  have hmem : e ∈ dir.entries := hentries ▸ List.mem_append_right _ List.mem_cons_self
  have hmem' := List.mem_of_find?_eq_some ha
  obtain ⟨hfile, hstart⟩ := hdir.sameStart hmem' hmem hinode
  obtain rfl := hdir.eq_of_sameStart hmem' hmem hstart
  have hmatch : e.matches cp (e.name cp) = true :=
    List.find?_some (p := (Entry.matches cp · (e.name cp))) ha
  refine ⟨fun hex => ?_, hfile, hmatch, fun e' he' => ?_⟩
  · rcases e.name_cases cp with ⟨-, hcount⟩ | ⟨hle, hcount⟩
    · exact hcount
    · have heq := Entry.pieceCount_of_matchesLong (hlong hex)
      have hcount := hcount hex
      omega
  · -- The entry that is found is not in front of itself.
    by_contra hfound
    have hfront : (pre.filterMap Item.entry?).find? (Entry.matches cp · (e.name cp)) ≠ none := by
      intro hnone
      exact hfound (Bool.eq_false_iff.mpr
        (List.find?_eq_none.mp hnone e' (mem_filterMap_entry.mpr he')))
    obtain ⟨b, hb⟩ := Option.ne_none_iff_exists'.mp hfront
    rw [hentries, List.find?_append, hb, Option.some_or] at ha
    obtain rfl := Option.some.inj ha
    have hdistinct := hdir.distinct
    rw [hentries, List.pairwise_append] at hdistinct
    exact hdistinct.2.2 b (List.mem_of_find?_eq_some hb) b List.mem_cons_self
      (Slot.sameStart_self hfile)

/-! ## Examples -/

/-- The entry of a file `A` of ten bytes, with its first cluster. -/
def sampleShort (cluster : UInt8) : Slot := fun k =>
  if k = 0 then 0x41 else if k < 11 then 0x20 else if k = 11 then 0x20 else
  if k = 26 then cluster else if k = 28 ∧ cluster ≠ 0 then 10 else 0

def sampleEntry (cluster : UInt8) (h : cluster = 0 ∨ cluster = 5) : Entry where
  long := []
  pieces := []
  short := sampleShort cluster
  length_le := by decide
  nul_notMem := by decide
  holds := .nil
  first_ne := by rcases h with rfl | rfl <;> decide
  attr_eq := by rcases h with rfl | rfl <;> decide

/-- A directory of one file. -/
def sampleDirectory (e : Entry) (h : e.pieces = []) : Directory where
  items := [.entry e]
  tail := []
  ends := nofun
  length_le := by
    rw [List.flatMap_singleton, Item.slots, h]
    exact Nat.le_of_ble_eq_true rfl

def sampleFat : FatSbInfo := ⟨1, 19, 33, 2847, 14, 0, 9, .fat12⟩

/-- A directory of a deleted slot, the file `A` and a kernel. -/
def kernelDirectory : Directory where
  items := [.gap (sampleSlot 0xe5 0) (Or.inl rfl), .entry (sampleEntry 5 (Or.inr rfl)),
    .entry kernelEntry]
  tail := []
  ends := nofun
  length_le := by decide

/-- The sample has two entries. -/
theorem kernelDirectory_entryAt {pre : List Item} {e : Entry} (h : kernelDirectory.EntryAt pre e) :
    pre.filterMap Item.entry? = [] ∧ e = sampleEntry 5 (Or.inr rfl) ∨
      pre.filterMap Item.entry? = [sampleEntry 5 (Or.inr rfl)] ∧ e = kernelEntry := by
  obtain ⟨post, hitems⟩ := h
  rcases pre with _ | ⟨first, _ | ⟨second, _ | ⟨third, pre⟩⟩⟩
  · exact nomatch (List.cons.inj hitems).1
  · obtain ⟨rfl, hrest⟩ := List.cons.inj hitems
    exact Or.inl ⟨rfl, (Item.entry.inj (List.cons.inj hrest).1).symm⟩
  · obtain ⟨rfl, hrest⟩ := List.cons.inj hitems
    obtain ⟨rfl, hlast⟩ := List.cons.inj hrest
    exact Or.inr ⟨rfl, (Item.entry.inj (List.cons.inj hlast).1).symm⟩
  · have hlength := congrArg List.length hitems
    simp [kernelDirectory] at hlength

/-- No two of them have one name. -/
theorem kernelDirectory_consistent : kernelDirectory.Consistent 9 sampleFat 0 where
  rootSize_lt := by decide
  empty e he hempty := by
    rcases List.mem_pair.mp he with rfl | rfl
    · exact absurd hempty.1 (by decide +kernel)
    · exact absurd hempty.1 (by decide +kernel)
  root_ne e he hne := hne
  distinct := by
    refine List.pairwise_pair.mpr fun h => ?_
    exact absurd h.1 (by decide +kernel)

/-- Two files with clusters: both names are found, the long one and the short one. -/
theorem agrees_iff_findable_sample : kernelDirectory.Agrees codepage 9 sampleFat 0 := by
  refine ((agrees_iff_findable codepage 9 sampleFat 0 _).2 kernelDirectory_consistent).mpr
    fun pre e he => ?_
  rcases kernelDirectory_entryAt he with ⟨hpre, rfl⟩ | ⟨hpre, rfl⟩
  · refine ⟨fun ⟨s, hs⟩ => absurd rfl (Entry.matchesLong_iff.mp hs).1,
      fun h => absurd h.1 (by decide +kernel), by decide +kernel, fun e' he' => ?_⟩
    rw [← mem_filterMap_entry, hpre] at he'
    exact absurd he' List.not_mem_nil
  · refine ⟨fun _ => by decide, fun h => absurd h.1 (by decide +kernel), by decide +kernel,
      fun e' he' => ?_⟩
    rw [← mem_filterMap_entry, hpre, List.mem_singleton] at he'
    rw [he']
    decide +kernel

/-- An empty file is found as the root directory. -/
theorem empty_file_not_agrees : ¬∀ dir : Directory, dir.Agrees codepage 9 sampleFat 0 := by
  intro h
  have hat : (sampleDirectory (sampleEntry 0 (Or.inl rfl)) rfl).EntryAt []
      (sampleEntry 0 (Or.inl rfl)) := ⟨[], rfl⟩
  obtain ⟨⟨found, hfound, hinode⟩, -⟩ :=
    h _ [] _ _ hat (Directory.lists_iff.mpr ⟨[], _, hat, rfl⟩) rfl
  have hroot : vfatFindEntry codepage 9 sampleFat 0 [0x41] [sampleShort 0] =
      some (some ⟨7168, 0, 19, false⟩) := by
    decide +kernel
  have hname : upToNul (Entry.dirent codepage (sampleEntry 0 (Or.inl rfl))
      (entryOffset [] (sampleEntry 0 (Or.inl rfl)))).dName = [0x41] := by
    decide +kernel
  rw [hname] at hfound
  obtain rfl := Option.some.inj (Option.some.inj (hroot.symm.trans hfound))
  obtain ⟨-, hrest⟩ := hinode
  rw [if_neg (by decide +kernel)] at hrest
  exact absurd hrest.1 (by decide +kernel)

end Liigboot.Fs.Fat
