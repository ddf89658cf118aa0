import Liigboot.Fs.Ext2.Readdir

/-!
# Listing and lookup in an ext2 directory

The names of the entries of a well-formed directory are found at the inode numbers that the listing
shows. The listing shows nothing but the entries if and only if every record has an inode number.
-/

namespace Liigboot.Fs.Ext2

variable {d : Directory} {dir : Nat → Memory} {data : Memory} {blockShift k m o : Nat}
  {r : Record} {rs pre : List Record} {name : List UInt8}

/-! ## The search -/

/-- An entry of a given name. -/
def Record.IsNamed (r : Record) (name : List UInt8) : Prop := r.live = true ∧ r.name = name

theorem Record.At.match_iff (h : r.At data o) :
    ext2MatchEntry name data o = true ↔ r.IsNamed name := by
  rw [ext2MatchEntry, Bool.and_eq_true, Bool.and_eq_true, decide_eq_true_eq, decide_eq_true_eq,
    decide_eq_true_eq, h.inode, h.nameLen, Record.IsNamed, Record.live, decide_eq_true_eq]
  constructor
  · rintro ⟨⟨hinode, hlen⟩, hname⟩
    rw [hlen, h.name] at hname
    exact ⟨hinode, hname⟩
  · rintro ⟨hinode, rfl⟩
    exact ⟨⟨hinode, rfl⟩, h.name⟩

/-- The search comes to the records one after the other. -/
theorem Visited.record (hm : m < 2 ^ 32) (hmin : 8 ≤ m) (h : Visited name data m o)
    (hrs : RecordsAt data m 0 rs) :
    ∃ pre rest, rs = pre ++ rest ∧ RecordsAt data m o rest ∧ ∀ r ∈ pre, ¬r.IsNamed name := by
  induction h with
  | first => exact ⟨[], rs, rfl, hrs, fun r hr => (nomatch hr)⟩
  | @next o h hlook hne ih =>
    obtain ⟨pre, rest, rfl, hrest, hpre⟩ := ih
    cases hrest with
    | nil =>
      have hlt := hlook.1
      rw [u32] at hlt
      omega
    | @cons _ r rest hat hrest =>
      refine ⟨pre ++ [r], _, by rw [List.append_assoc]; rfl, hat.recLen.symm ▸ hrest, ?_⟩
      intro x hx
      rcases List.mem_append.mp hx with hx | hx
      · exact hpre x hx
      · obtain rfl := List.mem_singleton.mp hx
        rw [← hat.match_iff, hne]
        exact Bool.false_ne_true

/-- A block without an entry of the name is got through. -/
theorem passes_of_unnamed (hm : m < 2 ^ 32) (hmin : 8 ≤ m) (hrs : RecordsAt data m 0 rs)
    (hnone : ∀ r ∈ rs, ¬r.IsNamed name) : Passes name data m := by
  intro o hvis hlook
  obtain ⟨pre, rest, rfl, hrest, -⟩ := hvis.record hm hmin hrs
  cases hrest with
  | nil =>
    have hlt := hlook.1
    rw [u32] at hlt
    omega
  | @cons _ r rest hat hrest =>
    have hroom := hat.room
    refine ⟨Bool.eq_false_iff.mpr (mt hat.match_iff.mp (hnone r ?_)), by rw [hat.recLen]; omega⟩
    exact List.mem_append_right _ (List.mem_cons_self ..)

theorem RecordsAt.room (h : RecordsAt data m o rs) (hr : r ∈ rs) : o + 8 + r.name.length ≤ m := by
  induction h with
  | nil => cases hr
  | @cons o x rs hat hrest ih =>
    have hroom := hat.room
    rcases List.mem_cons.mp hr with rfl | hr
    · have hle := hrest.le
      omega
    · have hle := ih hr
      omega

/-- A block has room for the head of a record. -/
theorem RecordsAt.eight_le (h : RecordsAt data (2 ^ blockShift) 0 rs) : 8 ≤ 2 ^ blockShift := by
  cases rs with
  | nil => exact absurd h.eq_end (Nat.two_pow_pos blockShift).ne
  | cons r rest =>
    have hroom := h.room (List.mem_cons_self ..)
    omega

/-- A record is looked at when a name lies in it or behind it. -/
theorem RecordsAt.looks {x : Record} (hm : m < 2 ^ 32) (h : RecordsAt data m o (x :: rs))
    (hr : r ∈ x :: rs) (hname : r.name ≠ []) : Looks data m o := by
  have hroom := h.room hr
  have hlen := List.length_pos_iff.mpr hname
  cases h with
  | cons hat hrest =>
    have hle := hrest.le
    refine ⟨?_, by rw [hat.recLen]; omega⟩
    rw [u32]
    omega

/-- The search hits an entry behind records without its name. -/
theorem hits_behind {rest : List Record} (hm : m < 2 ^ 32) (h : Visited name data m o)
    (hrs : RecordsAt data m o (pre ++ r :: rest)) (hnone : ∀ x ∈ pre, ¬x.IsNamed name)
    (hnamed : r.IsNamed name) (hname : r.name ≠ []) :
    ∃ o', Hits name data m o' ∧ r.At data o' := by
  induction pre generalizing o with
  | nil =>
    have hlook := hrs.looks hm (List.mem_cons_self ..) hname
    cases hrs with
    | cons hat hrest => exact ⟨o, ⟨h, hlook, hat.match_iff.mpr hnamed⟩, hat⟩
  | cons x pre ih =>
    obtain ⟨hx, hpre⟩ := List.forall_mem_cons.mp hnone
    have hlook := hrs.looks (r := r) hm
      (List.mem_cons_of_mem _ (List.mem_append_right _ (List.mem_cons_self ..))) hname
    cases hrs with
    | cons hat hrest =>
      have hne := Bool.eq_false_iff.mpr (mt hat.match_iff.mp hx)
      exact ih (hat.recLen ▸ Visited.next h hlook hne) hrest hpre

/-- The bound in a block is the size of the block. -/
theorem blockBound_eq (hsize : d.size blockShift < 2 ^ 32) (hk : k < d.blocks.length) :
    blockBound (2 ^ blockShift) (d.size blockShift) k = 2 ^ blockShift := by
  have hle := Nat.mul_le_mul_right (2 ^ blockShift) hk
  rw [Nat.succ_mul] at hle
  rw [Directory.size] at hsize ⊢
  -- the size is a multiple of the block size, and so is the range of 32 bits
  have hpow : d.blocks.length * 2 ^ blockShift + 2 ^ blockShift ≤ 2 ^ 32 := by
    have hshift : 2 ^ blockShift < 2 ^ 32 := by omega
    have hlt := (Nat.pow_lt_pow_iff_right (by decide)).mp hshift
    have hsplit : 2 ^ 32 = 2 ^ (32 - blockShift) * 2 ^ blockShift := by
      rw [← Nat.pow_add, Nat.sub_add_cancel hlt.le]
    rw [hsplit] at hsize ⊢
    rw [← Nat.succ_mul]
    exact Nat.mul_le_mul_right _ (Nat.lt_of_mul_lt_mul_right hsize)
  have hpos := Nat.two_pow_pos blockShift
  rw [blockBound, maxOffset,
    u32_of_lt (show k * 2 ^ blockShift < 2 ^ 32 by omega), u32]
  exact Nat.min_eq_left (by omega)

/-- The place of a record in a directory. -/
theorem Directory.mem_records (h : r ∈ d.records) :
    ∃ k, ∃ hk : k < d.blocks.length, ∃ pre rest, d.blocks[k] = pre ++ r :: rest ∧
      d.records = (d.blocks.take k).flatten ++ pre ++
        (r :: (rest ++ (d.blocks.drop (k + 1)).flatten)) := by
  obtain ⟨block, hblock, hr⟩ := List.mem_flatten.mp h
  obtain ⟨k, hk, rfl⟩ := List.mem_iff_getElem.mp hblock
  obtain ⟨pre, rest, hsplit⟩ := List.append_of_mem hr
  refine ⟨k, hk, pre, rest, hsplit, ?_⟩
  have hblocks : d.blocks = d.blocks.take k ++ d.blocks[k] :: d.blocks.drop (k + 1) := by
    rw [← List.drop_eq_getElem_cons hk, List.take_append_drop]
  rw [Directory.records]
  nth_rewrite 1 [hblocks]
  rw [List.flatten_append, List.flatten_cons, hsplit, List.append_assoc, List.append_assoc,
    List.cons_append]

/-- In front of an entry there is none with its name. -/
theorem Directory.WellFormed.unnamed {before after : List Record} (hd : d.WellFormed)
    (hsplit : d.records = before ++ r :: after) (hr : r.live = true) :
    ∀ x ∈ before, ¬x.IsNamed r.name := by
  rintro x hx ⟨hlive, hname⟩
  have hnodup := hd.distinct
  rw [Directory.entries, hsplit, List.filter_append, List.filter_cons_of_pos hr, List.map_append,
    List.map_cons, List.nodup_append] at hnodup
  refine hnodup.2.2 x.name ?_ r.name (List.mem_cons_self ..) hname
  exact List.mem_map_of_mem (List.mem_filter.mpr ⟨hx, hlive⟩)

/-- An entry is found under its name. -/
theorem Directory.WellFormed.finds (hd : d.WellFormed) (hdir : d.Stored dir blockShift)
    (hsize : d.size blockShift < 2 ^ 32) (hr : r ∈ d.entries) :
    ∃ fuel found, ext2FindEntry r.name dir (2 ^ blockShift) (d.size blockShift) fuel =
      some (some found) ∧ deInode (dir found.1) found.2 = r.inode := by
  obtain ⟨hmem, hlive⟩ := List.mem_filter.mp hr
  obtain ⟨k, hk, pre, rest, hblock, hsplit⟩ := Directory.mem_records hmem
  have hnone := hd.unnamed hsplit hlive
  have hin := place_lt_size hk (Nat.two_pow_pos blockShift)
  rw [Nat.add_zero] at hin
  have hbs : 2 ^ blockShift < 2 ^ 32 := by
    have hle := Nat.mul_le_mul_right (2 ^ blockShift) (Nat.one_le_of_lt hk)
    rw [Nat.one_mul] at hle
    exact Nat.lt_of_le_of_lt hle hsize
  have hpass : ∀ j < k, Passes r.name (dir j)
      (blockBound (2 ^ blockShift) (d.size blockShift) j) := by
    intro j hj
    have hjlen := hj.trans hk
    rw [blockBound_eq hsize hjlen]
    refine passes_of_unnamed hbs (hdir j hjlen).eight_le (hdir j hjlen) fun x hx => hnone x ?_
    refine List.mem_append_left _ (List.mem_flatten.mpr ⟨d.blocks[j], ?_, hx⟩)
    exact List.mem_take_iff_getElem.mpr ⟨j, Nat.lt_min.mpr ⟨hj, hjlen⟩, rfl⟩
  obtain ⟨o, hhit, hat⟩ := hits_behind hbs .first (hblock ▸ hdir k hk)
    (fun x hx => hnone x (List.mem_append_right _ hx)) ⟨hlive, rfl⟩ (hd.named r hr).1
  rw [← blockBound_eq hsize hk] at hhit
  obtain ⟨fuel, hfuel⟩ := ext2FindEntry_hits hsize hin hpass hhit
  exact ⟨fuel, (k, o), hfuel, hat.inode⟩

/-! ## The listing -/

theorem Shows.name_eq {de : Dirent} (h : Shows de r) (hr : 0 ∉ r.name) : de.name = r.name := by
  rw [Dirent.name, h.dName, List.takeWhile_append_of_pos, List.takeWhile_cons_of_neg,
    List.append_nil]
  · decide
  · intro b hb
    exact decide_eq_true fun hzero => hr (hzero ▸ hb)

/-- What a call returns is shown by one of the records listed. -/
theorem Lists.shows {xs : List Record} {rs : List (Option Dirent)} {offset i : Nat} {de : Dirent}
    (h : Lists d blockShift xs) (hrun : Listed d blockShift rs offset)
    (hde : rs[i]? = some (some de)) : ∃ r, xs[i]? = some r ∧ Shows de r := by
  obtain ⟨hi, hget⟩ := List.getElem?_eq_some_iff.mp hde
  have hresult := (h rs offset hrun).get hi
    (by rwa [List.length_map, List.length_range])
  rw [List.get_eq_getElem, List.get_eq_getElem, hget, List.getElem_map,
    List.getElem_range] at hresult
  generalize xs[i]? = x at hresult
  cases hresult with
  | some hshows => exact ⟨_, rfl, hshows⟩

/-- The listing shows the entries, and their names are found at their inode numbers, if and only if
there are no records but those of the entries. -/
theorem ext2_readdir_lists_iff (hd : d.WellFormed) (hdir : d.Stored dir blockShift)
    (hsize : d.size blockShift < 2 ^ 32) :
    Lists d blockShift d.entries ∧ Resolves d blockShift ↔ ∀ r ∈ d.records, r.inode ≠ 0 := by
  constructor
  · rintro ⟨hlists, -⟩ r hr hzero
    obtain ⟨i, hi, rfl⟩ := List.mem_iff_getElem.mp hr
    obtain ⟨rs, offset, hrun, hlen⟩ := exists_listed hdir (i + 1)
    have hlt : i < rs.length := hlen ▸ Nat.lt_succ_self i
    -- the call shows this record, which is not that of an entry
    have hresult := (lists_records hsize rs offset hrun).get hlt
      (by rwa [List.length_map, List.length_range])
    rw [List.get_eq_getElem, List.get_eq_getElem, List.getElem_map, List.getElem_range,
      List.getElem?_eq_getElem hi] at hresult
    obtain ⟨de, hde, hshows⟩ : ∃ de, rs[i] = some de ∧ Shows de d.records[i] := by
      generalize rs[i] = x at hresult
      cases hresult with
      | some hshows => exact ⟨_, rfl, hshows⟩
    obtain ⟨e, he, hshows'⟩ := hlists.shows hrun (by rw [List.getElem?_eq_getElem hlt, hde])
    have hlive := (List.mem_filter.mp (List.mem_of_getElem? he)).2
    rw [Record.live, ← hshows'.dIno, hshows.dIno, hzero] at hlive
    cases hlive
  · intro hlive
    have hentries : d.entries = d.records :=
      List.filter_eq_self.mpr fun r hr => decide_eq_true (hlive r hr)
    refine ⟨hentries ▸ lists_records hsize, fun rs offset hrun de hde dir' hdir' => ?_⟩
    obtain ⟨i, hget⟩ := List.mem_iff_getElem?.mp hde
    obtain ⟨r, hr, hshows⟩ := (lists_records hsize).shows hrun hget
    have hmem : r ∈ d.entries := hentries ▸ List.mem_of_getElem? hr
    rw [hshows.name_eq (hd.named r hmem).2, hshows.dIno]
    exact hd.finds hdir' hsize hmem

/-! ## Examples -/

/-- A directory with one record in its block. -/
def oneRecord (inode : Nat) : Directory := ⟨[[⟨inode, 1024, 1, [0x61]⟩]]⟩

/-- The block of this directory. -/
def oneRecordDir (inode : UInt8) : Nat → Memory :=
  fun _ i => [inode, 0, 0, 0, 0, 4, 1, 1, 0x61].getD i 0

theorem oneRecord_stored (inode : UInt8) :
    (oneRecord inode.toNat).Stored (oneRecordDir inode) 10 := by
  intro k hk
  obtain rfl : k = 0 := Nat.lt_one_iff.mp hk
  refine .cons ⟨?_, rfl, rfl, rfl, rfl, (by decide : 9 ≤ 1024)⟩ .nil
  exact Nat.add_zero _

/-- A directory of two blocks with three records. -/
def threeRecords : Directory :=
  ⟨[[⟨5, 12, 1, [0x61]⟩, ⟨6, 1012, 2, [0x62, 0x63]⟩], [⟨7, 1024, 1, [0x64]⟩]]⟩

/-- Its blocks. -/
def threeRecordsDir : Nat → Memory := fun k i =>
  if k = 0 then
    [5, 0, 0, 0, 12, 0, 1, 1, 0x61, 0, 0, 0, 6, 0, 0, 0, 0xf4, 3, 2, 2, 0x62, 0x63].getD i 0
  else [7, 0, 0, 0, 0, 4, 1, 1, 0x64].getD i 0

theorem threeRecords_stored : threeRecords.Stored threeRecordsDir 10 := by
  intro k hk
  obtain rfl | rfl := Nat.le_one_iff_eq_zero_or_eq_one.mp (Nat.lt_succ_iff.mp hk)
  · exact .cons ⟨rfl, rfl, rfl, rfl, rfl, (by decide : 9 ≤ 12)⟩
      (.cons ⟨rfl, rfl, rfl, rfl, rfl, (by decide : 10 ≤ 1012)⟩ .nil)
  · exact .cons ⟨rfl, rfl, rfl, rfl, rfl, (by decide : 9 ≤ 1024)⟩ .nil

/-- The entries are listed, and found at their inode numbers. -/
theorem ext2_readdir_lists_three :
    Lists threeRecords 10 threeRecords.entries ∧ Resolves threeRecords 10 :=
  (ext2_readdir_lists_iff ⟨by decide, by decide⟩ threeRecords_stored (by decide)).mpr (by decide)

/-- A record without an inode number is listed. -/
theorem ext2_readdir_shows_deleted : ¬∀ (d : Directory) (blockShift : Nat) (dir : Nat → Memory),
    d.WellFormed → d.Stored dir blockShift → d.size blockShift < 2 ^ 32 →
      Lists d blockShift d.entries ∧ Resolves d blockShift := by
  intro h
  obtain ⟨hlists, -⟩ := h (oneRecord 0) 10 (oneRecordDir 0) ⟨by decide, by decide⟩
    (oneRecord_stored 0) (by decide)
  have hcall : ext2Readdir 0 (oneRecordDir 0) 10 ((oneRecord 0).size 10) 0 =
      (1024, some ⟨0, 0, 14, 8, [0x61, 0]⟩) := by
    decide
  -- there is no entry to show
  have hresult := hlists _ _ (.call .start ⟨0, oneRecordDir 0, oneRecord_stored 0, hcall⟩)
  cases (List.forall₂_cons.mp hresult).1

end Liigboot.Fs.Ext2
