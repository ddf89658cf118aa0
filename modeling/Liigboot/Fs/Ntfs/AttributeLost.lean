import Liigboot.Fs.Ntfs.AttributeFound

/-!
# Which attribute is lost

Where the lookup of an attribute does not get to the entry for it, it returns nothing, or goes by
what lies behind the block buffer or behind the list on the disk; these bytes may lead it round for
ever.
-/

namespace Liigboot.Fs.Ntfs

open Relation

/-- The same volume with other bytes on the stack and on the disk. -/
def Mount.around (v : Mount) (stack : Memory) (disk : Disk) : Mount := { v with stack, disk }

/-- A list in clusters lies in one run. -/
def FileRecord.InOneRun (f : FileRecord) : Prop :=
  ∀ l runs, f.list = some l → l.place = .nonResident runs → ∃ r, runs = [r]

variable {v : Mount} {mem : Memory} {mrec : Mrec} {f : FileRecord} {type attr list n : Nat}
  {es : List ListEntry} {l : AttrList}

/-! ## Lookups that do not return the attribute -/

/-- The loop over the attributes stops at the end when it looks for a list. -/
theorem attrLoop_atAttrList {w w' : Nat × Option Nat}
    (h : runLoop (attrStep atAttrList mem) n w = some w') : Attr.type mem w'.1 = atEnd := by
  induction n generalizing w with
  | zero => cases h
  | succ n ih =>
    rw [runLoop] at h
    cases hstep : attrStep atAttrList mem w with
    | hang =>
      rw [hstep] at h
      cases h
    | next u =>
      rw [hstep] at h
      exact ih h
    | stop w'' =>
      rw [hstep] at h
      obtain rfl := Option.some.inj h
      rw [attrStep] at hstep
      split_ifs at hstep with hend hlist
      obtain rfl := Step.stop.inj hstep
      exact hend

/-- A list is not returned. -/
theorem recordLoop_atAttrList {k : Nat} {result : Option (Mrec × Nat)}
    (h : runLoop (recordStep v atAttrList n) k mrec = some result) : result = none := by
  induction k generalizing mrec with
  | zero => cases h
  | succ k ih =>
    rw [runLoop] at h
    cases hstep : recordStep v atAttrList n mrec with
    | hang =>
      rw [hstep] at h
      cases h
    | next u =>
      rw [hstep] at h
      exact ih h
    | stop result' =>
      rw [hstep] at h
      obtain rfl := Option.some.inj h
      rw [recordStep] at hstep
      split at hstep
      · cases hstep
      · rename_i p attrListAttr hrun
        rw [if_pos (attrLoop_atAttrList hrun)] at hstep
        split at hstep
        · exact (Step.stop.inj hstep).symm
        · split at hstep
          · cases hstep
          · exact (Step.stop.inj hstep).symm
          · cases hstep

section NotFound

variable (hs : FileAt v mrec f) (hend : type ≠ atEnd) (hnone : mrec.find f.attrs type = none)
  (hlist : mrec.find f.attrs atAttrList = some list)

include hs hend hnone hlist

/-- A search that does not end. -/
theorem FileAt.lookup_hang (hsearch : ∀ n, listSearch v type n mrec.mem list = none) :
    ¬FindsAttr v mrec f type := by
  rintro ⟨n, result, hlookup, -⟩
  obtain ⟨k, hstep⟩ := hs.recordStep_eq (v := v) (Or.inr hnone) hlist
  have hhang : ∀ m, recordStep v type m mrec = .hang := by
    intro m
    by_contra hne
    refine hne ?_
    rw [← recordStep_steady v type (Nat.le_max_right k m) hne, hstep, ntfsAttrListLookup, hsearch]
  rw [ntfsAttrLookup, if_neg hend,
    (recordStep_steady v type).runLoop_hang .refl hhang] at hlookup
  cases hlookup

/-- A search that leads back to the record. -/
theorem FileAt.lookup_self
    (hsearch : ∃ n, listSearch v type n mrec.mem list = some (some mrec.mftRecordNo)) :
    ¬FindsAttr v mrec f type := by
  rintro ⟨n, result, hlookup, -⟩
  obtain ⟨m, hsearch⟩ := hsearch
  obtain ⟨k, hstep⟩ := hs.recordStep_eq (v := v) (Or.inr hnone) hlist
  have hgo : Goes (recordStep v type) mrec mrec := by
    refine ⟨max k m, ?_⟩
    rw [hstep, ntfsAttrListLookup, listSearch_le (Nat.le_max_right k m) hsearch]
    dsimp only
    rw [if_pos rfl]
  rw [ntfsAttrLookup, if_neg hend, (recordStep_steady v type).runLoop_stuck .refl hgo] at hlookup
  cases hlookup

/-- A search that ends without the entry. -/
theorem FileAt.lookup_missed (hl : f.list = some l) {o : Nat}
    (ho : entryOffset type l.entries = some o)
    (hsearch : ∃ n, listSearch v type n mrec.mem list = some none) : ¬FindsAttr v mrec f type := by
  rintro ⟨n, result, hlookup, hright⟩
  obtain ⟨m, hsearch⟩ := hsearch
  obtain ⟨k, hstep⟩ := hs.recordStep_eq (v := v) (Or.inr hnone) hlist
  have hstop : recordStep v type (max k m) mrec = .stop none := by
    rw [hstep, ntfsAttrListLookup, listSearch_le (Nat.le_max_right k m) hsearch]
  obtain ⟨i, hmissed⟩ := lookup_of_stop hend ⟨_, hstop⟩
  obtain rfl := ntfsAttrLookup_unique hlookup hmissed
  have hentry : f.entry type ≠ none := by
    intro hno
    rw [FileRecord.entry, hl, Option.bind_some, List.find?_eq_none] at hno
    have hnone := entryOffset_eq_none_iff.mpr fun e he heq => hno e he (decide_eq_true heq)
    rw [ho] at hnone
    cases hnone
  obtain ⟨e, he⟩ := Option.ne_none_iff_exists'.mp hentry
  rw [Right, hnone] at hright
  dsimp only at hright
  rw [he] at hright
  obtain ⟨_, _, _, _, hsome⟩ := hright
  cases hsome

end NotFound

/-! ## Other bytes -/

/-- A number of 32 bits that is put into 8 bytes of memory: as an entry it has the length 0, as a
reference it is the number. -/
theorem Memory.write_number (mem : Memory) (a : Nat) {y : Nat} (hy : y < 2 ^ 32) :
    AttrListEntry.type (mem.write a (leBytes y 8)) a = y ∧
      AttrListEntry.length (mem.write a (leBytes y 8)) a = 0 ∧
      memLe (mem.write a (leBytes y 8)) a 8 = y := by
  have hbyte : ∀ j < 8, mem.write a (leBytes y 8) (a + j) = UInt8.ofNat (y / 256 ^ j) := by
    intro j hj
    refine Memory.write_add ?_
    rw [leBytes, List.getElem?_map, List.getElem?_range hj, Option.map_some]
  have hnumber : ∀ k ≤ 8, memLe (mem.write a (leBytes y 8)) a k = y % 256 ^ k := by
    intro k hk
    rw [← leNat_leBytes]
    refine congrArg leNat (List.map_congr_left fun j hj => hbyte j ?_)
    exact (List.mem_range.mp hj).trans_le hk
  refine ⟨(hnumber 4 (by decide)).trans (Nat.mod_eq_of_lt hy), ?_,
    (hnumber 8 (by decide)).trans (Nat.mod_eq_of_lt (hy.trans (by decide)))⟩
  -- the two bytes are 0
  have hfour := hbyte 4 (by decide)
  have hfive := hbyte 5 (by decide)
  rw [Nat.div_eq_of_lt (hy.trans_le (by decide))] at hfour
  rw [Nat.div_eq_of_lt (hy.trans (by decide))] at hfive
  rw [AttrListEntry.length, memLe]
  change leNat [mem.write a (leBytes y 8) (a + 4 + 0), mem.write a (leBytes y 8) (a + 4 + 1)] = 0
  rw [Nat.add_zero, hfour, Nat.add_assoc, hfive]
  rfl

/-- An entry of another type and of the length 0 keeps the search at its place. -/
theorem listStep_stuck {a limit : Nat} (hlimit : a < limit) (hmem : a < 2 ^ 32)
    (htype : AttrListEntry.type mem a ≠ type) (hlen : AttrListEntry.length mem a = 0) :
    Goes (fun _ => listStep type limit mem) a a := by
  refine ⟨0, ?_⟩
  change listStep type limit mem a = _
  rw [listStep, if_pos hlimit, if_neg htype, hlen, Nat.add_zero, u32_of_lt hmem]

/-- The fewest entries that fill a block. -/
theorem exists_fill (es : List ListEntry) {size : Nat} (hpos : 0 < size)
    (h : size ≤ entriesLen es) :
    ∃ xs ys, es = xs ++ ys ∧ xs ≠ [] ∧ size ≤ entriesLen xs ∧ entriesLen xs.dropLast < size := by
  induction es generalizing size with
  | nil =>
    rw [entriesLen] at h
    omega
  | cons e es ih =>
    rw [entriesLen] at h
    by_cases hone : size ≤ e.length
    · exact ⟨[e], es, rfl, List.cons_ne_nil _ _, hone, hpos⟩
    · obtain ⟨xs, ys, rfl, hne, hfill, hbefore⟩ := @ih (size - e.length) (by omega) (by omega)
      refine ⟨e :: xs, ys, rfl, List.cons_ne_nil _ _, ?_, ?_⟩
      · rw [entriesLen]
        omega
      · rw [List.dropLast_cons_of_ne_nil hne, entriesLen]
        omega

theorem refsAt_congr {mem' : Memory} {a b : Nat} (h : RefsAt mem b es)
    (hsame : ∀ i < entriesLen es, mem' (a + i) = mem (b + i)) : RefsAt mem' a es := by
  induction es generalizing a b with
  | nil => trivial
  | cons e es ih =>
    obtain ⟨href, hrest⟩ := h
    have hlen := e.length_ge
    rw [entriesLen] at hsame
    refine ⟨?_, ih hrest fun i hi => ?_⟩
    · rw [← href]
      refine memLe_congr fun i hi => ?_
      rw [Nat.add_assoc, Nat.add_assoc]
      exact hsame _ (by omega)
    · rw [Nat.add_assoc, Nat.add_assoc]
      exact hsame _ (by omega)

/-- The references do not change with the memory between the last one of them and the entry in
front of it. -/
theorem refsAt_congr_last {mem' : Memory} {a b : Nat} (hne : es ≠ []) (h : RefsAt mem b es)
    (hsame : ∀ i < entriesLen es.dropLast, mem' (a + i) = mem (b + i))
    (hlast : ∀ i < 8, mem' (a + (entriesLen es.dropLast + 16 + i)) =
      mem (b + (entriesLen es.dropLast + 16 + i))) : RefsAt mem' a es := by
  rw [← List.dropLast_append_getLast hne, refsAt_append] at h ⊢
  refine ⟨refsAt_congr h.1 hsame, ?_, trivial⟩
  obtain ⟨-, href, -⟩ := h
  rw [← href]
  refine memLe_congr fun i hi => ?_
  have hbyte := hlast i hi
  rwa [← Nat.add_assoc, ← Nat.add_assoc, ← Nat.add_assoc, ← Nat.add_assoc] at hbyte

/-- A file is the same on another stack and another disk, when its list is. -/
theorem FileAt.around (hs : FileAt v mrec f) {stack : Memory} {disk : Disk}
    (hlist : ∀ l runs, f.list = some l → l.place = .nonResident runs →
      HeadersAt (runByte v.fs disk runs) 0 l.entries ∧ RefsAt (runByte v.fs disk runs) 0 l.entries) :
    FileAt (v.around stack disk) mrec f where
  record := hs.record
  noList := hs.noList
  oneList := hs.oneList
  list := by
    intro l hl
    obtain ⟨attr, hat, hplace⟩ := hs.list l hl
    refine ⟨attr, hat, ?_⟩
    rw [ListAt] at hplace ⊢
    cases hp : l.place with
    | resident valueOffset =>
      rw [hp] at hplace
      exact hplace
    | nonResident runs =>
      rw [hp] at hplace
      obtain ⟨hheaders, hrefs⟩ := hlist l runs hl hp
      exact { hplace with headers := hheaders, refs := hrefs }
  extension := by
    intro l hl e he hbase
    obtain ⟨ext, attrs, attr, hext⟩ := hs.extension l hl e he hbase
    exact ⟨ext, attrs, attr, { hext with }⟩

/-- The list of a file in clusters. -/
theorem FileAt.nonResident (hs : FileAt v mrec f) (hl : f.list = some l) {runs : List Run}
    (hp : l.place = .nonResident runs) :
    ∃ list, mrec.find f.attrs atAttrList = some list ∧
      NonResidentAt v mrec.mem list runs l.entries := by
  obtain ⟨list, hat, hplace⟩ := hs.list l hl
  rw [ListAt, hp] at hplace
  exact ⟨list, hat, hplace⟩

/-- A file is the same on another stack. -/
theorem FileAt.around_stack (hs : FileAt v mrec f) (stack : Memory) :
    FileAt (v.around stack v.disk) mrec f := by
  refine hs.around fun l runs hl hp => ?_
  obtain ⟨list, -, h⟩ := hs.nonResident hl hp
  exact ⟨h.headers, h.refs⟩

/-! ## Behind the block -/

section BehindBlock

variable {r : Run} {rs : List Run} (h : NonResidentAt v mem attr (r :: rs) es)
  (hcache : v.fs.blockShift < 16) (hrun : entriesLen es ≤ leNat r.len * v.fs.clustSize)

include h hcache hrun

/-- An entry that begins behind the block has any bytes, and may stop the search. -/
theorem NonResidentAt.block_stuck {xs ys : List ListEntry} (hsplit : es = xs ++ ys) (hne : xs ≠ [])
    (htypes : ∀ x ∈ xs, x.type ≠ type) (hfill : v.fs.blockSize ≤ entriesLen xs)
    (hbegin : entriesLen xs.dropLast < v.fs.blockSize) (hmore : entriesLen xs < entriesLen es)
    {y : Nat} (hy : y < 2 ^ 32) (hytype : y ≠ type) {stack : Memory}
    (hstack : v.stack = stack.write (v.buf + entriesLen xs) (leBytes y 8)) (n : Nat) :
    listBlock v type (entriesLen es) n (r.first : Int) = .hang := by
  obtain ⟨-, -, htwo, -, -⟩ := h.sizes
  have hbuffer := h.buffer
  have hbehind : ∀ i, v.clusterMem r.first (v.buf + entriesLen xs + i) =
      v.stack (v.buf + entriesLen xs + i) := by
    intro i
    rw [Nat.add_assoc]
    exact clusterMem_behind v r.first (by omega)
  obtain ⟨htype, hlen, -⟩ := Memory.write_number stack (v.buf + entriesLen xs) hy
  rw [← hstack] at htype hlen
  have hreach := listStep_reaches (h.headers_first hsplit hne hbegin hrun) htypes
    (show v.buf + entriesLen xs ≤ v.buf + entriesLen es by omega) hbuffer
  have hstuck : Goes (fun _ => listStep type (v.buf + entriesLen es) (v.clusterMem r.first))
      (v.buf + entriesLen xs) (v.buf + entriesLen xs) := by
    refine listStep_stuck (by omega) (by omega) ?_ ?_
    · rw [AttrListEntry.type, memLe_congr fun i _ => hbehind i]
      change AttrListEntry.type v.stack _ ≠ type
      rw [htype]
      exact hytype
    · rw [AttrListEntry.length, ← hlen]
      refine memLe_congr fun i _ => ?_
      rw [Nat.add_assoc]
      exact hbehind _
  rw [listBlock_eq hcache htwo h.first_lt hbuffer, (steady_const _).runLoop_stuck hreach hstuck 0 n]

/-- The reference of an entry at the end of the block has any bytes. -/
theorem NonResidentAt.block_ref {o : Nat} (ho : entryOffset type es = some o)
    (hin : o < v.fs.blockSize) (hout : v.fs.blockSize < o + 24) {y : Nat} (hy : y < 2 ^ 32)
    {stack : Memory} (hstack : v.stack = stack.write (v.buf + (o + 16)) (leBytes y 8)) :
    ∃ m, listBlock v type (entriesLen es) m (r.first : Int) = .stop (some y) := by
  obtain ⟨-, hdvd, htwo, -, -⟩ := h.sizes
  obtain ⟨before, e, after, rfl, htype, hbefore, rfl⟩ := entryOffset_some ho
  have haligned := entriesLen_dvd before
  have hlen := e.length_ge
  have hsize : entriesLen (before ++ e :: after) =
      entriesLen before + (e.length + entriesLen after) := entriesLen_append before (e :: after)
  have hsplit : before ++ e :: after = (before ++ [e]) ++ after := by
    rw [List.append_assoc, List.singleton_append]
  have hheaders := h.headers_first hsplit (List.append_ne_nil_of_right_ne_nil before
    (List.cons_ne_nil e [])) (by rw [List.dropLast_concat]; exact hin) hrun
  obtain ⟨m, hfound⟩ := listLoop_found (v.buf + entriesLen (before ++ e :: after)) hheaders hbefore
    htype (by omega) h.buffer
  refine ⟨m, ?_⟩
  rw [listBlock_eq hcache htwo h.first_lt h.buffer, hfound]
  dsimp only
  have href := (Memory.write_number stack (v.buf + (entriesLen before + 16)) hy).2.2
  rw [← hstack] at href
  rw [← href]
  refine congrArg (fun ref => Step.stop (some ref)) (memLe_congr fun i hi => ?_)
  rw [Nat.add_assoc v.buf, Nat.add_assoc v.buf]
  exact clusterMem_behind v r.first (by omega)

end BehindBlock

/-! ## The block behind the first one -/

theorem leNat_ge {b : UInt8} {bs : List UInt8} (h : b ∈ bs) : b.toNat ≤ leNat bs := by
  induction h with
  | head => exact Nat.le_add_right _ _
  | tail c _ ih => exact ih.trans ((Nat.le_mul_of_pos_left _ (by decide)).trans (Nat.le_add_left _ _))

/-- A run that is read as longer than a few clusters is longer. -/
theorem Run.lt_leNat (r : Run) {k : Nat} (hk : k < 128) (h : k < readLen r.len) :
    k < leNat r.len := by
  by_cases hplain : r.len.all plainByte = true
  · rwa [readLen_plain r.len_le hplain] at h
  · rw [List.all_eq_true] at hplain
    push Not at hplain
    obtain ⟨b, hb, hodd⟩ := hplain
    have hge := leNat_ge hb
    rw [plainByte, Ne, Bool.or_eq_true, not_or, decide_eq_true_eq] at hodd
    omega

section SecondBlock

variable {r : Run} (h : NonResidentAt v mem attr [r] es) (hcache : v.fs.blockShift < 16)
  (ho : entryOffset type es = none) (hne : es ≠ [])
  (hlast : entriesLen es.dropLast < v.fs.blockSize)

include h

theorem NonResidentAt.second_at : (r.first + v.fs.blockSize / v.fs.clustSize) * v.fs.clustSize =
    r.first * v.fs.clustSize + v.fs.blockSize := by
  obtain ⟨-, -, -, hsteps, -⟩ := h.sizes
  rw [Nat.add_mul, ← hsteps]

include hcache

/-- The block behind the first one lies on the volume. -/
theorem NonResidentAt.second_lt (hlong : v.fs.blockSize / v.fs.clustSize < readLen r.len) :
    (r.first + v.fs.blockSize / v.fs.clustSize) * v.fs.clustSize < 2 ^ 63 := by
  have hcluster : 2 ^ 9 ≤ v.fs.clustSize :=
    Nat.pow_le_pow_right (by decide) (h.sector.trans (Nat.le_add_left _ _))
  have hfew : v.fs.blockSize / v.fs.clustSize < 128 := by
    have hblock : v.fs.blockSize < 2 ^ 16 := Nat.pow_lt_pow_right (by decide) hcache
    refine (Nat.div_lt_iff_lt_mul (Nat.two_pow_pos _)).mpr (hblock.trans_le ?_)
    exact Nat.mul_le_mul_left 128 hcluster
  have hmem : r.first + v.fs.blockSize / v.fs.clustSize ∈ runClusters [r] := by
    rw [runClusters, meaning, List.flatMap_cons]
    exact List.mem_append_left _
      (List.mem_map.mpr ⟨_, List.mem_range.mpr (r.lt_leNat hfew hlong), rfl⟩)
  have hvolume := h.volume _ hmem
  rw [Nat.add_one_mul] at hvolume
  omega

include ho hne hlast

/-- The search goes on in the block behind the first one. -/
theorem NonResidentAt.goes_second (chunk : MappingChunk) (hlen : chunk.len = readLen r.len)
    (hlcn : chunk.lcn = (r.first : Int)) :
    ReflTransGen (Goes (blockStep v type (entriesLen es) chunk)) 0
      (v.fs.blockSize / v.fs.clustSize) := by
  obtain ⟨m, hblock⟩ := h.block_none hcache ho hne hlast h.one_covers
  exact .single (h.goes_behind hcache hblock chunk hlen hlcn)

variable (hlong : v.fs.blockSize / v.fs.clustSize < readLen r.len)

include hlong

/-- The block behind the first one stops the search when it begins with an entry of the length 0. -/
theorem NonResidentAt.second_stuck
    (htype : AttrListEntry.type v.disk (r.first * v.fs.clustSize + v.fs.blockSize) ≠ type)
    (hzero : AttrListEntry.length v.disk (r.first * v.fs.clustSize + v.fs.blockSize) = 0)
    (n : Nat) : listSearch v type n mem attr = none := by
  obtain ⟨-, -, htwo, -, -⟩ := h.sizes
  have hbuffer := h.buffer
  have hpos := entriesLen_dropLast hne
  have hsector : 2 ^ 9 ≤ v.fs.blockSize := Nat.pow_le_pow_right (by decide)
    (h.sector.trans ((Nat.le_add_left _ _).trans h.block))
  rw [← h.second_at] at htype hzero
  refine h.search_hang _ (h.goes_second hcache ho hne hlast) hlong (fun m => ?_) n
  have hstuck : Goes (fun _ => listStep type (v.buf + entriesLen es)
      (v.clusterMem (r.first + v.fs.blockSize / v.fs.clustSize))) v.buf v.buf := by
    refine listStep_stuck (by omega) (by omega) ?_ ?_
    · refine fun heq => htype (heq ▸ ?_)
      exact (memLe_congr fun i hi => clusterMem_add v _ (by omega)).symm
    · rw [← hzero]
      refine memLe_congr fun i hi => ?_
      rw [Nat.add_assoc, Nat.add_assoc]
      exact clusterMem_add v _ (by omega)
  rw [listBlock_eq hcache htwo (h.second_lt hcache hlong) hbuffer,
    (steady_const _).runLoop_stuck .refl hstuck 0 m]

/-- An entry of the type at the start of the block behind the first one is found. -/
theorem NonResidentAt.second_found
    (htype : AttrListEntry.type v.disk (r.first * v.fs.clustSize + v.fs.blockSize) = type) :
    ∃ n, listSearch v type n mem attr = some (some
      (AttrListEntry.mftRef v.disk (r.first * v.fs.clustSize + v.fs.blockSize))) := by
  obtain ⟨-, -, htwo, -, -⟩ := h.sizes
  have hbuffer := h.buffer
  have hpos := entriesLen_dropLast hne
  have hsector : 2 ^ 9 ≤ v.fs.blockSize := Nat.pow_le_pow_right (by decide)
    (h.sector.trans ((Nat.le_add_left _ _).trans h.block))
  rw [← h.second_at] at htype ⊢
  have hstop : listStep type (v.buf + entriesLen es)
      (v.clusterMem (r.first + v.fs.blockSize / v.fs.clustSize)) v.buf =
        .stop (some (AttrListEntry.mftRef v.disk
          ((r.first + v.fs.blockSize / v.fs.clustSize) * v.fs.clustSize))) := by
    have hsame : AttrListEntry.type (v.clusterMem (r.first + v.fs.blockSize / v.fs.clustSize))
        v.buf = type := by
      rw [← htype]
      exact memLe_congr fun i hi => clusterMem_add v _ (by omega)
    rw [listStep, if_pos (by omega), if_pos hsame]
    refine congrArg (fun ref => Step.stop (some ref)) (memLe_congr fun i hi => ?_)
    rw [Nat.add_assoc, Nat.add_assoc]
    exact clusterMem_add v _ (by omega)
  have hblock : listBlock v type (entriesLen es) 1
      ((r.first + v.fs.blockSize / v.fs.clustSize : Nat) : Int) =
        .stop (some (AttrListEntry.mftRef v.disk
          ((r.first + v.fs.blockSize / v.fs.clustSize) * v.fs.clustSize))) := by
    rw [listBlock_eq hcache htwo (h.second_lt hcache hlong) hbuffer, runLoop_stop hstop]
  exact h.search_stop _ (h.goes_second hcache ho hne hlast) hlong hblock

end SecondBlock

/-! ## The bytes that lead the search astray -/

/-- The reference of a last entry that begins in front of the end of the first block, as an
entry. -/
theorem NonResidentAt.last_ref {r : Run} (h : NonResidentAt v mem attr [r] es) {hne : es ≠ []}
    (hlast : entriesLen es.dropLast + 16 = v.fs.blockSize) :
    AttrListEntry.type v.disk (r.first * v.fs.clustSize + v.fs.blockSize) =
        (es.getLast hne).number ∧
      AttrListEntry.length v.disk (r.first * v.fs.clustSize + v.fs.blockSize) = 0 := by
  have hcovers := h.one_covers
  have hroom := entriesLen_dropLast hne
  have hrefs := h.refs
  rw [← List.dropLast_append_getLast hne, refsAt_append] at hrefs
  obtain ⟨-, href, -⟩ := hrefs
  have hnumber := (es.getLast hne).number_lt
  have hsame : memLe v.disk (r.first * v.fs.clustSize + v.fs.blockSize) (4 + (2 + 2)) =
      (es.getLast hne).mftRef := by
    rw [← href]
    refine memLe_congr fun i hi => ?_
    rw [Nat.zero_add, hlast, runByte_first v.fs v.disk [] (by omega), Nat.add_assoc]
  rw [memLe_add, memLe_add, ListEntry.mftRef] at hsame
  have hfour := memLe_lt v.disk (r.first * v.fs.clustSize + v.fs.blockSize) 4
  have htwo := memLe_lt v.disk (r.first * v.fs.clustSize + v.fs.blockSize + 4) 2
  rw [AttrListEntry.type, AttrListEntry.length]
  omega

/-- A list whose last entry begins in the first block does not change with the bytes behind it
there, when they are not the reference in it. -/
theorem FileAt.around_second (hs : FileAt v mrec f) (hl : f.list = some l) {r : Run}
    (hp : l.place = .nonResident [r])
    (hlast : entriesLen l.entries.dropLast < v.fs.blockSize) {w : Nat}
    (hw : v.fs.blockSize ≤ w) (hout : entriesLen l.entries.dropLast + 24 ≤ w ∨
      w + 8 ≤ entriesLen l.entries.dropLast + 16) (n : Nat) :
    FileAt (v.around v.stack (Memory.write v.disk (r.first * v.fs.clustSize + w) (leBytes n 8)))
      mrec f := by
  obtain ⟨list, -, h⟩ := hs.nonResident hl hp
  obtain ⟨-, hdvd, -⟩ := h.sizes
  have haligned := entriesLen_dvd l.entries.dropLast
  have hroom := entriesLen_dropLast l.nonempty
  have hcovers := h.one_covers
  have hsame : ∀ i < entriesLen l.entries, i < w ∨ w + 8 ≤ i →
      runByte v.fs (Memory.write v.disk (r.first * v.fs.clustSize + w) (leBytes n 8)) [r] (0 + i) =
        runByte v.fs v.disk [r] (0 + i) := by
    intro i hi hnot
    rw [Nat.zero_add, runByte_first v.fs _ [] (hi.trans_le hcovers),
      runByte_first v.fs v.disk [] (hi.trans_le hcovers)]
    rcases hnot with hfront | hbehind
    · exact Memory.write_before _ (Nat.add_lt_add_left hfront _)
    · obtain ⟨j, rfl⟩ := Nat.exists_eq_add_of_le hbehind
      rw [Nat.add_assoc w, ← Nat.add_assoc]
      exact Memory.write_behind (by rw [length_leBytes]; exact Nat.le_add_right 8 j)
  refine hs.around fun l' runs hl' hp' => ?_
  obtain rfl := Option.some.inj (hl.symm.trans hl')
  rw [hp] at hp'
  obtain rfl := ListPlace.nonResident.inj hp'
  refine ⟨headersAt_congr (k := entriesLen l.entries.dropLast + 6) h.headers ?_
    fun _ => Nat.le_refl _, refsAt_congr_last l.nonempty h.refs ?_ ?_⟩
  · intro i hi
    exact hsame i (by omega) (by omega)
  · intro i hi
    exact hsame i (by omega) (by omega)
  · intro i hi
    exact hsame (entriesLen l.entries.dropLast + 16 + i) (by omega) (by omega)

section Astray

variable {r : Run} (hs : FileAt v mrec f) (hl : f.list = some l)
  (hp : l.place = .nonResident [r]) (hend : type ≠ atEnd)
  (hnone : mrec.find f.attrs type = none) (hcache : v.fs.blockShift < 16)

include hs hl hp hend hnone hcache

/-- An entry behind the block is not an entry of the type. -/
theorem FileAt.lost_behind {xs ys : List ListEntry} (hsplit : l.entries = xs ++ ys) (hys : ys ≠ [])
    (htypes : ∀ x ∈ xs, x.type ≠ type) (hfill : v.fs.blockSize ≤ entriesLen xs) :
    ∃ stack disk, FileAt (v.around stack disk) mrec f ∧
      ¬FindsAttr (v.around stack disk) mrec f type := by
  obtain ⟨zs, ws, rfl, hne, hfill, hbegin⟩ := exists_fill xs (blockSize_pos v.fs) hfill
  obtain ⟨y, hy, hytype⟩ : ∃ y < 2 ^ 32, y ≠ type := by
    by_cases hzero : type = 0
    · exact ⟨1, by decide, by omega⟩
    · exact ⟨0, by decide, Ne.symm hzero⟩
  have hsplit' : l.entries = zs ++ (ws ++ ys) := by rw [hsplit, List.append_assoc]
  have hmore : entriesLen zs < entriesLen l.entries := by
    have hlast := entriesLen_dropLast (List.append_ne_nil_of_right_ne_nil ws hys)
    rw [hsplit', entriesLen_append]
    omega
  have hs' := hs.around_stack (v.stack.write (v.buf + entriesLen zs) (leBytes y 8))
  obtain ⟨list, hat, h⟩ := hs'.nonResident hl hp
  refine ⟨_, _, hs', hs'.lookup_hang hend hnone hat ?_⟩
  refine h.search_hang 0 (fun _ _ _ => .refl) (readLen_pos r.len_le h.allocated.2.1) fun m => ?_
  exact h.block_stuck hcache h.one_covers hsplit' hne
    (fun x hx => htypes x (List.mem_append_left _ hx)) hfill hbegin hmore hy hytype rfl m

/-- The reference of an entry at the end of the block is not the one in it. -/
theorem FileAt.lost_ref {o : Nat} (ho : entryOffset type l.entries = some o)
    (hin : o < v.fs.blockSize) (hout : v.fs.blockSize < o + 24) :
    ∃ stack disk, FileAt (v.around stack disk) mrec f ∧
      ¬FindsAttr (v.around stack disk) mrec f type := by
  have hs' := hs.around_stack (v.stack.write (v.buf + (o + 16)) (leBytes mrec.mftRecordNo 8))
  obtain ⟨list, hat, h⟩ := hs'.nonResident hl hp
  refine ⟨_, _, hs', hs'.lookup_self hend hnone hat ?_⟩
  obtain ⟨m, hblock⟩ := h.block_ref hcache h.one_covers ho hin hout
    mrec.mftRecordNo_lt rfl
  exact h.search_stop 0 (fun _ _ _ => .refl) (readLen_pos r.len_le h.allocated.2.1) hblock

/-- The block behind the first one does not end the search. -/
theorem FileAt.lost_second (ho : entryOffset type l.entries = none)
    (hlast : entriesLen l.entries.dropLast < v.fs.blockSize)
    (hlong : v.fs.blockSize / v.fs.clustSize < readLen r.len) :
    ∃ stack disk, FileAt (v.around stack disk) mrec f ∧
      ¬FindsAttr (v.around stack disk) mrec f type := by
  obtain ⟨list, hat, h⟩ := hs.nonResident hl hp
  obtain ⟨-, hdvd, -⟩ := h.sizes
  have haligned := entriesLen_dvd l.entries.dropLast
  by_cases hover : entriesLen l.entries.dropLast + 16 = v.fs.blockSize
  · -- the reference of the last entry is read as an entry
    obtain ⟨htype, hzero⟩ := h.last_ref hover
    by_cases hnumber : (l.entries.getLast l.nonempty).number = type
    · have hs' := hs.around_second (w := v.fs.blockSize + 16) hl hp hlast (Nat.le_add_right _ _)
        (show _ ∨ _ by omega) mrec.mftRecordNo
      obtain ⟨list, hat, h'⟩ := hs'.nonResident hl hp
      refine ⟨_, _, hs', hs'.lookup_self hend hnone hat ?_⟩
      obtain ⟨-, -, href⟩ := Memory.write_number v.disk
        (r.first * v.fs.clustSize + (v.fs.blockSize + 16))
        mrec.mftRecordNo_lt
      obtain ⟨n, hfound⟩ := h'.second_found hcache ho l.nonempty hlast hlong
        ((h'.last_ref hover).1.trans hnumber)
      refine ⟨n, hfound.trans (congrArg (fun ref => some (some ref)) (Eq.trans ?_ href))⟩
      rw [AttrListEntry.mftRef, Nat.add_assoc]
      rfl
    · exact ⟨v.stack, v.disk, hs, hs.lookup_hang hend hnone hat fun n => h.second_stuck hcache ho
        l.nonempty hlast hlong (htype.trans_ne hnumber) hzero n⟩
  · obtain ⟨y, hy, hytype⟩ : ∃ y < 2 ^ 32, y ≠ type := by
      by_cases hzero : type = 0
      · exact ⟨1, by decide, by omega⟩
      · exact ⟨0, by decide, Ne.symm hzero⟩
    have hs' := hs.around_second hl hp hlast (Nat.le_refl _)
      (show _ ∨ _ by omega) y
    obtain ⟨list, hat, h'⟩ := hs'.nonResident hl hp
    obtain ⟨htype, hzero, -⟩ := Memory.write_number v.disk
      (r.first * v.fs.clustSize + v.fs.blockSize) hy
    refine ⟨_, _, hs', hs'.lookup_hang hend hnone hat ?_⟩
    exact h'.second_stuck hcache ho l.nonempty hlast hlong (htype.trans_ne hytype) hzero

end Astray

/-! ## The condition is exact -/

/-- A list in one run that is not read can lead the lookup astray. -/
theorem FileAt.lost_of_not_read (hs : FileAt v mrec f) (hl : f.list = some l) {r : Run}
    (hp : l.place = .nonResident [r]) (hend : type ≠ atEnd)
    (hnone : mrec.find f.attrs type = none) (hread : ¬ListRead v.fs type l) :
    ∃ stack disk, FileAt (v.around stack disk) mrec f ∧
      ¬FindsAttr (v.around stack disk) mrec f type := by
  obtain ⟨list, hat, h⟩ := hs.nonResident hl hp
  have hcovers := h.one_covers
  by_cases hcache : v.fs.blockShift < 16
  · rw [ListRead, hp] at hread
    dsimp only at hread
    rw [and_iff_right hcache] at hread
    cases ho : entryOffset type l.entries with
    | none =>
      rw [ho] at hread
      have htypes := entryOffset_eq_none_iff.mp ho
      by_cases hlast : entriesLen l.entries.dropLast < v.fs.blockSize
      · refine hs.lost_second hl hp hend hnone hcache ho hlast ?_
        by_contra hshort
        exact hread ⟨hlast, r, rfl, Nat.le_of_not_lt hshort⟩
      · exact hs.lost_behind hl hp hend hnone hcache
          (List.dropLast_append_getLast l.nonempty).symm (List.cons_ne_nil _ _)
          (fun x hx => htypes x (List.mem_of_mem_dropLast hx)) (Nat.le_of_not_lt hlast)
    | some o =>
      rw [ho] at hread
      obtain ⟨before, e, after, hsplit, -, hbefore, rfl⟩ := entryOffset_some ho
      have hlen := e.length_ge
      have hsize := entriesLen_append before (e :: after)
      rw [← hsplit, entriesLen] at hsize
      by_cases hin : entriesLen before < v.fs.blockSize
      · refine hs.lost_ref hl hp hend hnone hcache ho hin ?_
        by_contra hfits
        exact hread ⟨r, rfl, Nat.le_of_not_lt hfits, by omega⟩
      · exact hs.lost_behind hl hp hend hnone hcache hsplit (List.cons_ne_nil _ _) hbefore
          (Nat.le_of_not_lt hin)
  · refine ⟨v.stack, v.disk, hs, hs.lookup_hang hend hnone hat fun n => ?_⟩
    refine h.search_hang 0 (fun _ _ _ => .refl) (readLen_pos r.len_le h.allocated.2.1)
      (fun m => ?_) n
    exact listBlock_large (Nat.le_of_not_lt hcache) _ m _

end Liigboot.Fs.Ntfs
