import Liigboot.Fs.Ntfs.RecordMemory
import Mathlib.Data.Int.Interval

/-!
# When the lookups of NTFS end

The lookup of an attribute runs along the attributes of a record, the entries of its list, the runs
and the blocks of a list that is not resident, and the records that the entries name. The lookup of
a record runs along the MFT. Each of these ends when it does not come back to where it was.
-/

namespace Liigboot.Fs.Ntfs

open Relation

/-! ## The volume -/

/-- A mounted volume that looks up records on its disk. `heap` is the buffer that a record is read
to, with the memory around it. -/
def Mount.ofDisk (fs : FsInfo) (disk : Disk) (v31 : Bool) (heap : Nat → Mrec) (stack : Memory)
    (buf : Nat) : Mount where
  fs
  disk
  mftRecordLookup n file := versionLookup fs disk v31 (heap file) file n
  stack
  buf
  lookup_le := by
    intro m n file r hmn h
    have hmore := runLoop_add h (n - m)
    rwa [Nat.add_sub_cancel' hmn] at hmore

/-! ## The conditions -/

/-- No entry in front of `limit` leads back to itself. -/
def EntriesPass (type limit : Nat) (mem : Memory) (entry : Nat) : Prop :=
  NoReturn (fun _ => listStep type limit mem) entry

/-- The block of a list at a cluster can be read, and no entry there leads back to itself. -/
def BlockPasses (v : Mount) (type len : Nat) (lcn : Int) : Prop :=
  ∃ r, ntfsRead v.fs v.disk v.fs.blockSize v.fs.blockSize (v.fs.blkOf lcn) 0 (toU64 lcn) =
    some (some r) ∧ EntriesPass type (u32 (v.buf + len)) (v.blockMem r.buf) v.buf

/-- The blocks of a run that are searched. -/
structure RunPasses (v : Mount) (type len : Nat) (chunk : MappingChunk) : Prop where
  block : ∀ vcn, ReflTransGen (Goes (blockStep v type len chunk)) 0 vcn → vcn < chunk.len →
    BlockPasses v type len (chunk.lcn + vcn)
  noReturn : NoReturn (blockStep v type len chunk) 0

/-- The runs of a list that are searched. -/
structure RunsPass (v : Mount) (type len : Nat) (mem : Memory) (stream attrLen : Nat) : Prop where
  run : ∀ s, ReflTransGen (Goes (listRunStep v type len mem stream attrLen))
    (0, mappingChunkInit) s → ∀ offset chunk,
    parseRun mem stream attrLen s.1 s.2 = (false, offset, chunk) →
    chunk.flags &&& mapUnallocated = 0 → chunk.flags &&& mapEnd = 0 →
    chunk.flags &&& mapAllocated ≠ 0 → RunPasses v type len chunk
  noReturn : NoReturn (listRunStep v type len mem stream attrLen) (0, mappingChunkInit)

/-- A list can be searched: no entry, block or run leads back to itself. -/
def ListPasses (v : Mount) (type : Nat) (mem : Memory) (attr : Nat) : Prop :=
  if Attr.nonResident mem attr = 0 then
    EntriesPass type (u32 (attr + Attr.valueLen mem attr)) mem
      (u32 (attr + Attr.valueOffset mem attr))
  else
    RunsPass v type (u32 (Attr.dataSize mem attr)) mem
      (u32 (attr + Attr.mappingPairsOffset mem attr)) (u32 (attr + Attr.len mem attr))

/-- The attributes of a record, and its list at the end of them. -/
structure RecordPasses (v : Mount) (v31 : Bool) (heap : Nat → Mrec) (type : Nat) (mrec : Mrec) :
    Prop where
  noReturn : NoReturn (fun _ => attrStep type mrec.mem) mrec.firstAttr
  list : ∀ n attr list,
    runLoop (attrStep type mrec.mem) n mrec.firstAttr = some (attr, some list) →
    Attr.type mrec.mem attr = atEnd → ListPasses v type mrec.mem list ∧
      ∀ n mftRef, listSearch v type n mrec.mem list = some (some mftRef) →
        mrec.mftRecordNo ≠ mftRef →
          LookupPasses v.fs v.disk v31 (heap (u32 mftRef)) (u32 mftRef)

/-- The records in which an attribute is looked for. -/
structure AttrPasses (v : Mount) (v31 : Bool) (heap : Nat → Mrec) (type : Nat) (mrec : Mrec) :
    Prop where
  record : ∀ r, ReflTransGen (Goes (recordStep v type)) mrec r → RecordPasses v v31 heap type r
  noReturn : NoReturn (recordStep v type) mrec

/-! ## Finitely many states -/

variable {v : Mount} {type len limit : Nat} {mem : Memory} {mrec : Mrec}

/-- Pairs of bounded numbers are finitely many. -/
theorem finite_lt_pairs (a : Nat) :
    {w : Nat × Option Nat | w.1 < a ∧ ∀ l ∈ w.2, l < a}.Finite := by
  have hoption : {l : Option Nat | ∀ i ∈ l, i < a}.Finite := by
    refine (((Set.finite_lt_nat a).image some).insert none).subset ?_
    intro l hl
    cases l with
    | none => exact Or.inl rfl
    | some i => exact Or.inr ⟨i, hl i rfl, rfl⟩
  exact ((Set.finite_lt_nat a).prod hoption).subset fun w hw => hw

/-- The walk over the attributes of a record comes to finitely many places. -/
theorem attr_finite (type : Nat) (mrec : Mrec) :
    {w | ReflTransGen (Goes fun _ => attrStep type mrec.mem) mrec.firstAttr w}.Finite := by
  refine (finite_lt_pairs (2 ^ 32)).subset fun w hw => reached_mem ?_ ?_ hw
  · exact ⟨Nat.mod_lt _ (by decide), fun l hl => nomatch hl⟩
  · rintro n ⟨attr, list⟩ u ⟨hattr, hlist⟩ hstep
    rw [attrStep] at hstep
    dsimp only at hattr hlist hstep
    split_ifs at hstep
    · obtain rfl := Step.next.inj hstep
      refine ⟨Nat.mod_lt _ (by decide), fun l hl => ?_⟩
      obtain rfl := Option.some.inj hl
      exact hattr
    · obtain rfl := Step.next.inj hstep
      exact ⟨Nat.mod_lt _ (by decide), hlist⟩

/-- The walk over the entries of a list does. -/
theorem entries_finite (type limit : Nat) (mem : Memory) (entry : Nat) :
    {e | ReflTransGen (Goes fun _ => listStep type limit mem) entry e}.Finite := by
  refine ((Set.finite_lt_nat (2 ^ 32)).insert entry).subset fun e he => reached_mem ?_ ?_ he
  · exact Set.mem_insert _ _
  · intro n t u _ hstep
    rw [listStep] at hstep
    split_ifs at hstep
    obtain rfl := Step.next.inj hstep
    exact Or.inr (Nat.mod_lt _ (by decide))

/-- The walk over the blocks of a run does. -/
theorem blocks_finite (v : Mount) (type len : Nat) (chunk : MappingChunk) :
    {vcn | ReflTransGen (Goes (blockStep v type len chunk)) 0 vcn}.Finite := by
  refine (Set.finite_lt_nat (2 ^ 64)).subset fun vcn hvcn => reached_mem ?_ ?_ hvcn
  · exact Nat.two_pow_pos 64
  · intro n t u _ hstep
    rw [blockStep] at hstep
    split_ifs at hstep
    split at hstep
    · cases hstep
    · cases hstep
    · obtain rfl := Step.next.inj hstep
      exact Nat.mod_lt _ (by decide)

/-- A number of a run has 64 bits. -/
theorem readDown_lt {stream : Nat → UInt8} (base count : Nat) {res : Nat} (hres : res < 2 ^ 64) :
    readDown stream lenStep base count res < 2 ^ 64 := by
  induction count generalizing res with
  | zero => exact hres
  | succ count ih =>
    refine ih ?_
    rw [lenStep]
    refine Nat.or_lt_two_pow (Nat.mod_lt _ (by decide)) ?_
    have hval := (stream (base + (count + 1))).toNat_lt
    refine Nat.xor_lt_two_pow ?_ ?_
    · rw [Nat.shiftRight_eq_div_pow]
      omega
    · rw [Nat.shiftRight_eq_div_pow]
      omega

/-- The offsets and chunks that the loop over the runs comes to. -/
def runStates : Set (Nat × MappingChunk) :=
  {s | s.1 < 2 ^ 32 ∧ s.2.vcn = 0 ∧ (-2 ^ 63 ≤ s.2.lcn ∧ s.2.lcn < 2 ^ 63) ∧ s.2.len < 2 ^ 64}

/-- There are finitely many states of a run's decoding. -/
theorem runStates_finite : runStates.Finite := by
  have hword : Finite UInt32 :=
    Finite.of_injective UInt32.toFin fun _ _ h => UInt32.toFin_inj.mp h
  have hflags : (Set.univ : Set UInt32).Finite := Set.finite_univ
  have hprod := (Set.finite_lt_nat (2 ^ 32)).prod
    ((Set.finite_Ico (-2 ^ 63 : Int) (2 ^ 63)).prod
      ((Set.finite_lt_nat (2 ^ 64)).prod hflags))
  refine (hprod.image fun p => (p.1, (⟨0, p.2.1, p.2.2.1, p.2.2.2⟩ : MappingChunk))).subset ?_
  rintro ⟨offset, ⟨vcn, lcn, len, flags⟩⟩ ⟨hoffset, hvcn, hlcn, hlen⟩
  dsimp only at hvcn
  subst hvcn
  exact ⟨(offset, lcn, len, flags), ⟨hoffset, hlcn, hlen, trivial⟩, rfl⟩

/-- A signed number of 64 bits. -/
theorem i64_range (n : Int) : -2 ^ 63 ≤ i64 n ∧ i64 n < 2 ^ 63 := by
  have hlow := Int.le_bmod (x := n) (show 0 < 2 ^ 64 by decide)
  have hhigh := Int.bmod_lt (x := n) (show 0 < 2 ^ 64 by decide)
  rw [i64]
  omega

/-- The decoding of a run stays in these states. -/
theorem parseRun_mem {mem : Memory} {stream attrLen offset offset' : Nat}
    {chunk chunk' : MappingChunk} (hs : (offset, chunk) ∈ runStates)
    (h : parseRun mem stream attrLen offset chunk = (false, offset', chunk')) :
    (offset', chunk') ∈ runStates := by
  rw [parseRun] at h
  split_ifs at h
  · obtain ⟨-, rfl, rfl⟩ := Prod.mk.inj h
    exact hs
  · obtain ⟨hoffset, hvcn, hlcn, hlen⟩ := hs
    rw [parseDataRun] at h
    dsimp only at h
    by_cases hend : offset > offset ∨ mem (u32 (stream + offset)) = 0
    · rw [if_pos hend] at h
      obtain ⟨-, hnext⟩ := Prod.mk.inj h
      obtain ⟨rfl, rfl⟩ := Prod.mk.inj hnext
      exact ⟨hoffset, hvcn, hlcn, hlen⟩
    · rw [if_neg hend] at h
      by_cases hwide : (mem (u32 (stream + offset)) &&& 15).toNat > 8 ∨
          (mem (u32 (stream + offset)) >>> 4).toNat > 8
      · rw [if_pos hwide] at h
        cases (Prod.mk.inj h).1
      · rw [if_neg hwide] at h
        obtain ⟨-, hnext⟩ := Prod.mk.inj h
        obtain ⟨rfl, rfl⟩ := Prod.mk.inj hnext
        exact ⟨Nat.mod_lt _ (by decide), hvcn, i64_range _, readDown_lt _ _ (by decide)⟩

/-- The walk over the runs comes to finitely many of them. -/
theorem runs_finite (v : Mount) (type len : Nat) (mem : Memory) (stream attrLen : Nat) :
    {s | ReflTransGen (Goes (listRunStep v type len mem stream attrLen))
      (0, mappingChunkInit) s}.Finite := by
  refine runStates_finite.subset fun s hs => reached_mem ?_ ?_ hs
  · exact ⟨by decide, rfl, by decide, by decide⟩
  · rintro n ⟨offset, chunk⟩ u ht hstep
    rw [listRunStep] at hstep
    rcases hparse : parseRun mem stream attrLen offset chunk with ⟨failed, offset', chunk'⟩
    dsimp only at hstep
    rw [hparse] at hstep
    cases failed with
    | true => cases hstep
    | false =>
      have hmem := parseRun_mem ht hparse
      dsimp only at hstep
      split_ifs at hstep
      · obtain rfl := Step.next.inj hstep
        exact hmem
      · split at hstep
        · cases hstep
        · cases hstep
        · obtain rfl := Step.next.inj hstep
          exact hmem
      · obtain rfl := Step.next.inj hstep
        exact hmem

/-- The walk from record to record comes to finitely many records. -/
theorem records_finite (v : Mount) (type : Nat) (mrec : Mrec) :
    {r | ReflTransGen (Goes (recordStep v type)) mrec r}.Finite := by
  have hfound : {r | ∃ file < 2 ^ 32, ∃ n, v.mftRecordLookup n file = some (some r)}.Finite := by
    have hunion := (Set.finite_lt_nat (2 ^ 32)).biUnion fun file _ =>
      (show {r | ∃ n, v.mftRecordLookup n file = some (some r)}.Finite from by
        refine Set.Subsingleton.finite ?_
        rintro r ⟨m, hm⟩ r' ⟨n, hn⟩
        have hm' := v.lookup_le (Nat.le_max_left m n) hm
        have hn' := v.lookup_le (Nat.le_max_right m n) hn
        rw [hm'] at hn'
        exact Option.some.inj (Option.some.inj hn'))
    refine hunion.subset ?_
    rintro r ⟨file, hfile, hr⟩
    exact Set.mem_biUnion hfile hr
  refine (hfound.insert mrec).subset fun r hr => reached_mem (Set.mem_insert _ _) ?_ hr
  intro n t u ht hstep
  rw [recordStep] at hstep
  split at hstep
  · cases hstep
  · split_ifs at hstep
    split at hstep
    · cases hstep
    · split at hstep
      · cases hstep
      · cases hstep
      · rename_i retval hlist
        obtain rfl := Step.next.inj hstep
        rw [ntfsAttrListLookup] at hlist
        split at hlist
        · cases hlist
        · cases hlist
        · split_ifs at hlist
          · obtain rfl := Option.some.inj (Option.some.inj hlist)
            exact ht
          · exact Or.inr ⟨_, Nat.mod_lt _ (by decide), n, hlist⟩

/-! ## Each loop -/

/-- The walk over the entries ends when no entry comes again. -/
theorem entries_end_iff {type limit : Nat} {mem : Memory} {entry : Nat} :
    (∃ n result, runLoop (listStep type limit mem) n entry = some result) ↔
      EntriesPass type limit mem entry := by
  rw [(steady_const _).ends_iff (entries_finite type limit mem entry), passes_iff]
  refine and_iff_right fun e _ => ⟨0, ?_⟩
  rw [listStep]
  split_ifs <;> exact nofun

/-- A block of a list is got through when its entries are. -/
theorem listBlock_ne_hang_iff {lcn : Int} :
    (∃ n, listBlock v type len n lcn ≠ .hang) ↔ BlockPasses v type len lcn := by
  rw [BlockPasses]
  cases hread : ntfsRead v.fs v.disk v.fs.blockSize v.fs.blockSize (v.fs.blkOf lcn) 0
      (toU64 lcn) with
  | none =>
    have hhang : ∀ n, listBlock v type len n lcn = .hang := by
      intro n
      unfold listBlock
      rw [hread]
    refine ⟨fun ⟨n, hn⟩ => absurd (hhang n) hn, fun ⟨r, hr, _⟩ => (nomatch hr)⟩
  | some got =>
    cases got with
    | none => exact absurd hread ntfsRead_ne_fails
    | some r =>
      have hblock : ∀ n, listBlock v type len n lcn ≠ .hang ↔
          ∃ result, runLoop (listStep type (u32 (v.buf + len)) (v.blockMem r.buf)) n v.buf =
            some result := by
        intro n
        unfold listBlock
        rw [hread]
        dsimp only
        cases runLoop (listStep type (u32 (v.buf + len)) (v.blockMem r.buf)) n v.buf with
        | none => exact ⟨fun h => absurd rfl h, fun ⟨_, h⟩ => nomatch h⟩
        | some found =>
          refine ⟨fun _ => ⟨found, rfl⟩, fun _ => ?_⟩
          cases found <;> exact nofun
      simp only [hblock, entries_end_iff]
      constructor
      · intro h
        exact ⟨r, rfl, h⟩
      · rintro ⟨r', hr', hpass⟩
        obtain rfl := Option.some.inj (Option.some.inj hr')
        exact hpass

/-- A run is got through when its blocks are. -/
theorem blocks_end_iff {chunk : MappingChunk} :
    (∃ n result, runLoop (blockStep v type len chunk n) n 0 = some result) ↔
      RunPasses v type len chunk := by
  have hstep : ∀ vcn, (∃ n, blockStep v type len chunk n vcn ≠ .hang) ↔
      (vcn < chunk.len → BlockPasses v type len (chunk.lcn + vcn)) := by
    intro vcn
    rw [← listBlock_ne_hang_iff]
    by_cases hin : vcn < chunk.len
    · rw [imp_iff_right hin]
      refine exists_congr fun n => ?_
      unfold blockStep
      rw [if_pos hin]
      cases listBlock v type len n (chunk.lcn + vcn) with
      | hang => exact ⟨fun h => absurd rfl h, fun h => absurd rfl h⟩
      | stop result => exact ⟨fun _ => nofun, fun _ => nofun⟩
      | next u => exact ⟨fun _ => nofun, fun _ => nofun⟩
    · refine iff_of_true ⟨0, ?_⟩ fun h => absurd h hin
      unfold blockStep
      rw [if_neg hin]
      exact nofun
  rw [(blockStep_steady v type len chunk).ends_iff (blocks_finite v type len chunk), passes_iff]
  simp only [hstep]
  exact ⟨fun ⟨h, hno⟩ => ⟨h, hno⟩, fun ⟨h, hno⟩ => ⟨h, hno⟩⟩

/-- An iteration over the runs hangs in the blocks of an allocated run only. -/
theorem listRunStep_hang_iff {stream attrLen n : Nat} {s : Nat × MappingChunk} :
    listRunStep v type len mem stream attrLen n s = .hang ↔
      ∃ offset chunk, parseRun mem stream attrLen s.1 s.2 = (false, offset, chunk) ∧
        chunk.flags &&& mapUnallocated = 0 ∧ chunk.flags &&& mapEnd = 0 ∧
        chunk.flags &&& mapAllocated ≠ 0 ∧ runLoop (blockStep v type len chunk n) n 0 = none := by
  rw [listRunStep]
  constructor
  · intro h
    rcases hparse : parseRun mem stream attrLen s.1 s.2 with ⟨failed, offset, chunk⟩
    rw [hparse] at h
    cases failed with
    | true => cases h
    | false =>
      dsimp only at h
      split_ifs at h with hunalloc hend halloc
      refine ⟨offset, chunk, rfl, not_not.mp hunalloc, not_not.mp hend, halloc, ?_⟩
      cases hrun : runLoop (blockStep v type len chunk n) n 0 with
      | none => rfl
      | some found =>
        rw [hrun] at h
        cases found <;> cases h
  · rintro ⟨offset, chunk, hparse, hunalloc, hend, halloc, hrun⟩
    rw [hparse]
    dsimp only
    rw [if_neg (not_not.mpr hunalloc), if_neg (not_not.mpr hend), if_pos halloc, hrun]

/-- A list in runs is got through when its runs are. -/
theorem runs_end_iff {stream attrLen : Nat} :
    (∃ n result, runLoop (listRunStep v type len mem stream attrLen n) n (0, mappingChunkInit) =
      some result) ↔ RunsPass v type len mem stream attrLen := by
  have hstep : ∀ s, (∃ n, listRunStep v type len mem stream attrLen n s ≠ .hang) ↔
      ∀ offset chunk, parseRun mem stream attrLen s.1 s.2 = (false, offset, chunk) →
        chunk.flags &&& mapUnallocated = 0 → chunk.flags &&& mapEnd = 0 →
        chunk.flags &&& mapAllocated ≠ 0 → RunPasses v type len chunk := by
    intro s
    constructor
    · rintro ⟨n, hn⟩ offset chunk hparse hunalloc hend halloc
      rw [← blocks_end_iff]
      by_contra hno
      push Not at hno
      exact hn (listRunStep_hang_iff.mpr ⟨offset, chunk, hparse, hunalloc, hend, halloc,
        Option.eq_none_iff_forall_ne_some.mpr (hno n)⟩)
    · intro h
      by_contra hall
      push Not at hall
      obtain ⟨offset, chunk, hparse, hunalloc, hend, halloc, -⟩ :=
        listRunStep_hang_iff.mp (hall 0)
      obtain ⟨n, result, hrun⟩ :=
        blocks_end_iff.mpr (h offset chunk hparse hunalloc hend halloc)
      obtain ⟨offset', chunk', hparse', -, -, -, hnone⟩ := listRunStep_hang_iff.mp (hall n)
      obtain ⟨-, hnext⟩ := Prod.mk.inj (hparse.symm.trans hparse')
      obtain rfl := (Prod.mk.inj hnext).2
      rw [hrun] at hnone
      cases hnone
  rw [(listRunStep_steady v type len mem stream attrLen).ends_iff
    (runs_finite v type len mem stream attrLen), passes_iff]
  simp only [hstep]
  exact ⟨fun ⟨h, hno⟩ => ⟨h, hno⟩, fun ⟨h, hno⟩ => ⟨h, hno⟩⟩

/-- The search in an attribute list ends when the list is got through. -/
theorem listSearch_ends_iff {attr : Nat} :
    (∃ n result, listSearch v type n mem attr = some result) ↔ ListPasses v type mem attr := by
  rw [ListPasses]
  simp only [listSearch]
  split_ifs with hres
  · exact entries_end_iff
  · exact runs_end_iff

/-- The walk over the attributes ends when none comes again. -/
theorem attrs_end_iff :
    (∃ n w, runLoop (attrStep type mrec.mem) n mrec.firstAttr = some w) ↔
      NoReturn (fun _ => attrStep type mrec.mem) mrec.firstAttr := by
  rw [(steady_const _).ends_iff (attr_finite type mrec), passes_iff]
  refine and_iff_right fun w _ => ⟨0, ?_⟩
  rw [attrStep]
  split_ifs <;> exact nofun

section Records

variable {v31 : Bool} {heap : Nat → Mrec}
  (hv : ∀ file, (∃ n result, v.mftRecordLookup n file = some result) ↔
    LookupPasses v.fs v.disk v31 (heap file) file)

include hv

/-- A lookup by the list ends when the search does, and the lookup of the record that it names. -/
theorem listLookup_ends_iff {list : Nat} :
    (∃ n result, ntfsAttrListLookup v type n list mrec = some result) ↔
      ListPasses v type mrec.mem list ∧
        ∀ n mftRef, listSearch v type n mrec.mem list = some (some mftRef) →
          mrec.mftRecordNo ≠ mftRef →
            LookupPasses v.fs v.disk v31 (heap (u32 mftRef)) (u32 mftRef) := by
  constructor
  · rintro ⟨n, result, h⟩
    rw [ntfsAttrListLookup] at h
    cases hsearch : listSearch v type n mrec.mem list with
    | none =>
      rw [hsearch] at h
      cases h
    | some found =>
      refine ⟨listSearch_ends_iff.mp ⟨n, found, hsearch⟩, fun m mftRef hm hne => ?_⟩
      have hfound := listSearch_le (Nat.le_max_left n m) hsearch
      rw [listSearch_le (Nat.le_max_right n m) hm] at hfound
      obtain rfl := Option.some.inj hfound
      rw [hsearch] at h
      dsimp only at h
      rw [if_neg hne] at h
      exact (hv _).mp ⟨n, result, h⟩
  · rintro ⟨hpass, hrecord⟩
    obtain ⟨n, found, hsearch⟩ := listSearch_ends_iff.mpr hpass
    cases found with
    | none =>
      refine ⟨n, none, ?_⟩
      rw [ntfsAttrListLookup, hsearch]
    | some mftRef =>
      by_cases hown : mrec.mftRecordNo = mftRef
      · refine ⟨n, some mrec, ?_⟩
        rw [ntfsAttrListLookup, hsearch]
        exact if_pos hown
      · obtain ⟨m, result, hlookup⟩ := (hv _).mpr (hrecord n mftRef hsearch hown)
        refine ⟨max n m, result, ?_⟩
        rw [ntfsAttrListLookup, listSearch_le (Nat.le_max_left n m) hsearch]
        exact (if_neg hown).trans (v.lookup_le (Nat.le_max_right n m) hlookup)

/-- A record is got through when its attributes are, and its attribute list. -/
theorem recordStep_ne_hang_iff :
    (∃ n, recordStep v type n mrec ≠ .hang) ↔ RecordPasses v v31 heap type mrec := by
  constructor
  · rintro ⟨n, hn⟩
    unfold recordStep at hn
    cases hrun : runLoop (attrStep type mrec.mem) n mrec.firstAttr with
    | none =>
      rw [hrun] at hn
      exact absurd rfl hn
    | some w =>
      refine ⟨attrs_end_iff.mp ⟨n, w, hrun⟩, fun m attr list hm hend => ?_⟩
      obtain rfl := runLoop_unique hrun hm
      rw [hrun] at hn
      dsimp only at hn
      rw [if_pos hend] at hn
      rw [← listLookup_ends_iff hv]
      cases hlist : ntfsAttrListLookup v type n list mrec with
      | none =>
        rw [hlist] at hn
        exact absurd rfl hn
      | some result => exact ⟨n, result, hlist⟩
  · rintro ⟨hno, hlist⟩
    obtain ⟨n, ⟨attr, attrListAttr⟩, hrun⟩ := attrs_end_iff.mpr hno
    by_cases hend : Attr.type mrec.mem attr = atEnd
    · cases attrListAttr with
      | none =>
        refine ⟨n, ?_⟩
        unfold recordStep
        rw [hrun]
        dsimp only
        rw [if_pos hend]
        exact nofun
      | some list =>
        obtain ⟨m, result, hm⟩ := (listLookup_ends_iff hv).mpr (hlist n attr list hrun hend)
        refine ⟨max n m, ?_⟩
        unfold recordStep
        rw [(steady_const _).runLoop_self_le hrun (Nat.le_max_left n m)]
        dsimp only
        rw [if_pos hend, ntfsAttrListLookup_le (Nat.le_max_right n m) hm]
        cases result <;> exact nofun
    · refine ⟨n, ?_⟩
      unfold recordStep
      rw [hrun]
      dsimp only
      rw [if_neg hend]
      exact nofun

/-- The lookup of an attribute ends when each record that it comes to is got through, and no one
comes again. -/
theorem attrLookup_ends_iff :
    (∃ n result, ntfsAttrLookup v type n mrec = some result) ↔
      type = atEnd ∨ AttrPasses v v31 heap type mrec := by
  by_cases hend : type = atEnd
  · refine iff_of_true ⟨0, none, ?_⟩ (Or.inl hend)
    unfold ntfsAttrLookup
    rw [if_pos hend]
  · rw [or_iff_right hend]
    simp only [ntfsAttrLookup, if_neg hend]
    rw [(recordStep_steady v type).ends_iff (records_finite v type mrec), passes_iff]
    simp only [recordStep_ne_hang_iff hv]
    exact ⟨fun h => ⟨h.1, h.2⟩, fun h => ⟨h.1, h.2⟩⟩

end Records

/-! ## Both lookups -/

/-- The sizes of a volume with which each read is one out of the cached blocks. -/
structure FsInfo.Readable (fs : FsInfo) : Prop where
  cache : fs.blockShift < 16
  record_le : fs.mftRecordShift ≤ fs.blockShift

/-- Where each read is one out of the cached blocks, the lookup of a record passes exactly when it
does not come back to where it was. -/
theorem lookupPasses_iff {fs : FsInfo} (hfs : fs.Readable) {disk : Disk} {v31 : Bool} {buf : Mrec}
    {file : Nat} : LookupPasses fs disk v31 buf file ↔
      NoReturn (fun _ => versionStep fs disk v31 file) (fs.probe file, buf) := by
  refine ⟨LookupPasses.noReturn, fun hno => ⟨fun s hs => ?_, hno⟩⟩
  obtain ⟨r, hread, -⟩ := ntfsRead_cached disk hfs.cache
    (Nat.pow_le_pow_right (by decide) hfs.record_le) (offset_lt_of_places (mem_probes hs).1)
    (u64 (s.1.curBlk + fs.mftBlk)) s.1.lcn
  exact ⟨r, hread⟩

/-- The lookups on a volume end in these cases, and on one with readable sizes in no others. The
lookup of an attribute: it is the one for the end of a record; or in each record that it comes to no
attribute leads back to itself, the list can be searched, the lookup of the record named there ends,
and the records do not lead back to one. The lookup of a record: each record on the way can be read,
and the lookup does not come back to a place with the same memory. -/
theorem ntfs_lookups_end_iff (fs : FsInfo) (disk : Disk) (v31 : Bool) (heap : Nat → Mrec)
    (stack : Memory) (buf type : Nat) (mrec : Mrec) (file : Nat) :
    ((type = atEnd ∨ AttrPasses (.ofDisk fs disk v31 heap stack buf) v31 heap type mrec →
        ∃ n result, ntfsAttrLookup (.ofDisk fs disk v31 heap stack buf) type n mrec =
          some result) ∧
      (LookupPasses fs disk v31 (heap file) file →
        ∃ n result, versionLookup fs disk v31 (heap file) file n = some result)) ∧
    (fs.Readable →
      ((∃ n result, ntfsAttrLookup (.ofDisk fs disk v31 heap stack buf) type n mrec =
          some result) ↔
        type = atEnd ∨ AttrPasses (.ofDisk fs disk v31 heap stack buf) v31 heap type mrec) ∧
      ((∃ n result, versionLookup fs disk v31 (heap file) file n = some result) ↔
        NoReturn (fun _ => versionStep fs disk v31 file) (fs.probe file, heap file))) := by
  have hattr : (∃ n result, ntfsAttrLookup (.ofDisk fs disk v31 heap stack buf) type n mrec =
        some result) ↔
      type = atEnd ∨ AttrPasses (.ofDisk fs disk v31 heap stack buf) v31 heap type mrec :=
    attrLookup_ends_iff fun _ => lookup_ends_iff
  refine ⟨⟨hattr.mpr, lookup_ends_iff.mpr⟩, fun hfs => ⟨hattr, ?_⟩⟩
  rw [lookup_ends_iff, lookupPasses_iff hfs]

/-- A record whose first attribute has the length 0. -/
def emptyAttrRecord : Mrec where
  addr := 0
  mem i := List.getD ([0x46, 0x49, 0x4c, 0x45] ++ List.replicate 16 0 ++ [48, 0] ++
    List.replicate 26 0 ++ [0x10, 0, 0, 0, 0, 0, 0, 0]) i (0 : UInt8)

/-- The lookup of another attribute stays at this one. -/
theorem ntfs_lookups_stuck : ¬∀ (fs : FsInfo) (disk : Disk) (v31 : Bool) (heap : Nat → Mrec)
    (stack : Memory) (buf type : Nat) (mrec : Mrec) (file : Nat),
    (∃ n result, ntfsAttrLookup (.ofDisk fs disk v31 heap stack buf) type n mrec = some result) ∧
      ∃ n result, versionLookup fs disk v31 (heap file) file n = some result := by
  intro h
  obtain ⟨⟨n, result, hrun⟩, -⟩ := h largeFs (fun _ => 0) true (fun _ => emptyAttrRecord)
    (fun _ => 0) 0 0x80 emptyAttrRecord 0
  have hstep : attrStep 0x80 emptyAttrRecord.mem emptyAttrRecord.firstAttr =
      .next emptyAttrRecord.firstAttr := by
    have hfirst : emptyAttrRecord.firstAttr = (48, none) := by decide +kernel
    have htype : Attr.type emptyAttrRecord.mem 48 = 0x10 := by decide +kernel
    have hlen : Attr.len emptyAttrRecord.mem 48 = 0 := by decide +kernel
    rw [hfirst, attrStep]
    dsimp only
    rw [htype, hlen, if_neg (by decide), if_neg (by decide), if_neg (by decide)]
    rfl
  rw [ntfsAttrLookup, if_neg (by decide)] at hrun
  cases n with
  | zero => cases hrun
  | succ n =>
    rw [runLoop, recordStep, runLoop_stuck hstep] at hrun
    cases hrun

end Liigboot.Fs.Ntfs
