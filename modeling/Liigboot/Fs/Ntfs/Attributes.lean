import Liigboot.Lib.Memory
import Liigboot.Lib.Nested
import Liigboot.Fs.Ntfs.IndexLookup
import Liigboot.Fs.Ntfs.MftLookup

/-!
# Looking up an attribute

`__ntfs_attr_lookup` goes from attribute to attribute by the lengths that they have. At the end of a
record with an attribute list it looks there for an entry of the type, and starts again in the
record that the entry names. Pointers have 32 bits, and what lies behind a buffer is read, too.
-/

namespace Liigboot.Fs.Ntfs

/-! ## The source -/

/-- `struct ntfs_mft_record`: its address, and the memory that it lies in. -/
structure Mrec where
  mem : Memory
  addr : Nat

def Mrec.attrsOffset (mrec : Mrec) : Nat := memLe mrec.mem (mrec.addr + 20) 2

def Mrec.mftRecordNo (mrec : Mrec) : Nat := memLe mrec.mem (mrec.addr + 44) 4

/-! `struct ntfs_attr_record`, at an address -/

namespace Attr

def type (mem : Memory) (attr : Nat) : Nat := memLe mem attr 4

def len (mem : Memory) (attr : Nat) : Nat := memLe mem (attr + 4) 4

def nonResident (mem : Memory) (attr : Nat) : Nat := memLe mem (attr + 8) 1

def valueLen (mem : Memory) (attr : Nat) : Nat := memLe mem (attr + 16) 4

def valueOffset (mem : Memory) (attr : Nat) : Nat := memLe mem (attr + 20) 2

def mappingPairsOffset (mem : Memory) (attr : Nat) : Nat := memLe mem (attr + 32) 2

def dataSize (mem : Memory) (attr : Nat) : Nat := memLe mem (attr + 48) 8

end Attr

/-! `struct ntfs_attr_list_entry`, at an address -/

namespace AttrListEntry

def type (mem : Memory) (entry : Nat) : Nat := memLe mem entry 4

def length (mem : Memory) (entry : Nat) : Nat := memLe mem (entry + 4) 2

def mftRef (mem : Memory) (entry : Nat) : Nat := memLe mem (entry + 16) 8

end AttrListEntry

/-- `NTFS_AT_ATTR_LIST`. -/
def atAttrList : Nat := 0x20

/-- `NTFS_AT_END`. -/
def atEnd : Nat := 0xFFFFFFFF

/-- A mounted volume: its sizes and its bytes, the function that `mft_record_lookup` points to, for
a number of iterations, and the buffer on the stack of `ntfs_attr_list_lookup`. -/
structure Mount where
  fs : FsInfo
  disk : Disk
  mftRecordLookup : Nat → Nat → Option (Option Mrec)
  stack : Memory
  buf : Nat
  /-- More iterations do not change the record. -/
  lookup_le : ∀ ⦃m n file r⦄, m ≤ n → mftRecordLookup m file = some r →
    mftRecordLookup n file = some r

/-- An iteration of a loop over the entries in front of `limit`: the reference in the entry. -/
def listStep (type limit : Nat) (mem : Memory) (entry : Nat) : Step Nat (Option Nat) :=
  if entry < limit then
    if AttrListEntry.type mem entry = type then .stop (some (AttrListEntry.mftRef mem entry))
    else .next (u32 (entry + AttrListEntry.length mem entry))
  else .stop none

/-- The memory when a block of the list is in the buffer. -/
def Mount.blockMem (v : Mount) (block : List UInt8) : Memory := v.stack.write v.buf block

/-- The block of a list at a cluster: it ends the search, or the search goes on. -/
def listBlock (v : Mount) (type len fuel : Nat) (lcn : Int) : Step Unit (Option Nat) :=
  match ntfsRead v.fs v.disk v.fs.blockSize v.fs.blockSize (v.fs.blkOf lcn) 0 (toU64 lcn) with
  | none => .hang
  | some none => .stop none
  | some (some r) =>
    match runLoop (listStep type (u32 (v.buf + len)) (v.blockMem r.buf)) fuel v.buf with
    | none => .hang
    | some none => .next ()
    | some (some mftRef) => .stop (some mftRef)

/-- An iteration of the loop over the blocks of a run: the end of the search, or of the run. -/
def blockStep (v : Mount) (type len : Nat) (chunk : MappingChunk) (fuel vcn : Nat) :
    Step Nat (Option (Option Nat)) :=
  if vcn < chunk.len then
    match listBlock v type len fuel (chunk.lcn + vcn) with
    | .hang => .hang
    | .stop result => .stop (some result)
    | .next () => .next (u64 (vcn + v.fs.blockSize / v.fs.clustSize))
  else .stop none

/-- `parse_data_run`, for a stream and its end at two addresses. -/
def parseRun (mem : Memory) (stream attrLen offset : Nat) (chunk : MappingChunk) :
    Bool × Nat × MappingChunk :=
  if u32 (stream + offset) > attrLen then
    (false, offset, { chunk with flags := chunk.flags &&& ~~~mapMask ||| mapEnd })
  else parseDataRun (fun i => mem (u32 (stream + i))) offset offset chunk

/-- An iteration of the loop over the runs of a list. -/
def listRunStep (v : Mount) (type len : Nat) (mem : Memory) (stream attrLen fuel : Nat)
    (s : Nat × MappingChunk) : Step (Nat × MappingChunk) (Option Nat) :=
  match parseRun mem stream attrLen s.1 s.2 with
  | (true, _, _) => .stop none
  | (false, offset, chunk) =>
    if chunk.flags &&& mapUnallocated ≠ 0 then .next (offset, chunk)
    else if chunk.flags &&& mapEnd ≠ 0 then .stop none
    else if chunk.flags &&& mapAllocated ≠ 0 then
      match runLoop (blockStep v type len chunk fuel) fuel 0 with
      | none => .hang
      | some (some result) => .stop result
      | some none => .next (offset, chunk)
    else .next (offset, chunk)

/-- The search of a list for an entry of the type: the reference in it. -/
def listSearch (v : Mount) (type fuel : Nat) (mem : Memory) (attr : Nat) : Option (Option Nat) :=
  if Attr.nonResident mem attr = 0 then
    runLoop (listStep type (u32 (attr + Attr.valueLen mem attr)) mem) fuel
      (u32 (attr + Attr.valueOffset mem attr))
  else
    runLoop (listRunStep v type (u32 (Attr.dataSize mem attr)) mem
      (u32 (attr + Attr.mappingPairsOffset mem attr)) (u32 (attr + Attr.len mem attr)) fuel) fuel
      (0, mappingChunkInit)

/-- `ntfs_attr_list_lookup`: the record that an entry of the type names. -/
def ntfsAttrListLookup (v : Mount) (type fuel attr : Nat) (mrec : Mrec) : Option (Option Mrec) :=
  match listSearch v type fuel mrec.mem attr with
  | none => none
  | some none => some none
  | some (some mftRef) =>
    if mrec.mftRecordNo = mftRef then some (some mrec)
    else v.mftRecordLookup fuel (u32 mftRef)

/-- An iteration of the loop over the attributes: the attribute, and the last list in front of
it. -/
def attrStep (type : Nat) (mem : Memory) (w : Nat × Option Nat) :
    Step (Nat × Option Nat) (Nat × Option Nat) :=
  if Attr.type mem w.1 = atEnd then .stop w
  else if Attr.type mem w.1 = atAttrList then .next (u32 (w.1 + Attr.len mem w.1), some w.1)
  else if Attr.type mem w.1 = type then .stop w
  else .next (u32 (w.1 + Attr.len mem w.1), w.2)

/-- The first attribute of a record. -/
def Mrec.firstAttr (mrec : Mrec) : Nat × Option Nat := (u32 (mrec.addr + mrec.attrsOffset), none)

/-- The part of `__ntfs_attr_lookup` behind `again`: the attribute and its record, or the record in
which it starts again. -/
def recordStep (v : Mount) (type fuel : Nat) (mrec : Mrec) : Step Mrec (Option (Mrec × Nat)) :=
  match runLoop (attrStep type mrec.mem) fuel mrec.firstAttr with
  | none => .hang
  | some (attr, attrListAttr) =>
    if Attr.type mrec.mem attr = atEnd then
      match attrListAttr with
      | none => .stop none
      | some list =>
        match ntfsAttrListLookup v type fuel list mrec with
        | none => .hang
        | some none => .stop none
        | some (some retval) => .next retval
    else .stop (some (mrec, attr))

/-- `__ntfs_attr_lookup`. There is no result while its loops run. -/
def ntfsAttrLookup (v : Mount) (type fuel : Nat) (mrec : Mrec) : Option (Option (Mrec × Nat)) :=
  if type = atEnd then some none else runLoop (recordStep v type fuel) fuel mrec

/-! ## More iterations -/

variable {v : Mount} {type len limit m n fuel : Nat} {mem : Memory} {mrec : Mrec}

theorem listBlock_steady {lcn : Int} (hmn : m ≤ n) (h : listBlock v type len m lcn ≠ .hang) :
    listBlock v type len n lcn = listBlock v type len m lcn := by
  rw [listBlock] at h ⊢
  rw [listBlock]
  cases hread : ntfsRead v.fs v.disk v.fs.blockSize v.fs.blockSize (v.fs.blkOf lcn) 0
      (toU64 lcn) with
  | none => rfl
  | some got =>
    rw [hread] at h
    cases got with
    | none => rfl
    | some r =>
      dsimp only at h ⊢
      cases hrun : runLoop (listStep type (u32 (v.buf + len)) (v.blockMem r.buf)) m v.buf with
      | none =>
        rw [hrun] at h
        exact absurd rfl h
      | some result => rw [(steady_const _).runLoop_self_le hrun hmn]

theorem blockStep_steady (v : Mount) (type len : Nat) (chunk : MappingChunk) :
    Steady (blockStep v type len chunk) := by
  intro m n vcn hmn h
  rw [blockStep] at h ⊢
  rw [blockStep]
  split_ifs at h ⊢ with hin
  · have hne : listBlock v type len m (chunk.lcn + vcn) ≠ .hang := by
      intro hhang
      rw [hhang] at h
      exact h rfl
    rw [listBlock_steady hmn hne]
  · rfl

theorem listRunStep_steady (v : Mount) (type len : Nat) (mem : Memory) (stream attrLen : Nat) :
    Steady (listRunStep v type len mem stream attrLen) := by
  intro m n s hmn h
  rw [listRunStep] at h ⊢
  rw [listRunStep]
  rcases hparse : parseRun mem stream attrLen s.1 s.2 with ⟨failed, offset, chunk⟩
  rw [hparse] at h
  cases failed with
  | true => rfl
  | false =>
    dsimp only at h ⊢
    split_ifs at h ⊢ with hunalloc hend halloc
    · rfl
    · rfl
    · cases hrun : runLoop (blockStep v type len chunk m) m 0 with
      | none =>
        rw [hrun] at h
        exact absurd rfl h
      | some result => rw [(blockStep_steady v type len chunk).runLoop_self_le hrun hmn]
    · rfl

theorem listSearch_le {attr : Nat} {result : Option Nat} (hmn : m ≤ n)
    (h : listSearch v type m mem attr = some result) :
    listSearch v type n mem attr = some result := by
  rw [listSearch] at h ⊢
  split_ifs at h ⊢ with hres
  · exact (steady_const _).runLoop_self_le h hmn
  · exact (listRunStep_steady _ _ _ _ _ _).runLoop_self_le h hmn

theorem ntfsAttrListLookup_le {attr : Nat} {result : Option Mrec} (hmn : m ≤ n)
    (h : ntfsAttrListLookup v type m attr mrec = some result) :
    ntfsAttrListLookup v type n attr mrec = some result := by
  rw [ntfsAttrListLookup] at h ⊢
  cases hsearch : listSearch v type m mrec.mem attr with
  | none =>
    rw [hsearch] at h
    cases h
  | some found =>
    rw [hsearch] at h
    rw [listSearch_le hmn hsearch]
    cases found with
    | none => exact h
    | some mftRef =>
      dsimp only at h ⊢
      split_ifs at h ⊢ with hown
      · exact h
      · exact v.lookup_le hmn h

theorem recordStep_steady (v : Mount) (type : Nat) : Steady (recordStep v type) := by
  intro m n mrec hmn h
  rw [recordStep] at h ⊢
  rw [recordStep]
  cases hrun : runLoop (attrStep type mrec.mem) m mrec.firstAttr with
  | none =>
    rw [hrun] at h
    exact absurd rfl h
  | some w =>
    rw [hrun] at h
    rw [(steady_const _).runLoop_self_le hrun hmn]
    obtain ⟨attr, attrListAttr⟩ := w
    dsimp only at h ⊢
    split_ifs at h ⊢ with hend
    · cases attrListAttr with
      | none => rfl
      | some list =>
        dsimp only at h ⊢
        cases hlist : ntfsAttrListLookup v type m list mrec with
        | none =>
          rw [hlist] at h
          exact absurd rfl h
        | some result => rw [ntfsAttrListLookup_le hmn hlist]
    · rfl

/-- The lookup has one result. -/
theorem ntfsAttrLookup_unique {result result' : Option (Mrec × Nat)}
    (hm : ntfsAttrLookup v type m mrec = some result)
    (hn : ntfsAttrLookup v type n mrec = some result') : result = result' := by
  rw [ntfsAttrLookup] at hm hn
  split_ifs at hm hn with hend
  · exact (Option.some.inj hm).symm.trans (Option.some.inj hn)
  · exact (recordStep_steady v type).runLoop_self_unique hm hn

end Liigboot.Fs.Ntfs
