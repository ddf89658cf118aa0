import Liigboot.Fs.Ntfs.AttributeLost
import Mathlib.Data.List.GetD

/-!
# The attribute of a type

`__ntfs_attr_lookup` returns the attribute of a type under the condition `Found`, whatever lies
behind the buffer and behind the list; for a list in the record or in one run it does so only then.
-/

namespace Liigboot.Fs.Ntfs

variable {v : Mount} {mrec : Mrec} {f : FileRecord} {type list : Nat} {l : AttrList}

/-- The list itself is not found. -/
theorem FileAt.lost_atAttrList (hs : FileAt v mrec f) (hl : f.list = some l) :
    ¬FindsAttr v mrec f atAttrList := by
  rintro ⟨n, result, hlookup, hright⟩
  obtain ⟨list, hat, -⟩ := hs.list l hl
  rw [ntfsAttrLookup, if_neg (by decide)] at hlookup
  obtain rfl := recordLoop_atAttrList hlookup
  rw [Right, hat] at hright
  cases hright

/-- A list in the record that is not read does not give the entry. -/
theorem FileAt.lost_resident (hs : FileAt v mrec f) (hl : f.list = some l) {valueOffset : Nat}
    (hp : l.place = .resident valueOffset) (hend : type ≠ atEnd)
    (hnone : mrec.find f.attrs type = none) (hread : ¬ListRead v.fs type l) :
    ¬FindsAttr v mrec f type := by
  obtain ⟨list, hat, h⟩ := hs.list l hl
  rw [ListAt, hp] at h
  rw [ListRead, hp] at hread
  dsimp only at hread
  push Not at hread
  obtain ⟨o, ho, hle⟩ := hread
  have hmiss : ∀ o', entryOffset type l.entries = some o' →
      entriesLen l.entries ≤ valueOffset + o' := by
    intro o' ho'
    rwa [Option.some.inj (ho'.symm.trans ho)]
  exact hs.lookup_missed hend hnone hat hl ho (resident_missed h hmiss)

/-- The lookup returns the attribute that it should under the condition; for a list in the record
or in one run, it does so for all bytes behind the buffer and the list only then. -/
theorem ntfs_attr_lookup_finds_iff (hs : FileAt v mrec f) (type : Nat) :
    (Found v.fs type f → FindsAttr v mrec f type) ∧
      (f.InOneRun → (∀ stack disk, FileAt (v.around stack disk) mrec f →
        FindsAttr (v.around stack disk) mrec f type) → Found v.fs type f) := by
  refine ⟨findsAttr_of_found hs, fun hone hfinds => ⟨?_, ?_⟩⟩
  · rintro rfl
    rw [Option.eq_none_iff_forall_ne_some]
    intro l hl
    exact hs.lost_atAttrList hl (hfinds v.stack v.disk hs)
  · rw [or_iff_not_imp_left]
    intro hend
    rw [or_iff_not_imp_left]
    intro hbase l hl
    push Not at hbase
    have hnone : mrec.find f.attrs type = none := Mrec.find_eq_none_iff.mpr hbase
    by_contra hread
    cases hp : l.place with
    | resident valueOffset =>
      exact hs.lost_resident hl hp hend hnone hread (hfinds v.stack v.disk hs)
    | nonResident runs =>
      obtain ⟨r, rfl⟩ := hone l runs hl hp
      obtain ⟨stack, disk, hs', hlost⟩ := hs.lost_of_not_read hl hp hend hnone hread
      exact hlost (hfinds stack disk hs')

/-! ## A file with many names -/

instance decidableHeadersAt (mem : Memory) : ∀ a es, Decidable (HeadersAt mem a es)
  | _, [] => .isTrue trivial
  | a, e :: es => @instDecidableAnd _ _ _ (decidableHeadersAt mem (a + e.length) es)

instance decidableRefsAt (mem : Memory) : ∀ a es, Decidable (RefsAt mem a es)
  | _, [] => .isTrue trivial
  | a, e :: es => @instDecidableAnd _ _ _ (decidableRefsAt mem (a + e.length) es)

/-- An entry of 32 bytes that names the first use of a record. -/
def shortEntry (type number : Nat) (htype : type ≠ atEnd) (hnumber : number < 2 ^ 32) :
    ListEntry where
  type := type
  length := 32
  number := number
  sequence := 1
  type_ne := htype
  length_ge := by decide
  aligned := by decide
  number_lt := hnumber
  sequence_pos := Nat.zero_lt_one

/-- The bytes of such entries. -/
def shortBytes (es : List ListEntry) : List UInt8 :=
  es.flatMap fun e => leBytes e.type 4 ++ leBytes e.length 2 ++ List.replicate 10 0 ++
    leBytes e.mftRef 8 ++ List.replicate 8 0

/-- A list of two clusters at cluster 10: fifteen attributes of record 30, and two of record 40. -/
def namesList : AttrList where
  entries := shortEntry 0x10 30 (by decide) (by decide) ::
    (List.replicate 14 (shortEntry 0x30 30 (by decide) (by decide)) ++
      [shortEntry 0x40 40 (by decide) (by decide), shortEntry 0x80 40 (by decide) (by decide)])
  place := .nonResident [⟨[2], [10], by decide, by decide, by decide⟩]
  nonempty := List.cons_ne_nil _ _

def namesFile : FileRecord where
  attrs := [⟨0x10, 24, by decide⟩, ⟨0x20, 72, by decide⟩, ⟨0x30, 24, by decide⟩]
  list := some namesList

/-- The front of a record whose attributes begin at 48. -/
def recordFront (number : Nat) : List UInt8 :=
  List.replicate 20 0 ++ [48, 0] ++ List.replicate 22 0 ++ leBytes number 4

def namesRecord : Mrec where
  addr := 0
  mem := Memory.write (fun _ => 0) 0 (recordFront 30 ++
    (leBytes 0x10 4 ++ leBytes 24 4 ++ List.replicate 16 0) ++
    (leBytes 0x20 4 ++ leBytes 72 4 ++ [1] ++ List.replicate 23 0 ++ [64] ++
      List.replicate 15 0 ++ leBytes 544 8 ++ List.replicate 8 0 ++ [0x11, 2, 10, 0] ++
      List.replicate 4 0) ++
    (leBytes 0x30 4 ++ leBytes 24 4 ++ List.replicate 16 0) ++ leBytes atEnd 4)

def extensionRecord : Mrec where
  addr := 0
  mem := Memory.write (fun _ => 0) 0 (recordFront 40 ++
    (leBytes 0x40 4 ++ leBytes 24 4 ++ List.replicate 16 0) ++
    (leBytes 0x80 4 ++ leBytes 24 4 ++ List.replicate 16 0) ++ leBytes atEnd 4)

def namesVolume : Mount where
  fs := ⟨9, 9, 0, 10, 4⟩
  disk := Memory.write (fun _ => 0) 5120 (shortBytes namesList.entries)
  mftRecordLookup _ number := some (if number = 40 then some extensionRecord else none)
  stack := fun _ => 0
  buf := 0x1000
  lookup_le _ _ _ _ _ h := h

theorem namesFile_attrs : RecordAt namesRecord namesFile.attrs where
  inMemory := by decide +kernel
  attrs := by
    have hend : Attr.type namesRecord.mem 168 = atEnd := by decide +kernel
    refine .attr (by decide +kernel) (by decide +kernel) (by decide +kernel) ?_
    refine .attr (by decide +kernel) (by decide +kernel) (by decide +kernel) ?_
    exact .attr (by decide +kernel) (by decide +kernel) (by decide +kernel) (.last hend)

theorem extension_attrs : RecordAt extensionRecord [⟨0x40, 24, by decide⟩, ⟨0x80, 24, by decide⟩]
    where
  inMemory := by decide +kernel
  attrs := by
    have hend : Attr.type extensionRecord.mem 96 = atEnd := by decide +kernel
    refine .attr (by decide +kernel) (by decide +kernel) (by decide +kernel) ?_
    exact .attr (by decide +kernel) (by decide +kernel) (by decide +kernel) (.last hend)

theorem namesList_at : NonResidentAt namesVolume namesRecord.mem 72
    [⟨[2], [10], by decide, by decide, by decide⟩] namesList.entries where
  nonResident := by decide +kernel
  dataSize := by decide +kernel
  inMemory := by decide +kernel
  fits := by decide +kernel
  pairs := by
    intro i b hi
    obtain ⟨hlt, rfl⟩ := List.getElem?_eq_some_iff.mp hi
    revert i
    decide +kernel
  allocated := by
    refine ⟨List.cons_ne_nil _ _, ?_, ?_, trivial⟩ <;> decide +kernel
  inRange := by
    refine ⟨?_, trivial⟩
    decide +kernel
  volume := by decide +kernel
  covers := by decide +kernel
  headers := by decide +kernel
  refs := by decide +kernel
  sector := by decide
  block := by decide
  buffer := by decide +kernel

theorem namesFile_at : FileAt namesVolume namesRecord namesFile where
  record := namesFile_attrs
  noList := nofun
  oneList := by decide
  list := by
    rintro l ⟨⟩
    exact ⟨72, by decide +kernel, namesList_at⟩
  extension := by
    rintro l ⟨⟩ e he hbase
    have hext : ∀ type attr, extensionRecord.find [⟨0x40, 24, by decide⟩, ⟨0x80, 24, by decide⟩]
        type = some attr → ∃ ext attrs attr, ExtensionAt namesVolume 40 type ext attrs attr := by
      intro type attr hfind
      exact ⟨extensionRecord, _, attr, ⟨0, rfl⟩, extension_attrs, by decide, hfind⟩
    simp only [namesList, List.mem_cons, List.mem_append, List.mem_replicate, List.not_mem_nil,
      or_false] at he
    rcases he with rfl | ⟨-, rfl⟩ | rfl | rfl
    · exact absurd rfl (hbase _ List.mem_cons_self)
    · exact absurd rfl (hbase _ (List.mem_cons_of_mem _ (List.mem_cons_of_mem _
        List.mem_cons_self)))
    · exact hext 0x40 48 (by decide +kernel)
    · exact hext 0x80 72 (by decide +kernel)

/-- The attribute in the other record that is named at the end of the first block is found. -/
theorem namesFile_finds : FindsAttr namesVolume namesRecord namesFile 0x40 := by
  refine (ntfs_attr_lookup_finds_iff namesFile_at 0x40).1 ⟨fun h => absurd h (by decide), ?_⟩
  refine Or.inr (Or.inr ?_)
  rintro l ⟨⟩
  refine ⟨by decide, _, rfl, ?_⟩
  decide +kernel

/-- The one that is named behind the block is not. -/
theorem namesFile_lost : ¬∀ (v : Mount) (mrec : Mrec) (f : FileRecord) (type : Nat),
    FileAt v mrec f → FindsAttr v mrec f type := by
  intro h
  have hstack : namesVolume.stack = Memory.write (fun _ => 0)
      (namesVolume.buf + entriesLen namesList.entries.dropLast) (leBytes 0 8) := by
    have hzero : leBytes 0 8 = List.replicate 8 0 := by decide
    funext i
    rw [Memory.write, hzero, List.getD_eq_getElem?_getD, List.getElem?_getD_replicate_default_eq,
      ite_self]
    rfl
  have hat : namesRecord.find namesFile.attrs atAttrList = some 72 := by decide +kernel
  refine namesFile_at.lookup_hang (by decide) (by decide +kernel) hat
    (namesList_at.search_hang 0 (fun _ _ _ => .refl) (by decide +kernel) fun m => ?_)
    (h namesVolume namesRecord namesFile 0x80 namesFile_at)
  exact namesList_at.block_stuck (by decide) namesList_at.one_covers
    (List.dropLast_append_getLast namesList.nonempty).symm (by decide) (by decide)
    (by decide +kernel) (by decide +kernel) (by decide +kernel) (by decide : 0 < 2 ^ 32)
    (by decide) hstack m

end Liigboot.Fs.Ntfs
