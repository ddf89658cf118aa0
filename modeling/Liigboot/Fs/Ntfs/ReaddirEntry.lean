import Liigboot.Lib.Nested
import Liigboot.Fs.Ntfs.Readdir

/-!
# The entries that are read

The entries of a node in memory. From a place in a node on, `ntfs_readdir` gets to the next
printable entry, or to the last one, which has no name.
-/

namespace Liigboot.Fs.Ntfs

/-- The name of an entry, with the low byte of each character. -/
def IndexEntry.filename (e : IndexEntry) : List UInt8 := e.fileName.map UInt8.ofNat

/-- An entry that is returned. -/
def IndexEntry.printable (e : IndexEntry) : Bool := isFilenamePrintable e.filename

variable {mem : Memory} {a limit ie n : Nat} {nrec : List UInt8} {e : IndexEntry}
  {es : List IndexEntry} {child : Option Nat}

/-! ## Nodes in memory -/

/-- A number in a record that lies in memory. -/
theorem memLe_of_at (h : At mem a nrec) {off n : Nat} (hfits : off + n ≤ nrec.length) :
    memLe mem (a + off) n = readLe nrec off n := by
  refine congrArg leNat (List.ext_getElem? fun i => ?_)
  rw [getElem?_slice, List.getElem?_map]
  by_cases hi : i < n
  · have hin : off + i < nrec.length := by omega
    rw [if_pos hi, List.getElem?_range hi, Option.map_some, Nat.add_assoc,
      h _ _ (List.getElem?_eq_getElem hin), List.getElem?_eq_getElem hin]
  · rw [if_neg hi, List.getElem?_eq_none (by rw [List.length_range]; omega), Option.map_none]

/-- A record that is stored lies in memory. -/
theorem at_write (mem : Memory) (a : Nat) (nrec : List UInt8) : At (mem.write a nrec) a nrec :=
  fun _ _ hi => Memory.write_add hi

/-- What is read at an entry. -/
structure ReadAt (mem : Memory) (ie : Nat) (e : IndexEntry) : Prop where
  indexedFile : IdxEntry.indexedFile mem ie = e.indexedFile
  not_last : IdxEntry.flags mem ie &&& indexEntryEnd = 0
  filename : ntfsCvtFilename mem ie = e.filename

theorem EntryAt.len_ge (h : EntryAt nrec limit ie e) : 82 ≤ ieLen nrec ie :=
  (Nat.le_add_right _ _).trans h.name_fits

theorem EntryAt.readAt (h : EntryAt nrec limit ie e) (hlimit : limit ≤ nrec.length)
    (hat : At mem a nrec) : ReadAt mem (a + ie) e where
  indexedFile := by
    have hfits := h.fits
    have hlen := h.len_ge
    rw [← h.indexedFile]
    exact memLe_of_at hat (by omega)
  not_last := by
    have hfits := h.fits
    have hlen := h.len_ge
    rw [← h.not_last, IdxEntry.flags, Nat.add_assoc, memLe_of_at hat (by omega), ieFlags]
  filename := by
    have hfits := h.fits
    have hlen := h.name_fits
    have hcount : IdxEntry.fileNameLen mem (a + ie) = e.fileName.length := by
      rw [← h.fileNameLen, IdxEntry.fileNameLen, Nat.add_assoc, memLe_of_at hat (by omega)]
      rfl
    rw [ntfsCvtFilename, hcount, IndexEntry.filename]
    refine List.ext_getElem? fun i => ?_
    rw [List.getElem?_map, List.getElem?_map]
    by_cases hi : i < e.fileName.length
    · rw [List.getElem?_range hi, List.getElem?_eq_getElem hi, Option.map_some, Option.map_some,
        Nat.add_assoc, Nat.add_assoc, memLe_of_at hat (by omega), ← Nat.add_assoc,
        h.fileName i _ (List.getElem?_eq_getElem hi)]
    · rw [List.getElem?_eq_none (by rw [List.length_range]; omega),
        List.getElem?_eq_none (Nat.le_of_not_lt hi), Option.map_none, Option.map_none]

theorem EntryAt.len_eq (h : EntryAt nrec limit ie e) (hlimit : limit ≤ nrec.length)
    (hat : At mem a nrec) : IdxEntry.len mem (a + ie) = ieLen nrec ie := by
  have hfits := h.fits
  have hlen := h.len_ge
  rw [IdxEntry.len, Nat.add_assoc, memLe_of_at hat (by omega), ieLen]

theorem LastAt.flags_eq (h : LastAt nrec limit ie child) (hlimit : limit ≤ nrec.length)
    (hat : At mem a nrec) : IdxEntry.flags mem (a + ie) = ieFlags nrec ie := by
  have hheader := h.header
  rw [IdxEntry.flags, Nat.add_assoc, memLe_of_at hat (by omega), ieFlags]

theorem LastAt.len_eq (h : LastAt nrec limit ie child) (hlimit : limit ≤ nrec.length)
    (hat : At mem a nrec) : IdxEntry.len mem (a + ie) = ieLen nrec ie := by
  have hheader := h.header
  rw [IdxEntry.len, Nat.add_assoc, memLe_of_at hat (by omega), ieLen]

/-- The last entry has a child when its flag says so. -/
theorem LastAt.node_iff (h : LastAt nrec limit ie child) :
    ieFlags nrec ie &&& indexEntryNode = 0 ↔ child = none := by
  rw [← h.child, childAt]
  by_cases hnode : ieFlags nrec ie &&& indexEntryNode = 0
  · rw [if_neg (not_not.mpr hnode)]
    exact iff_of_true hnode rfl
  · rw [if_pos hnode]
    exact iff_of_false hnode (Option.some_ne_none _)

theorem ReadAt.printable_eq (h : ReadAt mem ie e) :
    isFilenamePrintable (ntfsCvtFilename mem ie) = e.printable := by
  rw [h.filename, IndexEntry.printable]

/-- The number of entries of a node. -/
theorem EntriesAt.length_le (h : EntriesAt nrec limit ie es child) :
    ie + 82 * es.length + 16 ≤ limit := by
  induction h with
  | last h => exact h.header
  | entry h rest ih =>
    have hlen := h.len_ge
    rw [List.length_cons]
    omega

/-! ## The root -/

/-- The loop in the root gets to the next printable entry, and goes on behind it later. -/
theorem root_next (h : EntriesAt nrec limit ie es child) (hlimit : limit ≤ nrec.length)
    (hat : At mem a nrec) (hmem : a + limit < 2 ^ 32) :
    (es.filter IndexEntry.printable = [] ∧ ∃ n last,
        runLoop (rootStep mem) n (a + ie) = some (a + last, none) ∧
        (IdxEntry.flags mem (a + last) &&& indexEntryNode = 0 ↔ child = none)) ∨
      ∃ e rest, es.filter IndexEntry.printable = e :: rest.filter IndexEntry.printable ∧
        ∃ n found next,
        runLoop (rootStep mem) n (a + ie) = some (a + found, some (a + next)) ∧
        ReadAt mem (a + found) e ∧ EntriesAt nrec limit next rest child := by
  induction h with
  | @last ie child h =>
    have hflags := h.flags_eq hlimit hat
    refine Or.inl ⟨rfl, 1, ie, runLoop_stop ?_, ?_⟩
    · rw [rootStep, hflags, if_pos h.last]
    · rw [hflags]
      exact h.node_iff
  | @entry ie e es child h rest ih =>
    have hread := h.readAt hlimit hat
    have hfits := h.fits
    have hnext : u32 (a + ie + IdxEntry.len mem (a + ie)) = a + (ie + ieLen nrec ie) := by
      rw [h.len_eq hlimit hat, Nat.add_assoc, u32_of_lt (by omega)]
    by_cases hprint : e.printable = true
    · refine Or.inr ⟨e, es, List.filter_cons_of_pos hprint, 1, ie,
        ie + ieLen nrec ie, runLoop_stop ?_, hread, rest⟩
      rw [rootStep, if_neg (not_not.mpr hread.not_last), hread.printable_eq, if_pos hprint, hnext]
    · have hstep : rootStep mem (a + ie) = .next (a + (ie + ieLen nrec ie)) := by
        rw [rootStep, if_neg (not_not.mpr hread.not_last), hread.printable_eq, if_neg hprint, hnext]
      rw [List.filter_cons_of_neg hprint]
      rcases ih with ⟨hnil, n, last, hrun, hnode⟩ |
        ⟨e', rest', hcons, n, found, next, hrun, hfound⟩
      · exact Or.inl ⟨hnil, n + 1, last, runLoop_next hstep hrun, hnode⟩
      · exact Or.inr ⟨e', rest', hcons, n + 1, found, next, runLoop_next hstep hrun, hfound⟩

end Liigboot.Fs.Ntfs
