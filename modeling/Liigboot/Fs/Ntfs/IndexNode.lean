import Liigboot.Fs.Ntfs.Record

/-!
# The nodes of an index

An index node is a header and a row of entries, each as long as it says. The last entry has no
name. `ntfs_index_lookup` reads the row up to the first entry with the name that it looks for.
-/

namespace Liigboot.Fs.Ntfs

/-! ## The source -/

def indexEntryNode : Nat := 1

def indexEntryEnd : Nat := 2

/-- `ie->data.dir.indexed_file`. -/
def indexedFile (nrec : List UInt8) (ie : Nat) : Nat := readLe nrec ie 8

/-- `ie->len`. -/
def ieLen (nrec : List UInt8) (ie : Nat) : Nat := readLe nrec (ie + 8) 2

/-- `ie->flags`. -/
def ieFlags (nrec : List UInt8) (ie : Nat) : Nat := readLe nrec (ie + 12) 2

/-- `ie->key.file_name.file_name_len`. -/
def fileNameLen (nrec : List UInt8) (ie : Nat) : Nat := readLe nrec (ie + 80) 1

/-- `ie->key.file_name.file_name_type`. -/
def fileNameType (nrec : List UInt8) (ie : Nat) : Nat := readLe nrec (ie + 81) 1

def fileNamePosix : Nat := 0

/-- `tolower`. -/
def tolower (c : Int) : Int := if 65 ≤ c ∧ c ≤ 90 then c + 0x20 else c

/-- A `char` as an `int`. -/
def charInt (c : UInt8) : Int := if c < 0x80 then c.toNat else c.toNat - 256

/-- A loop of `ntfs_filename_cmp`: the characters of the name against those at `fn`. There is no
result when it leaves the record. -/
def filenameLoop (same : Int → Int → Bool) (nrec : List UInt8) : List UInt8 → Nat → Option Bool
  | [], _ => some true
  | c :: dname, fn =>
    if fn + 2 > nrec.length then none
    else if same (readLe nrec fn 2) (charInt c) then filenameLoop same nrec dname (fn + 2)
    else some false

/-- `ntfs_filename_cmp`. There is no result when it leaves the record. -/
def ntfsFilenameCmp (dname nrec : List UInt8) (ie : Nat) : Option Bool :=
  if ie + 81 > nrec.length then none
  else if dname.length ≠ fileNameLen nrec ie then some false
  else if ie + 82 > nrec.length then none
  else if fileNameType nrec ie = fileNamePosix then
    filenameLoop (fun a b => a = b) nrec dname (ie + 82)
  else filenameLoop (fun a b => tolower a = tolower b) nrec dname (ie + 82)

/-- How the loop over the entries of a node ends. -/
inductive Scanned where
  | indexErr
  | last (node : Bool)
  | found (indexedFile : Nat)
  deriving DecidableEq, Repr

/-- An iteration of the loop over the entries in front of `limit`. -/
def entryStep (dname nrec : List UInt8) (limit ie : Nat) : Step Nat Scanned :=
  if ie + 16 > limit then .stop .indexErr
  -- Outside of the record.
  else if ie + 16 > nrec.length then .hang
  else if ie + ieLen nrec ie > limit then .stop .indexErr
  else if ieFlags nrec ie &&& indexEntryEnd ≠ 0 then
    .stop (.last (ieFlags nrec ie &&& indexEntryNode ≠ 0))
  else
    match ntfsFilenameCmp dname nrec ie with
    | none => .hang
    | some true => .stop (.found (indexedFile nrec ie))
    | some false => .next (ie + ieLen nrec ie)

/-- The end of the entries of the node whose index header is at `index`. -/
def indexLimit (nrec : List UInt8) (index : Nat) : Nat := index + readLe nrec (index + 4) 4

/-- The loop over the entries of a node. An iteration goes on behind its entry, or does not get
on at all. -/
def scanEntries (dname nrec : List UInt8) (index : Nat) : Option Scanned :=
  runLoop (entryStep dname nrec (indexLimit nrec index)) (indexLimit nrec index + 1)
    (index + readLe nrec index 4)

/-! ## Nodes -/

/-- An entry of an index node. -/
structure IndexEntry where
  indexedFile : Nat
  fileNameType : Nat
  fileName : List Nat
  child : Option Nat
  deriving DecidableEq, Repr

/-- The entries of a node, and the child of the last one, which has no name. -/
structure Node where
  entries : List IndexEntry
  last : Option Nat
  deriving DecidableEq, Repr

/-- The first cluster of the child of the entry at `ie`. -/
def childAt (nrec : List UInt8) (ie : Nat) : Option Nat :=
  if ieFlags nrec ie &&& indexEntryNode ≠ 0 then some (readLe nrec (ie + ieLen nrec ie - 8) 8)
  else none

/-- An entry with a name. -/
structure EntryAt (nrec : List UInt8) (limit ie : Nat) (e : IndexEntry) : Prop where
  fits : ie + ieLen nrec ie ≤ limit
  name_fits : 82 + 2 * e.fileName.length ≤ ieLen nrec ie
  not_last : ieFlags nrec ie &&& indexEntryEnd = 0
  indexedFile : indexedFile nrec ie = e.indexedFile
  fileNameType : fileNameType nrec ie = e.fileNameType
  fileNameLen : fileNameLen nrec ie = e.fileName.length
  fileName : ∀ i c, e.fileName[i]? = some c → readLe nrec (ie + 82 + 2 * i) 2 = c
  child : childAt nrec ie = e.child

/-- The entry without a name. -/
structure LastAt (nrec : List UInt8) (limit ie : Nat) (child : Option Nat) : Prop where
  header : ie + 16 ≤ limit
  fits : ie + ieLen nrec ie ≤ limit
  last : ieFlags nrec ie &&& indexEntryEnd ≠ 0
  child : childAt nrec ie = child

/-- A row of entries. -/
inductive EntriesAt (nrec : List UInt8) (limit : Nat) : Nat → List IndexEntry → Option Nat → Prop
  | last {ie : Nat} {child : Option Nat} (h : LastAt nrec limit ie child) :
      EntriesAt nrec limit ie [] child
  | entry {ie : Nat} {e : IndexEntry} {es : List IndexEntry} {child : Option Nat}
      (h : EntryAt nrec limit ie e) (rest : EntriesAt nrec limit (ie + ieLen nrec ie) es child) :
      EntriesAt nrec limit ie (e :: es) child

/-- A node whose index header is at `index`. -/
structure NodeAt (nrec : List UInt8) (index : Nat) (node : Node) : Prop where
  limit_le : indexLimit nrec index ≤ nrec.length
  entries : EntriesAt nrec (indexLimit nrec index) (index + readLe nrec index 4) node.entries
    node.last

/-- A character in lower case. -/
def lower (c : Nat) : Nat := if 65 ≤ c ∧ c ≤ 90 then c + 0x20 else c

/-- The name matches: exactly for POSIX names, up to the case of letters for others. -/
def IndexEntry.Matches (e : IndexEntry) (dname : List UInt8) : Prop :=
  if e.fileNameType = fileNamePosix then e.fileName = dname.map UInt8.toNat
  else e.fileName.map lower = dname.map fun c => lower c.toNat

instance (e : IndexEntry) (dname : List UInt8) : Decidable (e.Matches dname) :=
  inferInstanceAs (Decidable (if e.fileNameType = fileNamePosix then
    e.fileName = dname.map UInt8.toNat
    else e.fileName.map lower = dname.map fun c => lower c.toNat))

/-- A name of ASCII characters. -/
def Ascii (dname : List UInt8) : Prop := ∀ c ∈ dname, c < 0x80

/-! ## Names -/

variable {dname nrec : List UInt8} {limit ie : Nat} {e : IndexEntry} {es : List IndexEntry}
  {child : Option Nat}

/-- The loop compares the characters one by one. -/
theorem filenameLoop_eq (f : Int → Int) {name : List Nat} {fn : Nat}
    (hname : ∀ i c, name[i]? = some c → readLe nrec (fn + 2 * i) 2 = c)
    (hlen : dname.length = name.length) (hfits : fn + 2 * name.length ≤ nrec.length) :
    filenameLoop (fun a b => f a = f b) nrec dname fn =
      some (decide (name.map (fun c : Nat => f c) = dname.map fun c => f (charInt c))) := by
  induction dname generalizing name fn with
  | nil =>
    obtain rfl := List.length_eq_zero_iff.mp hlen.symm
    rfl
  | cons c dname ih =>
    cases name with
    | nil => cases hlen
    | cons a name =>
      have ha : readLe nrec fn 2 = a := hname 0 a rfl
      have hrest : ∀ i c, name[i]? = some c → readLe nrec (fn + 2 + 2 * i) 2 = c := by
        intro i c hc
        have hplace : fn + 2 + 2 * i = fn + 2 * (i + 1) := by omega
        rw [hplace]
        exact hname (i + 1) c hc
      rw [List.length_cons] at hfits
      rw [filenameLoop, if_neg (by omega), ha]
      simp only [decide_eq_true_eq, List.map_cons, List.cons.injEq]
      by_cases hsame : f a = f (charInt c)
      · rw [if_pos hsame, ih hrest (Nat.succ.inj hlen) (by omega)]
        simp only [hsame, true_and]
      · rw [if_neg hsame]
        simp only [hsame, false_and, decide_false]

theorem charInt_ascii {c : UInt8} (h : c < 0x80) : charInt c = c.toNat := if_pos h

theorem tolower_cast (c : Nat) : tolower c = lower c := by
  rw [tolower, lower]
  split_ifs <;> omega

/-- Names of ASCII characters are the same when their values are. -/
theorem map_charInt_iff (hascii : Ascii dname) {f : Int → Int} {g : Nat → Nat}
    (hfg : ∀ c : Nat, f c = g c) (name : List Nat) :
    name.map (fun c : Nat => f c) = dname.map (fun c => f (charInt c)) ↔
      name.map g = dname.map fun c => g c.toNat := by
  have hleft : name.map (fun c : Nat => f c) = (name.map g).map Int.ofNat := by
    rw [List.map_map]
    exact List.map_congr_left fun c _ => hfg c
  have hright : dname.map (fun c => f (charInt c)) =
      (dname.map fun c => g c.toNat).map Int.ofNat := by
    rw [List.map_map]
    refine List.map_congr_left fun c hc => ?_
    rw [charInt_ascii (hascii c hc), hfg]
    rfl
  rw [hleft, hright]
  exact (List.map_injective_iff.mpr fun _ _ h => Int.ofNat.inj h).eq_iff

/-- Names that match are of the same length. -/
theorem IndexEntry.Matches.length_eq (h : e.Matches dname) : dname.length = e.fileName.length := by
  rw [IndexEntry.Matches] at h
  split at h
  · rw [h, List.length_map]
  · have hlen := congrArg List.length h
    rw [List.length_map, List.length_map] at hlen
    exact hlen.symm

/-- The comparison is right for ASCII names. -/
theorem ntfsFilenameCmp_eq (h : EntryAt nrec limit ie e) (hlimit : limit ≤ nrec.length)
    (hascii : Ascii dname) : ntfsFilenameCmp dname nrec ie = some (decide (e.Matches dname)) := by
  have hfits := h.fits
  have hname := h.name_fits
  rw [ntfsFilenameCmp, if_neg (by omega), h.fileNameLen]
  by_cases hlen : dname.length = e.fileName.length
  · rw [if_neg (not_not.mpr hlen), if_neg (by omega), h.fileNameType]
    by_cases hposix : e.fileNameType = fileNamePosix
    · have hmatches : e.Matches dname ↔ e.fileName = dname.map UInt8.toNat := by
        rw [IndexEntry.Matches, if_pos hposix]
      have hsame := map_charInt_iff hascii (fun c : Nat => (rfl : id (c : Int) = id c)) e.fileName
      rw [if_pos hposix]
      refine (filenameLoop_eq id h.fileName hlen (by omega)).trans (congrArg some ?_)
      rw [decide_eq_decide, hmatches, hsame, List.map_id']
    · have hmatches : e.Matches dname ↔
          e.fileName.map lower = dname.map fun c => lower c.toNat := by
        rw [IndexEntry.Matches, if_neg hposix]
      rw [if_neg hposix]
      refine (filenameLoop_eq tolower h.fileName hlen (by omega)).trans (congrArg some ?_)
      rw [decide_eq_decide, hmatches, map_charInt_iff hascii tolower_cast]
  · rw [if_pos hlen, decide_eq_false fun hm => hlen hm.length_eq]

/-! ## Rows -/

/-- The loop finds the first entry that matches. -/
theorem entryStep_row (h : EntriesAt nrec limit ie es child) (hlimit : limit ≤ nrec.length)
    (hascii : Ascii dname) {iterations : Nat} (henough : limit < ie + iterations) :
    runLoop (entryStep dname nrec limit) iterations ie =
      some (match es.find? fun e => e.Matches dname with
        | some e => .found e.indexedFile
        | none => .last child.isSome) := by
  induction h generalizing iterations with
  | @last ie child h =>
    have hheader := h.header
    obtain ⟨n, rfl⟩ : ∃ n, iterations = n + 1 := ⟨iterations - 1, by omega⟩
    rw [runLoop, entryStep, if_neg (by omega), if_neg (by omega),
      if_neg (Nat.not_lt.mpr h.fits), if_pos h.last]
    dsimp only [List.find?_nil]
    rw [← h.child, childAt]
    by_cases hnode : ieFlags nrec ie &&& indexEntryNode ≠ 0
    · rw [if_pos hnode, decide_eq_true hnode, Option.isSome_some]
    · rw [if_neg hnode, decide_eq_false hnode, Option.isSome_none]
  | @entry ie e es child h rest ih =>
    have hfits := h.fits
    have hname := h.name_fits
    obtain ⟨n, rfl⟩ : ∃ n, iterations = n + 1 := ⟨iterations - 1, by omega⟩
    rw [runLoop, entryStep, if_neg (by omega), if_neg (by omega), if_neg (by omega),
      if_neg (not_not.mpr h.not_last), ntfsFilenameCmp_eq h hlimit hascii, List.find?_cons]
    by_cases hm : e.Matches dname
    · rw [decide_eq_true hm]
      dsimp only
      rw [h.indexedFile]
    · rw [decide_eq_false hm]
      exact ih (by omega)

/-- A node is read up to the first entry that matches. -/
theorem scanEntries_eq {index : Nat} {node : Node} (h : NodeAt nrec index node)
    (hascii : Ascii dname) :
    scanEntries dname nrec index =
      some (match node.entries.find? fun e => e.Matches dname with
        | some e => .found e.indexedFile
        | none => .last node.last.isSome) :=
  entryStep_row h.entries h.limit_le hascii (by omega)

end Liigboot.Fs.Ntfs
