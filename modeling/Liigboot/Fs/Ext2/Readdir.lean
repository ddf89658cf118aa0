import Liigboot.Lib.Cursor
import Liigboot.Fs.Ext2.FindEntry
import Mathlib.Data.Nat.Bitwise

/-!
# Listing an ext2 directory

`ext2_readdir` returns the record at the offset of the file and goes to the next one. It does not
ask whether the record has an inode number, as `ext2_match_entry` does, so that the records of
deleted entries and those that fill a block are returned too.
-/

namespace Liigboot.Fs.Ext2

/-! ## The source -/

def deFileType (data : Memory) (o : Nat) : Nat := (data (o + 7)).toNat

/-- `struct dirent`, with the bytes that are stored in `d_name`. -/
structure Dirent where
  dIno : Nat
  dOff : Nat
  dReclen : Nat
  dType : Nat
  dName : List UInt8
  deriving DecidableEq, Repr

/-- The string in `d_name`. -/
def Dirent.name (d : Dirent) : List UInt8 := d.dName.takeWhile (· ≠ 0)

/-- The table of `ext2_cvt_type`. -/
def inodeType : List Nat := [0, 8, 4, 2, 6, 1, 12, 10]

/-- `ext2_cvt_type`: the type 8 reads what lies behind the table. -/
def ext2CvtType (behind dFileType : Nat) : Nat :=
  if dFileType > 8 then 0 else inodeType.getD dFileType behind

/-- `ext2_readdir`: the offset of the file, and the entry that is returned. -/
def ext2Readdir (behind : Nat) (dir : Nat → Memory) (blockShift size offset : Nat) :
    Nat × Option Dirent :=
  if offset ≥ size then (offset, none)
  else
    let data := dir (offset >>> blockShift)
    let de := offset &&& (2 ^ blockShift - 1)
    (u32 (offset + deRecLen data de), some {
      dIno := deInode data de
      dOff := offset
      dReclen := (12 + deNameLen data de + 1) % 2 ^ 16
      dType := ext2CvtType behind (deFileType data de)
      dName := deName data de (deNameLen data de) ++ [0] })

/-! ## Directories -/

/-- A record of a directory. It has no inode number where an entry has been deleted, or where it
fills a block. -/
structure Record where
  inode : Nat
  recLen : Nat
  fileType : Nat
  name : List UInt8
  deriving DecidableEq, Repr

/-- The record of an entry. -/
def Record.live (r : Record) : Bool := r.inode ≠ 0

/-- A record lies at an offset of a block. -/
structure Record.At (r : Record) (data : Memory) (o : Nat) : Prop where
  inode : deInode data o = r.inode
  recLen : deRecLen data o = r.recLen
  nameLen : deNameLen data o = r.name.length
  fileType : deFileType data o = r.fileType
  name : deName data o r.name.length = r.name
  room : 8 + r.name.length ≤ r.recLen

/-- Records fill a block from an offset on. -/
inductive RecordsAt (data : Memory) (blockSize : Nat) : Nat → List Record → Prop
  | nil : RecordsAt data blockSize blockSize []
  | cons {o : Nat} {r : Record} {rs : List Record} (h : r.At data o)
      (hrest : RecordsAt data blockSize (o + r.recLen) rs) : RecordsAt data blockSize o (r :: rs)

/-- The records of a directory, block by block. -/
structure Directory where
  blocks : List (List Record)

/-- The records in their order. -/
def Directory.records (d : Directory) : List Record := d.blocks.flatten

/-- The records of the entries in their order. -/
def Directory.entries (d : Directory) : List Record := d.records.filter Record.live

/-- The entries have names, which are strings, and no two have the same one. -/
structure Directory.WellFormed (d : Directory) : Prop where
  named : ∀ r ∈ d.entries, r.name ≠ [] ∧ 0 ∉ r.name
  distinct : (d.entries.map Record.name).Nodup

/-- The blocks of a directory, as they come from the cache. What lies behind a block is
arbitrary. -/
def Directory.Stored (d : Directory) (dir : Nat → Memory) (blockShift : Nat) : Prop :=
  ∀ k (hk : k < d.blocks.length), RecordsAt (dir k) (2 ^ blockShift) 0 d.blocks[k]

/-- The size of a directory. -/
def Directory.size (d : Directory) (blockShift : Nat) : Nat := d.blocks.length * 2 ^ blockShift

/-- What is returned for a record. -/
structure Shows (de : Dirent) (r : Record) : Prop where
  dIno : de.dIno = r.inode
  dReclen : de.dReclen = 12 + r.name.length + 1
  dType : ∃ behind, de.dType = ext2CvtType behind r.fileType
  dName : de.dName = r.name ++ [0]

/-- A call that finds the directory in the cache. -/
def Reads (d : Directory) (blockShift offset : Nat) (r : Option Dirent) (offset' : Nat) : Prop :=
  ∃ behind dir, d.Stored dir blockShift ∧
    ext2Readdir behind dir blockShift (d.size blockShift) offset = (offset', r)

/-- The calls from the start of a directory on, with their results. -/
def Listed (d : Directory) (blockShift : Nat) (rs : List (Option Dirent)) (offset : Nat) : Prop :=
  Visits (Reads d blockShift) (fun s t => t = s) 0 rs offset

/-- The calls return some records in order and each once, and then the end. -/
def Lists (d : Directory) (blockShift : Nat) (records : List Record) : Prop :=
  ∀ rs offset, Listed d blockShift rs offset →
    List.Forall₂ (Option.Rel Shows) rs ((List.range rs.length).map fun i => records[i]?)

/-- The names that the calls return are found at the same inode number. -/
def Resolves (d : Directory) (blockShift : Nat) : Prop :=
  ∀ rs offset, Listed d blockShift rs offset → ∀ de, some de ∈ rs →
    ∀ dir, d.Stored dir blockShift → ∃ fuel found,
      ext2FindEntry de.name dir (2 ^ blockShift) (d.size blockShift) fuel = some (some found) ∧
        deInode (dir found.1) found.2 = de.dIno

variable {d : Directory} {dir : Nat → Memory} {data : Memory} {behind blockShift offset k m o : Nat}
  {r : Record} {rs pre xs : List Record} {name : List UInt8}

/-! ## The calls -/

theorem RecordsAt.le (h : RecordsAt data m o rs) : o ≤ m := by
  induction h with
  | nil => exact Nat.le_refl _
  | cons _ _ ih => exact (Nat.le_add_right _ _).trans ih

theorem RecordsAt.eq_end (h : RecordsAt data m o []) : o = m := by
  cases h
  rfl

/-- The records that an offset has yet to come to. -/
inductive Left (d : Directory) (blockShift : Nat) : Nat → List Record → Prop
  | inside {k o : Nat} {rs : List Record} (hk : k < d.blocks.length)
      (h : ∀ dir, d.Stored dir blockShift → RecordsAt (dir k) (2 ^ blockShift) o rs)
      (ho : o < 2 ^ blockShift) :
      Left d blockShift (k * 2 ^ blockShift + o) (rs ++ (d.blocks.drop (k + 1)).flatten)
  | done : Left d blockShift (d.size blockShift) []

/-- The records from a block on remain in front of the block. -/
theorem left_block (hk : k ≤ d.blocks.length) :
    Left d blockShift (k * 2 ^ blockShift) (d.blocks.drop k).flatten := by
  obtain rfl | hlt := Nat.eq_or_lt_of_le hk
  · rw [List.drop_length, List.flatten_nil]
    exact .done
  · rw [List.drop_eq_getElem_cons hlt, List.flatten_cons]
    exact .inside hlt (fun dir hdir => hdir k hlt) (Nat.two_pow_pos blockShift)

/-- The block and the offset in it. -/
theorem offset_parts (ho : o < 2 ^ blockShift) :
    (k * 2 ^ blockShift + o) >>> blockShift = k ∧
      (k * 2 ^ blockShift + o) &&& (2 ^ blockShift - 1) = o := by
  rw [Nat.shiftRight_eq_div_pow, Nat.and_two_pow_sub_one_eq_mod, Nat.add_comm,
    Nat.add_mul_div_right _ _ (Nat.two_pow_pos _), Nat.div_eq_of_lt ho, Nat.zero_add,
    Nat.add_mul_mod_self_right, Nat.mod_eq_of_lt ho]
  exact ⟨rfl, rfl⟩

/-- A place in a block lies in front of the end of the directory. -/
theorem place_lt_size (hk : k < d.blocks.length) (ho : o < 2 ^ blockShift) :
    k * 2 ^ blockShift + o < d.size blockShift := by
  have hle := Nat.mul_le_mul_right (2 ^ blockShift) hk
  rw [Nat.succ_mul] at hle
  exact Nat.lt_of_lt_of_le (Nat.add_lt_add_left ho _) hle

/-- A call returns the record that it finds. -/
theorem ext2Readdir_inside (hsize : d.size blockShift < 2 ^ 32) (hk : k < d.blocks.length)
    (h : r.At (dir k) o) (ho : o + r.recLen ≤ 2 ^ blockShift) :
    ∃ de, ext2Readdir behind dir blockShift (d.size blockShift) (k * 2 ^ blockShift + o) =
      (k * 2 ^ blockShift + (o + r.recLen), some de) ∧ Shows de r := by
  have hroom := h.room
  have hlt : o < 2 ^ blockShift := by omega
  have hin := place_lt_size hk hlt
  have hle := Nat.mul_le_mul_right (2 ^ blockShift) hk
  rw [Nat.succ_mul] at hle
  obtain ⟨hblock, hoff⟩ := offset_parts (k := k) hlt
  have hname : r.name.length < 256 := h.nameLen ▸ UInt8.toNat_lt _
  rw [ext2Readdir, if_neg (Nat.not_le.mpr hin), hblock, hoff]
  dsimp only
  rw [h.recLen, h.inode, h.nameLen, h.fileType, h.name, Nat.add_assoc,
    u32_of_lt (by rw [Directory.size] at hsize; omega)]
  exact ⟨_, rfl, rfl, Nat.mod_eq_of_lt (by omega), ⟨behind, rfl⟩, rfl⟩

/-- The calls go through the records. -/
theorem reads_cursor (hsize : d.size blockShift < 2 ^ 32) :
    Cursor (Reads d blockShift) (fun s t => t = s) Shows (Left d blockShift) where
  call := by
    rintro s r t xs hleft ⟨behind, dir, hdir, hread⟩
    cases hleft with
    | done =>
      rw [ext2Readdir, if_pos (Nat.le_refl _)] at hread
      obtain ⟨rfl, rfl⟩ := Prod.mk.inj hread
      exact Or.inl ⟨rfl, rfl⟩
    | @inside k o rs hk h ho =>
      right
      cases rs with
      | nil => exact absurd (h dir hdir).eq_end ho.ne
      | cons e rest =>
        obtain ⟨hat, hrest⟩ : e.At (dir k) o ∧
            RecordsAt (dir k) (2 ^ blockShift) (o + e.recLen) rest := by
          cases h dir hdir with
          | cons hat hrest => exact ⟨hat, hrest⟩
        obtain ⟨de, hcall, hshows⟩ := @ext2Readdir_inside d dir behind blockShift k o e hsize hk
          hat hrest.le
        obtain ⟨rfl, rfl⟩ := Prod.mk.inj (hcall.symm.trans hread)
        refine ⟨de, e, _, rfl, rfl, hshows, ?_⟩
        have hnext : ∀ dir, d.Stored dir blockShift →
            RecordsAt (dir k) (2 ^ blockShift) (o + e.recLen) rest := by
          intro dir' hdir'
          cases h dir' hdir' with
          | cons _ hrest' => exact hrest'
        obtain hend | hlt := Nat.eq_or_lt_of_le hrest.le
        · -- the last record of the block
          have hnil : rest = [] := by
            rw [hend] at hrest
            cases hrest with
            | nil => rfl
            | cons hat' hrest' =>
              have hroom := hat'.room
              have hle := hrest'.le
              omega
          rw [hnil, hend, ← Nat.succ_mul]
          exact left_block hk
        · exact .inside hk hnext hlt
  other := by
    rintro s t xs hleft rfl
    exact hleft

/-- The end is reported from then on. -/
theorem reads_end {s t : Nat} {r : Option Dirent} (hs : Left d blockShift s [])
    (h : Reads d blockShift s r t) : Left d blockShift t [] := by
  obtain ⟨behind, dir, hdir, hread⟩ := h
  generalize hnil : ([] : List Record) = xs at hs
  cases hs with
  | done =>
    rw [ext2Readdir, if_pos (Nat.le_refl _)] at hread
    obtain ⟨rfl, rfl⟩ := Prod.mk.inj hread
    exact .done
  | @inside k o rs hk h ho =>
    obtain ⟨rfl, -⟩ := List.append_eq_nil_iff.mp hnil.symm
    exact absurd (h dir hdir).eq_end ho.ne

/-- The calls return all records of a directory. -/
theorem lists_records (hsize : d.size blockShift < 2 ^ 32) : Lists d blockShift d.records := by
  intro rs offset h
  have hstart : Left d blockShift 0 d.records := by
    have hblock := @left_block d blockShift 0 (Nat.zero_le _)
    rwa [Nat.zero_mul, List.drop_zero] at hblock
  exact ((reads_cursor hsize).results_end (fun _ _ _ hs hcall => reads_end hs hcall) h hstart).1

/-- Any number of calls can be made. -/
theorem exists_listed (hdir : d.Stored dir blockShift) (n : Nat) :
    ∃ rs offset, Listed d blockShift rs offset ∧ rs.length = n := by
  induction n with
  | zero => exact ⟨[], 0, .start, rfl⟩
  | succ n ih =>
    obtain ⟨rs, offset, h, hlen⟩ := ih
    refine ⟨_, _, .call h ⟨0, dir, hdir, rfl⟩, ?_⟩
    rw [List.length_append, List.length_singleton, hlen]

end Liigboot.Fs.Ext2
