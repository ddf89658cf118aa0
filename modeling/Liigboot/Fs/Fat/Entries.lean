import Liigboot.Fs.Fat.LongName
import Mathlib.Data.List.Forall2
import Mathlib.Data.List.TakeWhile

/-!
# Well-formed directories

An entry is a short entry, with the pieces of a long name in front of it, the last piece first.
Between the entries there may be deleted slots and volume labels. An entry has one name that
`vfat_readdir` lists, and any number of names that `vfat_find_entry` takes for it.
-/

namespace Liigboot.Fs.Fat

/-- The pieces of a long name of some length. -/
def pieceCount (length : Nat) : Nat := (length + 12) / 13

/-- A long name as its pieces hold it: it ends with a null and padding, unless its last piece is
full. -/
def paddedName (long : List UInt16) : List UInt16 :=
  (long ++ 0 :: List.replicate 12 0xffff).take (pieceCount long.length * 13)

/-- The slots hold the pieces of a text, from a piece down to the first one. -/
inductive Pieces (csum : UInt8) (text : List UInt16) (total : Nat) : Nat → List Slot → Prop where
  | nil : Pieces csum text total 0 []
  | cons {n : Nat} {de : Slot} {rest : List Slot} (isLong : de.isLong = true)
      (id : de.id = UInt8.ofNat (n + 1) ||| if n + 1 = total then 0x40 else 0)
      (checksum : de.checksum = csum) (chunk : de.longChunk = slice text (n * 13) 13)
      (pieces : Pieces csum text total n rest) : Pieces csum text total (n + 1) (de :: rest)

/-- An entry; without a long name, `long` is empty. -/
structure Entry where
  long : List UInt16
  pieces : List Slot
  short : Slot
  length_le : long.length ≤ 255
  nul_notMem : 0 ∉ long
  holds : Pieces (getChecksum short.name) (paddedName long) (pieceCount long.length)
    (pieceCount long.length) pieces
  first_ne : short 0 ≠ 0 ∧ short 0 ≠ 0xe5
  attr_eq : short.attr &&& attrVolumeId = 0

/-- A deleted slot or a volume label. -/
def Slot.Gap (de : Slot) : Prop :=
  de 0 = 0xe5 ∨ de 0 ≠ 0 ∧ de.isLong = false ∧ de.attr &&& attrVolumeId ≠ 0

/-- What a directory is made of. -/
inductive Item where
  | gap (de : Slot) (h : de.Gap)
  | entry (e : Entry)

def Item.slots : Item → List Slot
  | .gap de _ => [de]
  | .entry e => e.pieces ++ [e.short]

def Item.entry? : Item → Option Entry
  | .gap _ _ => none
  | .entry e => some e

/-- A directory: items, and what lies behind its end. -/
structure Directory where
  items : List Item
  tail : List Slot
  ends : ∀ de ∈ tail.head?, de 0 = 0
  length_le : (items.flatMap Item.slots).length ≤ 2 ^ 16

def Directory.slots (dir : Directory) : List Slot := dir.items.flatMap Item.slots ++ dir.tail

def Directory.entries (dir : Directory) : List Entry := dir.items.filterMap Item.entry?

/-! ## Names -/

variable {cp : Codepage} {e : Entry} {s : List UInt8}

/-- A name spells a long name: it has the same length, and each of its codes is that of the
character in this place, in one of its cases. -/
def Spells (cp : Codepage) (s : List UInt8) (long : List UInt16) : Prop :=
  List.Forall₂ (fun c u => u = cp.uni c ∨ u = cp.alt c) s long

instance decidableSpells (cp : Codepage) (s : List UInt8) (long : List UInt16) :
    Decidable (Spells cp s long) :=
  inferInstanceAs (Decidable (List.Forall₂ _ s long))

/-- A name is what a text holds: characters up to its end, or up to a null with padding behind. -/
def HoldsName (cp : Codepage) (s : List UInt8) (text : List UInt16) : Prop :=
  ∃ long pad, text = long ++ pad ∧ 0 ∉ long ∧ Spells cp s long ∧
    (pad = [] ∨ ∃ k, pad = 0 :: List.replicate k 0xffff)

/-- A name is the long name of an entry. -/
def Entry.matchesLong (cp : Codepage) (e : Entry) (s : List UInt8) : Bool :=
  e.long ≠ [] && Spells cp s e.long

/-- `vfat_find_entry` takes a name for the long name or the short name of an entry. -/
def Entry.matches (cp : Codepage) (e : Entry) (s : List UInt8) : Bool :=
  e.matchesLong cp s || mangleDosName cp (cStr s) = some e.short.name

/-- The long name that `vfat_readdir` lists. -/
def Entry.readLong (cp : Codepage) (e : Entry) : Option (List UInt8) :=
  if e.long ≠ [] ∧ pieceCount e.long.length < 20 then e.long.mapM (codeOf cp) else none

/-- The name that `vfat_readdir` lists, as it is stored. -/
def Entry.readName (cp : Codepage) (e : Entry) : List UInt8 :=
  (e.readLong cp).getD (shortName cp e.short)

/-- The string in a buffer. -/
def upToNul (buf : List UInt8) : List UInt8 := buf.takeWhile (· ≠ 0)

@[simp] theorem length_paddedName (long : List UInt16) :
    (paddedName long).length = pieceCount long.length * 13 := by
  rw [paddedName, List.length_take, List.length_append, List.length_cons, List.length_replicate,
    pieceCount]
  omega

/-- A long name has twenty pieces at most. -/
theorem Entry.pieceCount_le (e : Entry) : pieceCount e.long.length ≤ 20 := by
  have hle := e.length_le
  rw [pieceCount]
  omega

theorem Entry.pieces_eq_nil (e : Entry) (h : e.long = []) : e.pieces = [] := by
  have hholds := e.holds
  generalize e.pieces = pieces at hholds ⊢
  rw [h] at hholds
  cases hholds
  rfl

theorem pieceCount_pos {α : Type*} {xs : List α} (h : xs ≠ []) : 0 < pieceCount xs.length := by
  have hpos := List.length_pos_iff.mpr h
  rw [pieceCount]
  omega

/-! ## Characters -/

/-- A code stands for a character of the tables. -/
theorem codeOf_spec {u : UInt16} {c : UInt8} (h : codeOf cp u = some c) :
    u = cp.uni c ∨ u = cp.alt c := by
  unfold codeOf at h
  obtain ⟨n, hfind, rfl⟩ := Option.map_eq_some_iff.mp h
  have hn := List.find?_some hfind
  rw [decide_eq_true_eq] at hn
  split_ifs at hn
  · exact Or.inl hn.symm
  · exact Or.inr hn.symm

/-- The characters of the tables have codes. -/
theorem codeOf_ne_none {u : UInt16} {c : UInt8} (h : u = cp.uni c ∨ u = cp.alt c) :
    codeOf cp u ≠ none := by
  have hc := c.toNat_lt
  intro hcode
  unfold codeOf at hcode
  have hnone := List.find?_eq_none.mp (Option.map_eq_none_iff.mp hcode)
  rcases h with hu | hu
  · have hfirst := hnone c.toNat (List.mem_range.mpr (by omega))
    rw [if_pos hc, UInt8.ofNat_toNat, decide_eq_true_eq] at hfirst
    exact hfirst hu.symm
  · have hsecond := hnone (c.toNat + 256) (List.mem_range.mpr (by omega))
    have hcode : UInt8.ofNat (c.toNat + 256) = c := by
      rw [← UInt8.toNat_inj, UInt8.toNat_ofNat']
      omega
    rw [if_neg (by omega), hcode, decide_eq_true_eq] at hsecond
    exact hsecond hu.symm

/-- What follows a long name in its pieces. -/
theorem paddedName_eq (long : List UInt16) : ∃ tail, paddedName long = long ++ tail ∧
    (tail = [] ∨ ∃ k, tail = 0 :: List.replicate k 0xffff) := by
  have hle : long.length ≤ pieceCount long.length * 13 := by
    rw [pieceCount]
    omega
  refine ⟨_, (List.take_append ..).trans (congrArg (· ++ _) (List.take_of_length_le hle)), ?_⟩
  cases pieceCount long.length * 13 - long.length with
  | zero => exact Or.inl rfl
  | succ k =>
    refine Or.inr ⟨min k 12, ?_⟩
    rw [List.take_succ_cons, List.take_replicate]

/-- The long name is followed by a null, also when it fills its pieces. -/
theorem paddedName_append (long pad : List UInt16) :
    ∃ rest, paddedName long ++ 0 :: pad = long ++ 0 :: rest := by
  obtain ⟨tail, heq, rfl | ⟨k, rfl⟩⟩ := paddedName_eq long
  · exact ⟨pad, by rw [heq, List.append_nil]⟩
  · exact ⟨List.replicate k 0xffff ++ 0 :: pad, by rw [heq, List.append_assoc]; rfl⟩

/-- The conversion of a text that ends with a null. -/
theorem vfatCvtLongname_append {long rest : List UInt16} (h : 0 ∉ long) :
    vfatCvtLongname cp (long ++ 0 :: rest) = some (long.mapM (codeOf cp)) := by
  induction long with
  | nil =>
    obtain ⟨c, hc⟩ := Option.ne_none_iff_exists'.mp (codeOf_ne_none (Or.inl cp.uni_nul.symm))
    rw [List.nil_append, vfatCvtLongname, hc]
    rfl
  | cons u long ih =>
    rw [List.mem_cons, not_or] at h
    rw [List.cons_append, vfatCvtLongname, List.mapM_cons]
    cases hu : codeOf cp u with
    | none => rfl
    | some c =>
      dsimp only
      rw [if_neg (Ne.symm h.1), ih h.2]
      cases hlong : long.mapM (codeOf cp) with
      | none => rfl
      | some name => rfl

/-- The null of the tables is spelt by no character. -/
theorem Spells.nul_notMem {long : List UInt16} (hs : Spells cp s long) (h : 0 ∉ long) : 0 ∉ s := by
  induction hs with
  | nil => exact List.not_mem_nil
  | @cons c u s long hcode hs ih =>
    rw [List.mem_cons, not_or] at h ⊢
    refine ⟨?_, ih h.2⟩
    rintro rfl
    rw [cp.uni_nul, cp.alt_nul, or_self] at hcode
    exact h.1 hcode.symm

/-- A conversion of a long name spells it. -/
theorem spells_of_convert {long : List UInt16} (hs : long.mapM (codeOf cp) = some s) :
    Spells cp s long := by
  induction long generalizing s with
  | nil =>
    obtain rfl := Option.some.inj hs
    exact .nil
  | cons u long ih =>
    rw [List.mapM_cons] at hs
    obtain ⟨c, hc, hs⟩ := Option.bind_eq_some_iff.mp hs
    obtain ⟨name, hname, hs⟩ := Option.bind_eq_some_iff.mp hs
    obtain rfl := Option.some.inj hs
    exact .cons (codeOf_spec hc) (ih hname)

/-- A long name that is spelt has a conversion. -/
theorem Spells.convert_ne_none {long : List UInt16} (hs : Spells cp s long) :
    long.mapM (codeOf cp) ≠ none := by
  induction hs with
  | nil => exact Option.some_ne_none _
  | cons hcode hs ih =>
    obtain ⟨code, hcode⟩ := Option.ne_none_iff_exists'.mp (codeOf_ne_none hcode)
    obtain ⟨name, hname⟩ := Option.ne_none_iff_exists'.mp ih
    rw [List.mapM_cons, hcode, hname]
    exact Option.some_ne_none _

theorem holds_nil : HoldsName cp s [] ↔ s = [] := by
  constructor
  · rintro ⟨long, pad, htext, -, hs, -⟩
    obtain ⟨rfl, -⟩ := List.append_eq_nil_iff.mp htext.symm
    exact List.forall₂_nil_right_iff.mp hs
  · rintro rfl
    exact ⟨[], [], rfl, List.not_mem_nil, .nil, Or.inl rfl⟩

/-- A null in a text is the end of the name. -/
theorem holds_nul {rest : List UInt16} :
    HoldsName cp s (0 :: rest) ↔ s = [] ∧ ∃ k, rest = List.replicate k 0xffff := by
  constructor
  · rintro ⟨long, pad, htext, hlong, hs, hpad⟩
    cases long with
    | nil =>
      rw [List.nil_append] at htext
      subst htext
      obtain ⟨k, hk⟩ := hpad.resolve_left (List.cons_ne_nil _ _)
      exact ⟨List.forall₂_nil_right_iff.mp hs, k, (List.cons.inj hk).2⟩
    | cons u long =>
      obtain ⟨rfl, -⟩ := List.cons.inj htext
      exact absurd List.mem_cons_self hlong
  · rintro ⟨rfl, k, rfl⟩
    exact ⟨[], _, rfl, List.not_mem_nil, .nil, Or.inr ⟨k, rfl⟩⟩

/-- Another character of a text is one of the name. -/
theorem holds_cons {u : UInt16} {rest : List UInt16} (hu : u ≠ 0) :
    HoldsName cp s (u :: rest) ↔
      ∃ c s', s = c :: s' ∧ (u = cp.uni c ∨ u = cp.alt c) ∧ HoldsName cp s' rest := by
  constructor
  · rintro ⟨long, pad, htext, hlong, hs, hpad⟩
    cases long with
    | nil =>
      rw [List.nil_append] at htext
      subst htext
      obtain ⟨k, hk⟩ := hpad.resolve_left (List.cons_ne_nil _ _)
      exact absurd (List.cons.inj hk).1 hu
    | cons v long =>
      obtain ⟨rfl, hrest⟩ := List.cons.inj htext
      obtain ⟨c, s', hcode, hs', rfl⟩ := List.forall₂_cons_right_iff.mp hs
      exact ⟨c, s', rfl, hcode, long, pad, hrest, fun hmem => hlong (List.mem_cons_of_mem _ hmem),
        hs', hpad⟩
  · rintro ⟨c, s', rfl, hcode, long, pad, rfl, hlong, hs, hpad⟩
    refine ⟨u :: long, pad, rfl, ?_, .cons hcode hs, hpad⟩
    rw [List.mem_cons, not_or]
    exact ⟨hu.symm, hlong⟩

/-- Behind the name there are fillers only. -/
theorem vfatMatchEnd_iff {padding : List UInt16} (hs : 0 ∉ s) :
    vfatMatchEnd (cStr s) padding = some true ↔
      s = [] ∧ ∃ k, padding = List.replicate k 0xffff := by
  cases s with
  | nil => simp [vfatMatchEnd, cStr, List.eq_replicate_iff]
  | cons c s =>
    rw [List.mem_cons, not_or] at hs
    simp [vfatMatchEnd, cStr, Ne.symm hs.1]

/-- The comparison finds out if a text holds the name. -/
theorem vfatMatchLongname_iff {text : List UInt16} (hs : 0 ∉ s) :
    vfatMatchLongname cp (cStr s) text = some true ↔ HoldsName cp s text := by
  induction text generalizing s with
  | nil =>
    rw [holds_nil, vfatMatchLongname, vfatMatchEnd_iff hs]
    exact and_iff_left ⟨0, rfl⟩
  | cons u rest ih =>
    by_cases hu : u = 0
    · subst hu
      rw [holds_nul, vfatMatchLongname.eq_def]
      exact vfatMatchEnd_iff hs
    · rw [holds_cons hu]
      cases s with
      | nil =>
        -- The end of the name is no character of the text.
        rw [cStr, List.nil_append, vfatMatchLongname, if_neg hu, cp.uni_nul, cp.alt_nul,
          if_pos ⟨hu, hu⟩]
        simp
      | cons c s =>
        rw [List.mem_cons, not_or] at hs
        rw [cStr, List.cons_append, vfatMatchLongname, if_neg hu]
        by_cases hne : u ≠ cp.uni c ∧ u ≠ cp.alt c
        · rw [if_pos hne]
          refine iff_of_false (by decide) ?_
          rintro ⟨c', s', heq, hcode, -⟩
          obtain ⟨rfl, rfl⟩ := List.cons.inj heq
          exact hcode.elim hne.1 hne.2
        · have hcode : u = cp.uni c ∨ u = cp.alt c := by
            by_contra hnot
            exact hne (not_or.mp hnot)
          rw [if_neg hne]
          refine (ih hs.2).trans ⟨fun h => ⟨c, s, rfl, hcode, h⟩, ?_⟩
          rintro ⟨c', s', heq, -, h⟩
          obtain ⟨rfl, rfl⟩ := List.cons.inj heq
          exact h

/-- The characters in front of the end of a text are its name. -/
theorem append_eq_append_of_nul {long long' tail pad : List UInt16} (hlong : 0 ∉ long)
    (hlong' : 0 ∉ long') (htail : tail = [] ∨ ∃ k, tail = 0 :: List.replicate k 0xffff)
    (hpad : pad = [] ∨ ∃ k, pad = 0 :: List.replicate k 0xffff)
    (h : long ++ tail = long' ++ pad) : long = long' := by
  have htake : ∀ {long tail : List UInt16}, 0 ∉ long →
      (tail = [] ∨ ∃ k, tail = 0 :: List.replicate k 0xffff) →
        (long ++ tail).takeWhile (· ≠ 0) = long := by
    intro long tail hlong htail
    have hall : ∀ u ∈ long, decide (u ≠ 0) = true := fun u hu =>
      decide_eq_true fun hzero => hlong (hzero ▸ hu)
    rw [List.takeWhile_append_of_pos hall]
    rcases htail with rfl | ⟨k, rfl⟩
    · exact List.append_nil _
    · exact List.append_nil _
  rw [← htake hlong htail, h, htake hlong' hpad]

/-- The pieces of a long name hold the names that spell it. -/
theorem holds_paddedName {long : List UInt16} (hlong : 0 ∉ long) :
    HoldsName cp s (paddedName long) ↔ Spells cp s long := by
  obtain ⟨tail, heq, htail⟩ := paddedName_eq long
  rw [heq]
  refine ⟨?_, fun hs => ⟨long, tail, rfl, hlong, hs, htail⟩⟩
  rintro ⟨long', pad, htext, hlong', hs, hpad⟩
  rwa [append_eq_append_of_nul hlong hlong' htail hpad htext]

/-! ## Matching -/

/-- An entry matches when it has a long name that is spelled so. -/
theorem Entry.matchesLong_iff : e.matchesLong cp s = true ↔ e.long ≠ [] ∧ Spells cp s e.long := by
  rw [Entry.matchesLong, Bool.and_eq_true, decide_eq_true_eq, decide_eq_true_eq]

/-- A long name has as many pieces as the names that spell it. -/
theorem Entry.pieceCount_of_matchesLong (h : e.matchesLong cp s = true) :
    pieceCount s.length = pieceCount e.long.length :=
  congrArg pieceCount (Entry.matchesLong_iff.mp h).2.length_eq

/-- `vfat_find_entry` takes a name for the long name of an entry if it is the long name. -/
theorem Entry.matchesLong_iff_match (hs : 0 ∉ s) : e.matchesLong cp s = true ↔
    e.long ≠ [] ∧ vfatMatchLongname cp (cStr s) (paddedName e.long) = some true := by
  rw [Entry.matchesLong_iff, vfatMatchLongname_iff hs, holds_paddedName e.nul_notMem]

/-- Some name is the long name if all its characters have codes. -/
theorem Entry.exists_matchesLong_iff :
    (∃ s, e.matchesLong cp s = true) ↔ e.long ≠ [] ∧ e.long.mapM (codeOf cp) ≠ none := by
  constructor
  · rintro ⟨s, hs⟩
    obtain ⟨hne, hspells⟩ := Entry.matchesLong_iff.mp hs
    exact ⟨hne, hspells.convert_ne_none⟩
  · rintro ⟨hne, hcodes⟩
    obtain ⟨name, hname⟩ := Option.ne_none_iff_exists'.mp hcodes
    exact ⟨name, Entry.matchesLong_iff.mpr ⟨hne, spells_of_convert hname⟩⟩

/-- A text without NUL is a string. -/
theorem upToNul_of_notMem (h : 0 ∉ s) : upToNul s = s := by
  refine List.takeWhile_eq_self_iff.mpr fun c hc => decide_eq_true ?_
  rintro rfl
  exact h hc

/-- The NUL ends the string. -/
theorem upToNul_cStr (s : List UInt8) : upToNul (cStr s) = upToNul s := by
  induction s with
  | nil => rfl
  | cons c s ih =>
    rw [cStr, List.cons_append, upToNul, upToNul, List.takeWhile_cons, List.takeWhile_cons]
    exact congrArg (fun rest => if decide (c ≠ 0) = true then c :: rest else []) ih

theorem length_shortPart_le (lower : Bool) (part : List UInt8) :
    (shortPart cp lower part).length ≤ part.length := by
  rw [shortPart, List.length_map]
  exact (List.takeWhile_sublist _).length_le

theorem length_shortName_le (de : Slot) : (shortName cp de).length ≤ 12 := by
  have hbase := @length_shortPart_le cp (de.lcase &&& lcaseBase ≠ 0) (de.name.take 8)
  have hext := @length_shortPart_le cp (de.lcase &&& lcaseExt ≠ 0) (de.name.drop 8)
  have hname : de.name.length = 11 := rfl
  rw [List.length_take, hname] at hbase
  rw [List.length_drop, hname] at hext
  rw [shortName, List.length_append]
  split_ifs
  · rw [List.length_cons]
    omega
  · rw [List.length_nil]
    omega

/-- The string that `vfat_readdir` lists. -/
def Entry.name (cp : Codepage) (e : Entry) : List UInt8 := upToNul (e.readName cp)

/-- A long name that is listed matches itself. -/
theorem Entry.readLong_of_some {name : List UInt8} (h : e.readLong cp = some name) :
    e.matchesLong cp name = true ∧ pieceCount e.long.length < 20 ∧ name.length = e.long.length ∧
      0 ∉ name := by
  rw [Entry.readLong] at h
  split_ifs at h with hlong
  have hspells := spells_of_convert h
  exact ⟨Entry.matchesLong_iff.mpr ⟨hlong.1, hspells⟩, hlong.2, hspells.length_eq,
    hspells.nul_notMem e.nul_notMem⟩

/-- An entry is listed under its long name, or under a name that fits a single piece; this also
happens to a long name that has codes, when it has 20 pieces. -/
theorem Entry.name_cases (cp : Codepage) (e : Entry) :
    (e.matchesLong cp (e.name cp) = true ∧ pieceCount e.long.length < 20) ∨
      (pieceCount (e.name cp).length ≤ 1 ∧
        ((∃ s, e.matchesLong cp s = true) → 20 ≤ pieceCount e.long.length)) := by
  rw [Entry.name, Entry.readName]
  cases hlong : e.readLong cp with
  | some name =>
    obtain ⟨hmatch, hcount, -, hnul⟩ := Entry.readLong_of_some hlong
    rw [Option.getD_some, upToNul_of_notMem hnul]
    exact Or.inl ⟨hmatch, hcount⟩
  | none =>
    refine Or.inr ⟨?_, fun hex => ?_⟩
    · have hle := (List.takeWhile_sublist (· ≠ (0 : UInt8)) (l := shortName cp e.short)).length_le
      have hshort := @length_shortName_le cp e.short
      rw [Option.getD_none, pieceCount, upToNul]
      omega
    · rw [Entry.exists_matchesLong_iff] at hex
      by_contra hcount
      rw [Entry.readLong, if_pos ⟨hex.1, Nat.lt_of_not_le hcount⟩] at hlong
      exact hex.2 hlong

/-! ## Examples -/

/-- The slots of the kernel `vmlinuz-6.1.img`: the two pieces of its long name, and
`VMLINU~1.IMG`. -/
def kernelBytes : List (List UInt8) := [
  [0x42, 0x6d, 0, 0x67, 0, 0, 0, 0xff, 0xff, 0xff, 0xff, 0x0f, 0, 0xf8, 0xff, 0xff, 0xff, 0xff,
    0xff, 0xff, 0xff, 0xff, 0xff, 0xff, 0xff, 0xff, 0, 0, 0xff, 0xff, 0xff, 0xff],
  [0x01, 0x76, 0, 0x6d, 0, 0x6c, 0, 0x69, 0, 0x6e, 0, 0x0f, 0, 0xf8, 0x75, 0, 0x7a, 0, 0x2d, 0,
    0x36, 0, 0x2e, 0, 0x31, 0, 0, 0, 0x2e, 0, 0x69, 0],
  [0x56, 0x4d, 0x4c, 0x49, 0x4e, 0x55, 0x7e, 0x31, 0x49, 0x4d, 0x47, 0x20, 0, 0, 0, 0, 0, 0, 0, 0,
    0, 0, 0, 0, 0, 0, 0x07, 0, 0, 0x40, 0, 0]]

def kernelSlot (n : Nat) : Slot := fun k => (kernelBytes.getD n []).getD k 0

def kernelName : List UInt16 :=
  [0x76, 0x6d, 0x6c, 0x69, 0x6e, 0x75, 0x7a, 0x2d, 0x36, 0x2e, 0x31, 0x2e, 0x69, 0x6d, 0x67]

/-- The two pieces of the sample. -/
theorem kernelPieces_hold : Pieces (getChecksum (kernelSlot 2).name) (paddedName kernelName)
    (pieceCount kernelName.length) (pieceCount kernelName.length)
    [kernelSlot 0, kernelSlot 1] := by
  have hfirst : Pieces 0xf8 (paddedName kernelName) 2 1 [kernelSlot 1] :=
    .cons (by decide) (by decide) (by decide +kernel) (by decide +kernel) .nil
  exact .cons (by decide) (by decide) (by decide +kernel) (by decide +kernel) hfirst

def kernelEntry : Entry where
  long := kernelName
  pieces := [kernelSlot 0, kernelSlot 1]
  short := kernelSlot 2
  length_le := by decide
  nul_notMem := by decide
  holds := kernelPieces_hold
  first_ne := by decide
  attr_eq := by decide

end Liigboot.Fs.Fat
