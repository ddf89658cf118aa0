import Liigboot.Fs.Fat.Agreement

/-!
# What a lookup returns

The entry with a long name, or else the entry with an 8.3 name. `mangle_dos_name` has an 8.3 name
for any string, and the search does not go on to a long name behind the short one.
-/

namespace Liigboot.Fs.Fat

variable {cp : Codepage} {sectorShift : Nat} {sbi : FatSbInfo} {rootCluster : UInt32}
  {dir : Directory} {s : List UInt8}

/-! ## 8.3 names -/

/-- The capitals of the base of a name. A first byte of 0xe5 is stored as 0x05. -/
def baseBytes (cp : Codepage) : List UInt8 → List UInt8
  | [] => []
  | c :: base => (if cp.upper c = 0xe5 then 0x05 else cp.upper c) :: base.map cp.upper

/-- A part of a name, filled up with blanks. -/
def blankFilled (part : List UInt8) (length : Nat) : List UInt8 :=
  part ++ List.replicate (length - part.length) 0x20

instance decidableForallMem {p : UInt8 → Prop} [DecidablePred p] (s : List UInt8) :
    Decidable (∀ c ∈ s, p c) :=
  List.decidableBAll p s

/-- The 8.3 name of a string, for strings that are one: a base of up to eight characters, and
behind a dot an extension of up to three; or one of the two links. -/
def dosName (cp : Codepage) (s : List UInt8) : Option (List UInt8) :=
  let base := s.takeWhile (· ≠ 0x2e)
  let ext := (s.dropWhile (· ≠ 0x2e)).drop 1
  if s = [0x2e] ∨ s = [0x2e, 0x2e] then some (blankFilled s 11)
  else if base ≠ [] ∧ base.length ≤ 8 ∧ ext.length ≤ 3 ∧ 0x2e ∉ ext ∧ (ext = [] → s = base) ∧
      ∀ c ∈ s, 0x20 < c ∧ c ≠ 0x2f then
    some (blankFilled (baseBytes cp base) 8 ++ blankFilled (ext.map cp.upper) 3)
  else none

/-- Characters of a part are capitalised one after the other. -/
theorem mangleLoop_part {part rest buf : List UInt8}
    (hpart : ∀ c ∈ part, 0x20 < c ∧ c ≠ 0x2f ∧ c ≠ 0x2e) (hbuf : buf ≠ [])
    (hlength : buf.length + part.length ≤ 11) :
    mangleLoop cp (part ++ rest) buf = mangleLoop cp rest (buf ++ part.map cp.upper) := by
  induction part generalizing buf with
  | nil => rw [List.nil_append, List.map_nil, List.append_nil]
  | cons c part ih =>
    rw [List.forall_mem_cons] at hpart
    obtain ⟨⟨hblank, hslash, hdot⟩, hpart⟩ := hpart
    rw [List.length_cons] at hlength
    have hpos := List.length_pos_iff.mpr hbuf
    have hplain : ¬(c ≤ 0x20 ∨ c = 0x2f) := not_or.mpr ⟨UInt8.not_le.mpr hblank, hslash⟩
    rw [List.cons_append, mangleLoop, if_pos (by omega), if_neg hplain, if_neg hdot]
    dsimp only
    rw [if_neg fun h => hpos.ne' h.1,
      ih hpart (List.append_ne_nil_of_left_ne_nil hbuf _) (by
        rw [List.length_append, List.length_singleton]
        omega), List.append_assoc]
    rfl

/-- The base of a name. -/
theorem mangleLoop_base {base rest : List UInt8}
    (hbase : ∀ c ∈ base, 0x20 < c ∧ c ≠ 0x2f ∧ c ≠ 0x2e) (hlength : base.length ≤ 8) :
    mangleLoop cp (base ++ rest) [] = mangleLoop cp rest (baseBytes cp base) := by
  cases base with
  | nil => rfl
  | cons c base =>
    rw [List.forall_mem_cons] at hbase
    obtain ⟨⟨hblank, hslash, hdot⟩, hbase⟩ := hbase
    have hplain : ¬(c ≤ 0x20 ∨ c = 0x2f) := not_or.mpr ⟨UInt8.not_le.mpr hblank, hslash⟩
    have hfirst : (if ([] : List UInt8).length = 0 ∧ cp.upper c = 0xe5 then (0x05 : UInt8)
        else cp.upper c) = if cp.upper c = 0xe5 then 0x05 else cp.upper c :=
      if_congr (and_iff_right rfl) rfl rfl
    rw [List.length_cons] at hlength
    rw [List.cons_append, mangleLoop, if_pos (by decide), if_neg hplain, if_neg hdot]
    dsimp only
    rw [hfirst, List.nil_append]
    refine mangleLoop_part hbase (List.cons_ne_nil _ _) ?_
    rw [List.length_singleton]
    omega

@[simp] theorem length_baseBytes (base : List UInt8) :
    (baseBytes cp base).length = base.length := by
  cases base with
  | nil => rfl
  | cons c base => rw [baseBytes, List.length_cons, List.length_map, List.length_cons]

@[simp] theorem length_blankFilled {part : List UInt8} {length : Nat} (h : part.length ≤ length) :
    (blankFilled part length).length = length := by
  rw [blankFilled, List.length_append, List.length_replicate, Nat.add_sub_cancel' h]

/-- The end of a string. -/
theorem mangleLoop_nul (buf : List UInt8) : mangleLoop cp [0] buf = some buf := by
  have hnul : (0 : UInt8) ≤ 0x20 ∨ (0 : UInt8) = 0x2f := Or.inl (by decide)
  rw [mangleLoop, if_pos hnul]
  exact ite_self _

/-- What is filled up twice. -/
theorem blankFilled_append {xs ys : List UInt8} (hxs : xs.length = 8) (hys : ys.length ≤ 3) :
    xs ++ ys ++ List.replicate (11 - (xs ++ ys).length) 0x20 = xs ++ blankFilled ys 3 := by
  have hcount : 11 - (xs ++ ys).length = 3 - ys.length := by
    rw [List.length_append, hxs]
    omega
  rw [hcount, List.append_assoc, blankFilled]

/-- A base and an extension are mangled to an 8.3 name. -/
theorem mangleLoop_dosName {base ext : List UInt8} (hbase : base.length ≤ 8) (hext : ext.length ≤ 3)
    (hbaseChars : ∀ c ∈ base, 0x20 < c ∧ c ≠ 0x2f ∧ c ≠ 0x2e)
    (hextChars : ∀ c ∈ ext, 0x20 < c ∧ c ≠ 0x2f ∧ c ≠ 0x2e) :
    (mangleLoop cp (base ++ (if ext = [] then [] else 0x2e :: ext) ++ [0]) []).map
        (fun buf => buf ++ List.replicate (11 - buf.length) 0x20) =
      some (blankFilled (baseBytes cp base) 8 ++ blankFilled (ext.map cp.upper) 3) := by
  have hlength : (blankFilled (baseBytes cp base) 8).length = 8 :=
    length_blankFilled (by rw [length_baseBytes]; exact hbase)
  have hmap : (ext.map cp.upper).length ≤ 3 := by
    rw [List.length_map]
    exact hext
  rw [← blankFilled_append hlength hmap, List.append_assoc, mangleLoop_base hbaseChars hbase]
  split_ifs with hnil
  · rw [List.nil_append, mangleLoop_nul, Option.map_some, hnil, List.map_nil, List.append_nil,
      hlength, blankFilled, List.append_assoc, ← List.replicate_add, length_baseBytes]
    have hcount : 8 - base.length + (11 - 8) = 11 - base.length := by omega
    rw [hcount]
  · have hplain : ¬((0x2e : UInt8) ≤ 0x20 ∨ (0x2e : UInt8) = 0x2f) := by decide
    have htake : ((baseBytes cp base ++
        List.replicate (8 - (baseBytes cp base).length) 0x20).take 8) =
          blankFilled (baseBytes cp base) 8 :=
      List.take_of_length_le hlength.le
    have hfilled : blankFilled (baseBytes cp base) 8 ≠ [] := by
      intro h
      rw [h] at hlength
      exact nomatch hlength
    rw [List.cons_append, mangleLoop, if_pos (by rw [length_baseBytes]; omega), if_neg hplain,
      if_pos rfl, htake, mangleLoop_part hextChars hfilled (by omega), mangleLoop_nul]
    rfl

/-- A string is split at its first dot. -/
theorem split_dot (s : List UInt8)
    (h : (s.dropWhile (· ≠ 0x2e)).drop 1 = [] → s = s.takeWhile (· ≠ 0x2e)) :
    s = s.takeWhile (· ≠ 0x2e) ++ if (s.dropWhile (· ≠ 0x2e)).drop 1 = [] then []
      else 0x2e :: (s.dropWhile (· ≠ 0x2e)).drop 1 := by
  split_ifs with hnil
  · rw [List.append_nil]
    exact h hnil
  · have hdrop : s.dropWhile (· ≠ 0x2e) = 0x2e :: (s.dropWhile (· ≠ 0x2e)).drop 1 := by
      have hfirst := List.head?_dropWhile_not (fun c : UInt8 => decide (c ≠ 0x2e)) s
      cases htail : s.dropWhile (· ≠ 0x2e) with
      | nil => exact absurd (congrArg (List.drop 1) htail) hnil
      | cons c tail =>
        rw [htail] at hfirst
        have hc : c = 0x2e := by simpa using hfirst
        rw [hc]
        rfl
    rw [← hdrop]
    exact List.takeWhile_append_dropWhile.symm

/-- A string that is an 8.3 name is mangled to it. -/
theorem mangleDosName_of_dosName {name : List UInt8} (h : dosName cp s = some name) :
    mangleDosName cp (cStr s) = some name := by
  rw [dosName] at h
  by_cases hdots : s = [0x2e] ∨ s = [0x2e, 0x2e]
  · rw [if_pos hdots] at h
    obtain rfl := Option.some.inj h
    rcases hdots with rfl | rfl <;> rfl
  rw [if_neg hdots] at h
  split_ifs at h with hvalid
  obtain rfl := Option.some.inj h
  obtain ⟨hne, hbase, hext, hdot, hnil, hchars⟩ := hvalid
  have hsplit := split_dot s hnil
  have hbaseChars : ∀ c ∈ s.takeWhile (· ≠ 0x2e), 0x20 < c ∧ c ≠ 0x2f ∧ c ≠ 0x2e := by
    intro c hc
    obtain ⟨hblank, hslash⟩ := hchars c ((List.takeWhile_sublist _).subset hc)
    exact ⟨hblank, hslash,
      of_decide_eq_true (List.mem_takeWhile_imp (p := fun c : UInt8 => decide (c ≠ 0x2e)) hc)⟩
  have hextChars : ∀ c ∈ (s.dropWhile (· ≠ 0x2e)).drop 1, 0x20 < c ∧ c ≠ 0x2f ∧ c ≠ 0x2e := by
    intro c hc
    obtain ⟨hblank, hslash⟩ :=
      hchars c ((List.dropWhile_sublist _).subset (List.mem_of_mem_drop hc))
    exact ⟨hblank, hslash, fun heq => hdot (heq ▸ hc)⟩
  have hloop := @mangleLoop_dosName cp _ _ hbase hext hbaseChars hextChars
  rw [← hsplit] at hloop
  have hfirst : s.head? ≠ some 0x2e := by
    intro hhead
    cases s with
    | nil => exact nomatch hhead
    | cons c s =>
      obtain rfl := Option.some.inj hhead
      exact hne rfl
  rw [← hloop]
  cases s with
  | nil => exact absurd rfl hne
  | cons c s =>
    have hc : c ≠ 0x2e := fun heq => hfirst (congrArg some heq)
    rw [mangleDosName]
    · rfl
    · exact fun _ heq => hc (List.cons.inj heq).1
    · exact fun _ heq => hc (List.cons.inj heq).1

/-! ## Lookups -/

/-- The entry with a long name, or else the entry with an 8.3 name. -/
def Directory.lookup (dir : Directory) (cp : Codepage) (s : List UInt8) : Option Entry :=
  (dir.entries.find? (Entry.matchesLong cp · s)).or
    (dir.entries.find? fun e => dosName cp s = some e.short.name)

/-- A lookup returns the inode of the entry, if there is one. -/
def Directory.Finds (dir : Directory) (cp : Codepage) (sectorShift : Nat) (sbi : FatSbInfo)
    (rootCluster : UInt32) (s : List UInt8) : Prop :=
  match dir.lookup cp s with
  | none => vfatFindEntry cp sectorShift sbi rootCluster s dir.slots = some none
  | some e => ∃ found, vfatFindEntry cp sectorShift sbi rootCluster s dir.slots =
      some (some found) ∧ e.short.IsInode sbi rootCluster found

/-- The first entry with the long name or with the mangled name has clusters if it is a file, and
has the long name, or is mangled without a loss while no entry has the long name. -/
def Directory.Unambiguous (dir : Directory) (cp : Codepage) (s : List UInt8) : Prop :=
  ∀ e, dir.entries.find? (Entry.matches cp · s) = some e →
    ¬e.short.IsEmptyFile ∧ (e.matchesLong cp s = true ∨
      dosName cp s = some e.short.name ∧ ∀ e' ∈ dir.entries, e'.matchesLong cp s = false)

theorem Entry.matches_of_matchesLong {e : Entry} (h : e.matchesLong cp s = true) :
    e.matches cp s = true := by
  rw [Entry.matches, h, Bool.true_or]

theorem Entry.matches_of_dosName {e : Entry} (h : dosName cp s = some e.short.name) :
    e.matches cp s = true := by
  rw [Entry.matches, mangleDosName_of_dosName h, decide_eq_true rfl, Bool.or_true]

/-- The first item with a property is the first one with a stronger property that it has. -/
theorem find?_of_imp {α : Type*} {p q : α → Bool} {xs : List α} {x : α}
    (himp : ∀ x, q x = true → p x = true) (h : xs.find? p = some x) (hx : q x = true) :
    xs.find? q = some x := by
  obtain ⟨-, pre, post, hxs, hpre⟩ := List.find?_eq_some_iff_append.mp h
  refine List.find?_eq_some_iff_append.mpr ⟨hx, pre, post, hxs, fun y hy => ?_⟩
  have hy := hpre y hy
  rw [Bool.not_eq_true'] at hy ⊢
  exact Bool.eq_false_iff.mpr fun hq => Bool.eq_false_iff.mp hy (himp y hq)

/-- Without a match there is no such entry. -/
theorem Directory.lookup_eq_none (h : dir.entries.find? (Entry.matches cp · s) = none) :
    dir.lookup cp s = none := by
  rw [List.find?_eq_none] at h
  have hlong : dir.entries.find? (Entry.matchesLong cp · s) = none :=
    List.find?_eq_none.mpr fun e he hmatch => h e he (Entry.matches_of_matchesLong hmatch)
  have hdos : dir.entries.find? (fun e => dosName cp s = some e.short.name) = none :=
    List.find?_eq_none.mpr fun e he hname =>
      h e he (Entry.matches_of_dosName (of_decide_eq_true hname))
  rw [Directory.lookup, hlong, hdos]
  rfl

/-- The first match is the entry, when it is no loss. -/
theorem Directory.lookup_eq_some {e : Entry}
    (h : dir.entries.find? (Entry.matches cp · s) = some e)
    (hname : e.matchesLong cp s = true ∨
      dosName cp s = some e.short.name ∧ ∀ e' ∈ dir.entries, e'.matchesLong cp s = false) :
    dir.lookup cp s = some e := by
  rw [Directory.lookup]
  rcases hname with hlong | ⟨hdos, hnone⟩
  · rw [find?_of_imp (fun _ => Entry.matches_of_matchesLong) h hlong, Option.some_or]
  · have hlong : dir.entries.find? (Entry.matchesLong cp · s) = none :=
      List.find?_eq_none.mpr fun e' he' => Bool.eq_false_iff.mp (hnone e' he')
    have hfirst := find?_of_imp (q := fun e => decide (dosName cp s = some e.short.name))
      (fun _ hq => Entry.matches_of_dosName (of_decide_eq_true hq)) h (decide_eq_true hdos)
    rw [hlong, Option.none_or]
    exact hfirst

/-- An entry that is looked up has the long name, or has the 8.3 name and no entry has the long
name. -/
theorem Directory.lookup_spec {e : Entry} (h : dir.lookup cp s = some e) :
    e ∈ dir.entries ∧ (e.matchesLong cp s = true ∨
      dosName cp s = some e.short.name ∧ ∀ e' ∈ dir.entries, e'.matchesLong cp s = false) := by
  rw [Directory.lookup, Option.or_eq_some_iff] at h
  rcases h with hlong | ⟨hnone, hdos⟩
  · exact ⟨List.mem_of_find?_eq_some hlong,
      Or.inl (List.find?_some (p := (Entry.matchesLong cp · s)) hlong)⟩
  · refine ⟨List.mem_of_find?_eq_some hdos, Or.inr ⟨of_decide_eq_true
      (List.find?_some (p := fun e : Entry => decide (dosName cp s = some e.short.name)) hdos),
      fun e' he' => ?_⟩⟩
    exact Bool.eq_false_iff.mpr (List.find?_eq_none.mp hnone e' he')

theorem pieceCount_le_of_le {length : Nat} (h : length ≤ 255) : pieceCount length ≤ 20 := by
  rw [pieceCount]
  omega

/-- A lookup returns the inode of the entry with the name if and only if the first entry that is
taken for it is this entry, and has clusters. -/
theorem finds_iff_unambiguous (cp : Codepage) (sectorShift : Nat) (sbi : FatSbInfo)
    (rootCluster : UInt32) (dir : Directory) (s : List UInt8) (hlength : s.length ≤ 255)
    (hchars : 0 ∉ s) :
    (dir.Unambiguous cp s → dir.Finds cp sectorShift sbi rootCluster s) ∧
      (dir.Consistent sectorShift sbi rootCluster →
        (dir.Finds cp sectorShift sbi rootCluster s ↔ dir.Unambiguous cp s)) := by
  have heq := @vfatFindEntry_eq cp sectorShift sbi rootCluster dir s hchars
    (pieceCount_le_of_le hlength)
  have hfinds : dir.Unambiguous cp s → dir.Finds cp sectorShift sbi rootCluster s := by
    intro hunamb
    cases hfirst : dir.entries.find? (Entry.matches cp · s) with
    | none =>
      rw [Directory.Finds, Directory.lookup_eq_none hfirst, heq, hfirst]
      rfl
    | some e =>
      obtain ⟨hfile, hname⟩ := hunamb e hfirst
      rw [Directory.Finds, Directory.lookup_eq_some hfirst hname, heq, hfirst]
      exact ⟨_, rfl, foundInode_isInode hfile⟩
  refine ⟨hfinds, fun hdir => ⟨fun h e hfirst => ?_, hfinds⟩⟩
  rw [Directory.Finds, heq, hfirst] at h
  cases hlookup : dir.lookup cp s with
  | none =>
    rw [hlookup] at h
    exact nomatch Option.some.inj h
  | some b =>
    rw [hlookup] at h
    obtain ⟨found, hfound, hinode⟩ := h
    obtain rfl := Option.some.inj (Option.some.inj hfound)
    obtain ⟨hmem, hname⟩ := Directory.lookup_spec hlookup
    have hmem' := List.mem_of_find?_eq_some hfirst
    obtain ⟨hfile, hstart⟩ := hdir.sameStart hmem' hmem hinode
    obtain rfl := hdir.eq_of_sameStart hmem' hmem hstart
    exact ⟨hfile, hname⟩

/-! ## Examples -/

/-- The kernel is found under its long name, also in capitals, behind another file. -/
theorem finds_iff_unambiguous_sample : kernelDirectory.Finds codepage 9 sampleFat 0
    [0x56, 0x4d, 0x4c, 0x49, 0x4e, 0x55, 0x5a, 0x2d, 0x36, 0x2e, 0x31, 0x2e, 0x49, 0x4d, 0x47] := by
  refine ((finds_iff_unambiguous codepage 9 sampleFat 0 _ _ (by decide) (by decide)).2
    kernelDirectory_consistent).mpr fun e he => ?_
  have hfile : ∀ e ∈ kernelDirectory.entries, ¬e.short.IsEmptyFile := by
    intro e he
    rcases List.mem_pair.mp he with rfl | rfl
    · exact fun h => absurd h.1 (by decide +kernel)
    · exact fun h => absurd h.1 (by decide +kernel)
  have hmem := List.mem_of_find?_eq_some he
  refine ⟨hfile e hmem, Or.inl ?_⟩
  have hmatch := List.find?_some he
  rcases List.mem_pair.mp hmem with rfl | rfl
  · -- The file in front has another name.
    exact absurd hmatch (by decide +kernel)
  · decide +kernel

set_option maxRecDepth 4096 in
/-- An empty file is returned as the root directory. -/
theorem empty_file_not_finds : ¬∀ (dir : Directory) (s : List UInt8), s.length ≤ 255 →
    (∀ c ∈ s, 0x20 < c) → dir.Finds codepage 9 sampleFat 0 s := by
  intro h
  have hfinds := h (sampleDirectory (sampleEntry 0 (Or.inl rfl)) rfl) [0x41] (by decide)
    (by decide)
  have hlookup : (sampleDirectory (sampleEntry 0 (Or.inl rfl)) rfl).lookup codepage [0x41] =
      some (sampleEntry 0 (Or.inl rfl)) := by
    have hdos : dosName codepage [0x41] = some (sampleEntry 0 (Or.inl rfl)).short.name := by
      decide +kernel
    rw [Directory.lookup]
    refine Option.or_eq_some_iff.mpr (Or.inr ⟨rfl, ?_⟩)
    exact List.find?_cons_of_pos (decide_eq_true hdos)
  rw [Directory.Finds, hlookup] at hfinds
  obtain ⟨found, hfound, -, hrest⟩ := hfinds
  have hroot : vfatFindEntry codepage 9 sampleFat 0 [0x41] [sampleShort 0] =
      some (some ⟨7168, 0, 19, false⟩) := by
    decide +kernel
  obtain rfl := Option.some.inj (Option.some.inj (hroot.symm.trans hfound))
  rw [if_neg (by decide +kernel)] at hrest
  exact absurd hrest.1 (by decide +kernel)

end Liigboot.Fs.Fat
