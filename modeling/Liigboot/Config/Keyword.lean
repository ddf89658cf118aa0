import Mathlib.Algebra.Group.Nat.Defs
import Mathlib.Data.List.Nodup
import Mathlib.Order.Nat
import Mathlib.Tactic.Common

/-!
# Dispatch of configuration keywords

`getcommand` keeps a keyword only as a 32-bit hash, made while its characters are
read, and searches a table that holds nothing but the hashes made at build time.
So the handler that runs is the one whose keyword has the hash of the word. Letter
case is folded by setting one bit of every character, and every keyword is found
under any spelling of its letters; words that are no keyword are told apart from
the keywords by their hash alone. All of this is about words that fit in `trackbuf`,
where they are stored without a limit.
-/

namespace Liigboot.Config

/-! ## The keyword table -/

/-- The entry points of the keyword table. -/
inductive Entrypoint
  | pcComment | pcText | pcOpencmd | pcAppend | pcFilename | pcDefault | pcSetint16 | pcKernel
  | pcLabel | pcSay | pcSerial | pcTimeout | pcOntimeout | pcOnerror | pcLocalboot
  deriving DecidableEq, Repr

/-- The arguments of the keyword table: a number, or the address of a routine or a variable. -/
inductive Argument
  | num (n : Nat)
  | pcInclude | initRD | getMsgFile | loadfont | allowImplicit | loadkeys | forcePrompt
  | displayCon | kbdTimeout | totalTimeout | allowOptions | noEscape | noComplete | noHalt
  | pxeRetry | vkKernel | vkLinux | vkBoot | vkBss | vkPxe | vkFdimage | vkComboot | vkCom32
  | vkConfig
  | fKey (n : Nat)
  deriving DecidableEq, Repr

structure Keyword where
  name : List UInt8
  entrypoint : Entrypoint
  argument : Argument
  deriving DecidableEq, Repr

/-- One line of the table; the hash is made from the name at build time. -/
def keyword (name : String) (entrypoint : Entrypoint) (argument : Argument) : Keyword :=
  ⟨name.toUTF8.data.toList, entrypoint, argument⟩

/-- `keywd_table`. -/
def keywdTable : List Keyword :=
  [keyword "menu" .pcComment (.num 0),
    keyword "text" .pcText (.num 0),
    keyword "include" .pcOpencmd .pcInclude,
    keyword "append" .pcAppend (.num 0),
    keyword "initrd" .pcFilename .initRD,
    keyword "default" .pcDefault (.num 1),
    keyword "ui" .pcDefault (.num 2),
    keyword "display" .pcOpencmd .getMsgFile,
    keyword "font" .pcOpencmd .loadfont,
    keyword "implicit" .pcSetint16 .allowImplicit,
    keyword "kbdmap" .pcOpencmd .loadkeys,
    keyword "kernel" .pcKernel .vkKernel,
    keyword "linux" .pcKernel .vkLinux,
    keyword "boot" .pcKernel .vkBoot,
    keyword "bss" .pcKernel .vkBss,
    keyword "pxe" .pcKernel .vkPxe,
    keyword "fdimage" .pcKernel .vkFdimage,
    keyword "comboot" .pcKernel .vkComboot,
    keyword "com32" .pcKernel .vkCom32,
    keyword "config" .pcKernel .vkConfig,
    keyword "label" .pcLabel (.num 0),
    keyword "prompt" .pcSetint16 .forcePrompt,
    keyword "say" .pcSay (.num 0),
    keyword "serial" .pcSerial (.num 0),
    keyword "console" .pcSetint16 .displayCon,
    keyword "timeout" .pcTimeout .kbdTimeout,
    keyword "totaltimeout" .pcTimeout .totalTimeout,
    keyword "ontimeout" .pcOntimeout (.num 0),
    keyword "onerror" .pcOnerror (.num 0),
    keyword "allowoptions" .pcSetint16 .allowOptions,
    keyword "noescape" .pcSetint16 .noEscape,
    keyword "nocomplete" .pcSetint16 .noComplete,
    keyword "nohalt" .pcSetint16 .noHalt,
    keyword "pxeretry" .pcSetint16 .pxeRetry,
    keyword "f1" .pcFilename (.fKey 1),
    keyword "f2" .pcFilename (.fKey 2),
    keyword "f3" .pcFilename (.fKey 3),
    keyword "f4" .pcFilename (.fKey 4),
    keyword "f5" .pcFilename (.fKey 5),
    keyword "f6" .pcFilename (.fKey 6),
    keyword "f7" .pcFilename (.fKey 7),
    keyword "f8" .pcFilename (.fKey 8),
    keyword "f9" .pcFilename (.fKey 9),
    keyword "f10" .pcFilename (.fKey 10),
    keyword "f0" .pcFilename (.fKey 10),
    keyword "f11" .pcFilename (.fKey 11),
    keyword "f12" .pcFilename (.fKey 12),
    keyword "localboot" .pcLocalboot (.num 0)]

/-- `rol h, 5`. -/
def rol5 (h : UInt32) : UInt32 := (h <<< 5) ||| (h >>> 27)

/-- The build-time hash of a keyword. -/
def genhash (name : List UInt8) : UInt32 :=
  name.foldl (fun h c => rol5 h ^^^ (c ||| 0x20).toUInt32) 0

/-- `.table_search`. -/
def tableSearch (ebx : UInt32) : Option Keyword := keywdTable.find? fun k => genhash k.name == ebx

/-! ## Reading a command -/

/-- How `skipspace` returns: at the end of the file, at the end of the line, or with a
character. -/
inductive Skipped
  | eof
  | eoln (rest : List UInt8)
  | char (al : UInt8) (rest : List UInt8)

/-- `skipspace`; the input is what `getc` still yields. -/
def skipspace : List UInt8 → Skipped
  | [] => .eof
  | al :: rest =>
    if al = 0x1a then .eof
    else if al = 0x0a then .eoln rest
    else if al ≤ 0x20 then skipspace rest
    else .char al rest

/-- `skipline`, entered with a character at hand. -/
def skipline (al : UInt8) : List UInt8 → List UInt8
  | [] => []
  | c :: rest => if al = 10 then c :: rest else skipline c rest

/-- `trackbufsize`. -/
def trackbufSize : Nat := 8192

/-- How `.read_loop` ends. -/
inductive WordRead
  | eof
  /-- The word in `trackbuf`, its hash, and the input from the character that ended it, which is
  pushed back. -/
  | word (trackbuf : List UInt8) (ebx : UInt32) (rest : List UInt8)
  /-- A character, or the null behind the word, is stored behind `trackbuf`. Nothing prevents it,
  and what is overwritten decides what happens then. -/
  | overrun
  deriving DecidableEq, Repr

/-- `.read_loop`. Without a character that ends the word the file ends. -/
def readLoop (trackbuf : List UInt8) (ebx : UInt32) : List UInt8 → WordRead
  | [] => .eof
  | al :: rest =>
    if trackbufSize ≤ trackbuf.length then .overrun
    else if al ≤ 0x20 then .word trackbuf ebx (al :: rest)
    else readLoop (trackbuf ++ [al]) (rol5 ebx ^^^ (al ||| 0x20).toUInt32) rest

/-- The two complaints of `getcommand`, about the word in `trackbuf`. -/
inductive Report
  | badcfg (word : List UInt8)
  | noparm (word : List UInt8)
  deriving DecidableEq, Repr

/-- The text printed in front of the word. -/
def Report.message : Report → String
  | .badcfg _ => "Unknown keyword in configuration file: "
  | .noparm _ => "Missing parameter in configuration file. Keyword: "

inductive Outcome
  | running
  | eof
  /-- The handler that is called, and the input it starts with. -/
  | found (k : Keyword) (rest : List UInt8)
  /-- A word leaves `trackbuf`. -/
  | overrun
  deriving DecidableEq, Repr

/-- What a call of `getcommand` prints, and how it ends. -/
structure Parsed where
  reports : List Report
  outcome : Outcome
  deriving DecidableEq, Repr

def Parsed.report (r : Report) (p : Parsed) : Parsed := { p with reports := r :: p.reports }

/-- `getcommand`, over at most `fuel` lines. -/
def getcommand : Nat → List UInt8 → Parsed
  | 0, _ => ⟨[], .running⟩
  | fuel + 1, input =>
    match skipspace input with
    | .eof => ⟨[], .eof⟩
    | .eoln rest => getcommand fuel rest
    | .char al rest =>
      if al = 0x23 then getcommand fuel (skipline al rest)
      else match readLoop [al] (al ||| 0x20).toUInt32 rest with
        | .eof => ⟨[], .eof⟩
        | .overrun => ⟨[], .overrun⟩
        | .word word ebx rest =>
          match skipspace rest with
          | .eof => ⟨[], .eof⟩
          | .eoln rest => (getcommand fuel rest).report (.noparm word)
          | .char c rest =>
            match tableSearch ebx with
            | some k => ⟨[], .found k (c :: rest)⟩
            | none =>
              -- the table search left the argument 0 of the last entry in `al`
              (getcommand fuel (skipline 0 (c :: rest))).report (.badcfg word)

/-! ## Case folding -/

/-- The lower-case form of an ASCII letter; other characters stay. -/
def asciiLower (c : UInt8) : UInt8 := if 0x41 ≤ c ∧ c ≤ 0x5a then c + 0x20 else c

/-- Setting bit 5 does not see the case of a letter. -/
theorem or_asciiLower (c : UInt8) : asciiLower c ||| 0x20 = c ||| 0x20 := by
  have hall : ∀ n < 256, asciiLower (UInt8.ofNat n) ||| 0x20 = UInt8.ofNat n ||| 0x20 := by
    decide +kernel
  simpa using hall c.toNat c.toNat_lt

/-- Equality of words up to ASCII case. -/
def SameWord (v w : List UInt8) : Prop := v.map asciiLower = w.map asciiLower

instance (v w : List UInt8) : Decidable (SameWord v w) := inferInstanceAs (Decidable (_ = _))

theorem genhash_map_asciiLower (w : List UInt8) : genhash (w.map asciiLower) = genhash w := by
  rw [genhash, genhash, List.foldl_map]
  simp only [or_asciiLower]

/-- Words equal up to case have one hash. -/
theorem SameWord.genhash_eq {v w : List UInt8} (h : SameWord v w) : genhash v = genhash w := by
  rw [← genhash_map_asciiLower v, h, genhash_map_asciiLower]

/-- No two keywords share a hash. -/
theorem keywdTable_nodup : (keywdTable.map fun k => genhash k.name).Nodup := by
  decide +kernel

/-- The search finds a keyword exactly by its hash. -/
theorem tableSearch_eq_some_iff {k : Keyword} (hk : k ∈ keywdTable) (ebx : UInt32) :
    tableSearch ebx = some k ↔ genhash k.name = ebx := by
  constructor
  · intro h
    simpa using List.find?_some h
  · rintro rfl
    cases h : tableSearch (genhash k.name) with
    | none => exact absurd (List.find?_eq_none.mp h k hk) (by simp)
    | some k' =>
      have hk' : k' ∈ keywdTable := List.mem_of_find?_eq_some h
      have hh : genhash k'.name = genhash k.name := by simpa using List.find?_some h
      rw [List.inj_on_of_nodup_map keywdTable_nodup hk' hk hh]

/-! ## Lines -/

/-- A blank inside a line: no character of a word, no end of line and no end of file. -/
def IsBlank (c : UInt8) : Prop := c ≤ 0x20 ∧ c ≠ 0x0a ∧ c ≠ 0x1a

instance (c : UInt8) : Decidable (IsBlank c) := inferInstanceAs (Decidable (_ ∧ _ ∧ _))

/-- A line that gives a parameter to a word: indentation, the word, blanks, and the parameter
from its first character on, with everything behind it in the file. The word and a null fit in
`trackbuf`. -/
structure CommandLine where
  indent : List UInt8
  first : UInt8
  others : List UInt8
  blanks : List UInt8
  param : UInt8
  rest : List UInt8
  indent_blank : ∀ c ∈ indent, IsBlank c
  first_not_comment : first ≠ 0x23
  word_chars : ∀ c ∈ first :: others, 0x20 < c
  word_fits : (first :: others).length < trackbufSize
  blanks_blank : ∀ c ∈ blanks, IsBlank c
  blanks_ne_nil : blanks ≠ []
  param_char : 0x20 < param

/-- The word of a line. -/
def CommandLine.word (l : CommandLine) : List UInt8 := l.first :: l.others

/-- The text of a line. -/
def CommandLine.text (l : CommandLine) : List UInt8 :=
  l.indent ++ l.first :: l.others ++ l.blanks ++ l.param :: l.rest

theorem skipspace_blanks {blanks : List UInt8} (h : ∀ c ∈ blanks, IsBlank c) (rest : List UInt8) :
    skipspace (blanks ++ rest) = skipspace rest := by
  induction blanks with
  | nil => rfl
  | cons c blanks ih =>
    obtain ⟨hle, hlf, heof⟩ := h c List.mem_cons_self
    rw [List.cons_append, skipspace, if_neg heof, if_neg hlf, if_pos hle]
    exact ih fun d hd => h d (List.mem_cons_of_mem _ hd)

theorem skipspace_char {c : UInt8} (h : 0x20 < c) (rest : List UInt8) :
    skipspace (c :: rest) = .char c rest := by
  have hgt : ¬ c ≤ 0x20 := UInt8.not_le.mpr h
  have heof : c ≠ 0x1a := fun h => hgt (h ▸ by decide)
  have hlf : c ≠ 0x0a := fun h => hgt (h ▸ by decide)
  rw [skipspace, if_neg heof, if_neg hlf, if_neg hgt]

/-- The loop reads a word that fits in `trackbuf` up to the blank behind it and keeps its hash. -/
theorem readLoop_word {w : List UInt8} (hw : ∀ c ∈ w, 0x20 < c) {b : UInt8} (hb : b ≤ 0x20)
    (rest before : List UInt8) (hfits : (before ++ w).length < trackbufSize) :
    readLoop before (genhash before) (w ++ b :: rest) =
      .word (before ++ w) (genhash (before ++ w)) (b :: rest) := by
  induction w generalizing before with
  | nil =>
    rw [List.append_nil] at hfits ⊢
    rw [List.nil_append, readLoop, if_neg (Nat.not_le.mpr hfits), if_pos hb]
  | cons c w ih =>
    have hc : ¬ c ≤ 0x20 := UInt8.not_le.mpr (hw c List.mem_cons_self)
    have hroom : ¬ trackbufSize ≤ before.length := by
      rw [List.length_append] at hfits
      omega
    have hstep : rol5 (genhash before) ^^^ (c ||| 0x20).toUInt32 = genhash (before ++ [c]) := by
      rw [genhash, genhash, List.foldl_append]
      rfl
    rw [List.append_cons before] at hfits ⊢
    rw [List.cons_append, readLoop, if_neg hroom, if_neg hc, hstep,
      ih (fun d hd => hw d (List.mem_cons_of_mem _ hd)) _ hfits]

/-- One round of `getcommand` on a line that gives its word a parameter. -/
theorem getcommand_line (l : CommandLine) (fuel : Nat) :
    getcommand (fuel + 1) l.text =
      match tableSearch (genhash l.word) with
      | some k => ⟨[], .found k (l.param :: l.rest)⟩
      | none => (getcommand fuel (skipline 0 (l.param :: l.rest))).report (.badcfg l.word) := by
  obtain ⟨b, blanks, hbl⟩ := List.exists_cons_of_ne_nil l.blanks_ne_nil
  have hb : IsBlank b := l.blanks_blank b (hbl ▸ List.mem_cons_self)
  have htext : l.text =
      l.indent ++ (l.first :: (l.others ++ b :: (blanks ++ l.param :: l.rest))) := by
    simp only [CommandLine.text, hbl, List.append_assoc, List.cons_append]
  have hfirst : 0x20 < l.first := l.word_chars _ List.mem_cons_self
  have hhash : (l.first ||| 0x20).toUInt32 = genhash [l.first] := by
    rw [genhash, List.foldl_cons, List.foldl_nil, rol5]
    simp
  have hothers : ∀ c ∈ l.others, 0x20 < c := fun c hc => l.word_chars c (List.mem_cons_of_mem _ hc)
  have hskip : skipspace (b :: (blanks ++ l.param :: l.rest)) = .char l.param l.rest := by
    rw [← List.cons_append, ← hbl, skipspace_blanks l.blanks_blank, skipspace_char l.param_char]
  rw [getcommand, htext, skipspace_blanks l.indent_blank, skipspace_char hfirst]
  simp only [if_neg l.first_not_comment, hhash,
    readLoop_word hothers hb.1 _ [l.first] l.word_fits, hskip]
  rfl

/-- The handler of `k` runs on a line. -/
def Dispatches (l : CommandLine) (k : Keyword) : Prop :=
  ∀ fuel, getcommand (fuel + 1) l.text = ⟨[], .found k (l.param :: l.rest)⟩

/-- The word of a line is reported as unknown, and the rest of the line is skipped. -/
def Unknown (l : CommandLine) : Prop :=
  ∀ fuel, getcommand (fuel + 1) l.text =
    (getcommand fuel (skipline 0 (l.param :: l.rest))).report (.badcfg l.word)

/-- What the keyword table promises: the handler of a keyword runs for its spellings only, and
every other word is unknown. -/
def DispatchesByName : Prop :=
  ∀ l : CommandLine, (∀ k ∈ keywdTable, Dispatches l k ↔ SameWord l.word k.name) ∧
    ((∀ k ∈ keywdTable, ¬ SameWord l.word k.name) → Unknown l)

/-- On a line that gives a word that fits in `trackbuf` a parameter, the handler of a keyword runs
exactly when the word has the keyword's hash. That covers every spelling of the keyword, and a
word with the hash of no keyword is reported as unknown. -/
theorem getcommand_dispatches_by_hash (l : CommandLine) :
    (∀ k ∈ keywdTable, Dispatches l k ↔ genhash l.word = genhash k.name) ∧
      (∀ k ∈ keywdTable, SameWord l.word k.name → Dispatches l k) ∧
      ((∀ k ∈ keywdTable, genhash l.word ≠ genhash k.name) → Unknown l) := by
  have hiff : ∀ k ∈ keywdTable, Dispatches l k ↔ genhash l.word = genhash k.name := by
    intro k hk
    rw [eq_comm, ← tableSearch_eq_some_iff hk]
    constructor
    · intro h
      have h0 := (getcommand_line l 0).symm.trans (h 0)
      cases hs : tableSearch (genhash l.word) with
      | none =>
        rw [hs] at h0
        exact absurd (congrArg Parsed.reports h0) (List.cons_ne_nil _ _)
      | some k' =>
        rw [hs] at h0
        injection congrArg Parsed.outcome h0 with hk'
        rw [hk']
    · intro h fuel
      rw [getcommand_line, h]
  refine ⟨hiff, fun k hk hw => (hiff k hk).mpr hw.genhash_eq, fun h fuel => ?_⟩
  have hs : tableSearch (genhash l.word) = none := by
    refine List.find?_eq_none.mpr fun k hk => ?_
    simpa using (h k hk).symm
  rw [getcommand_line, hs]

/-- `dq x`: a word that is no keyword, with a parameter. -/
def dqLine : CommandLine :=
  ⟨[], 0x64, [0x71], [0x20], 0x78, [], List.forall_mem_nil _, by decide,
    List.forall_mem_cons.mpr ⟨by decide, List.forall_mem_singleton.mpr (by decide)⟩, by decide,
    List.forall_mem_singleton.mpr (by decide), List.cons_ne_nil _ _, by decide⟩

/-- The word `dq` has the hash of `f1` and runs its handler. -/
theorem not_dispatchesByName : ¬ DispatchesByName := by
  intro h
  have hf1 : keyword "f1" .pcFilename (.fKey 1) ∈ keywdTable := by decide +kernel
  have hrun : Dispatches dqLine (keyword "f1" .pcFilename (.fKey 1)) := by
    intro fuel
    have hs : tableSearch (genhash dqLine.word) = some (keyword "f1" .pcFilename (.fKey 1)) := by
      decide +kernel
    rw [getcommand_line, hs]
  exact absurd (((h dqLine).1 _ hf1).mp hrun) (by decide +kernel)

end Liigboot.Config
