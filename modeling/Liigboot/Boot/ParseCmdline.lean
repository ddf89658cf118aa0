import Liigboot.Boot.ParseInt
import Mathlib.Algebra.Group.Nat.Defs

/-!
# The options of the kernel's command line

`parse_cmdline` goes over the command line and compares each word with a list of options. The
handler of an option reads its value and may leave the place anywhere in the word; what is left of
the word is skipped. A number that has no digits is the exception: with it goes the byte that ends
the word.
-/

namespace Liigboot.Boot

/-! ## The source -/

/-- `cmd_line_here`. -/
def cmdLineHere : Nat := 0xF800

/-- The handlers. -/
inductive Opt
  | vga
  | mem
  | quiet
  | initrd
  deriving DecidableEq, Repr

/-- `cmd_opt`. -/
def cmdOpt (text : String) (opt : Opt) : List UInt8 × Opt := (text.toUTF8.data.toList, opt)

/-- `options_list`. -/
def optionsList : List (List UInt8 × Opt) :=
  [cmdOpt "vga=" .vga, cmdOpt "mem=" .mem, cmdOpt "quiet" .quiet, cmdOpt "initrd=" .initrd]

/-- What the options set: `bs_vidmode`, `MyHighMemSize`, `QuietBoot` and `InitRDPtr`. -/
structure CmdlineVars where
  vidMode : UInt16
  myHighMemSize : UInt32
  quietBoot : UInt8
  initRDPtr : UInt16
  deriving DecidableEq, Repr

/-- `repe cmpsb`, with the text of an option. -/
def cmpsb : List UInt8 → List UInt8 → Option (Bool × List UInt8)
  | [], raw => some (true, raw)
  | _ :: _, [] => none
  | c :: text, b :: raw => if c = b then cmpsb text raw else some (false, raw)

/-- `.next_opt`: the option at the start of some memory, and the memory behind its text. -/
def nextOpt : List (List UInt8 × Opt) → List UInt8 → Option (Option (Opt × List UInt8))
  | [], _ => some none
  | (text, opt) :: list, raw =>
    match cmpsb text raw with
    | none => none
    | some (false, _) => nextOpt list raw
    | some (true, rest) =>
      -- This either needs to have been an option with parameter, or be followed by EOL/whitespace
      match rest with
      | [] => none
      | ah :: _ =>
        if text.getLast? = some 0x3D then some (some (opt, rest))
        else if 0x20 < ah then nextOpt list raw
        else some (some (opt, rest))

/-- `opt_vga`, behind the equals sign. -/
def optVga (v : CmdlineVars) : List UInt8 → Option (CmdlineVars × List UInt8)
  | [] => none
  | c :: raw =>
    if c = 0x6E then some ({ v with vidMode := 0xFFFF }, c :: raw) -- vga=normal
    else if c = 0x65 then some ({ v with vidMode := 0xFFFE }, c :: raw) -- vga=ext
    else if c = 0x61 then some ({ v with vidMode := 0xFFFD }, c :: raw) -- vga=ask
    else if c = 0x63 then some ({ v with vidMode := 0x0F04 }, c :: raw) -- vga=current
    else (parseint false (c :: raw)).map fun
      | (none, raw) => (v, raw)
      | (some ebx, raw) => ({ v with vidMode := ebx.toUInt16 }, raw)

/-- `opt_mem`. -/
def optMem (v : CmdlineVars) (raw : List UInt8) : Option (CmdlineVars × List UInt8) :=
  (parseint false raw).map fun
    | (none, raw) => (v, raw)
    | (some ebx, raw) => ({ v with myHighMemSize := ebx }, raw)

/-- `opt_quiet`. -/
def optQuiet (v : CmdlineVars) (raw : List UInt8) : Option (CmdlineVars × List UInt8) :=
  some ({ v with quietBoot := 0x20 }, raw)

/-- `opt_initrd`. -/
def optInitrd (di : UInt16) (v : CmdlineVars) : List UInt8 → Option (CmdlineVars × List UInt8)
  | [] => none
  | c :: raw => some ({ v with initRDPtr := if 0x20 < c then di else 0 }, c :: raw)

/-- The handler of an option. -/
def runOpt (di : UInt16) (v : CmdlineVars) (raw : List UInt8) :
    Opt → Option (CmdlineVars × List UInt8)
  | .vga => optVga v raw
  | .mem => optMem v raw
  | .quiet => optQuiet v raw
  | .initrd => optInitrd di v raw

/-- The address of a place in a segment that has some bytes from the command line on. -/
def diAt (total : Nat) (raw : List UInt8) : UInt16 :=
  UInt16.ofNat (cmdLineHere + (total - raw.length))

/-- The beginning of an option: what it is, and what its handler leaves. -/
def takeOption (total : Nat) (v : CmdlineVars) (raw : List UInt8) :
    Option (Option Opt × CmdlineVars × List UInt8) :=
  match nextOpt optionsList raw with
  | none => none
  | some none => some (none, v, raw)
  | some (some (opt, rest)) =>
    (runOpt (diAt total rest) v rest opt).map fun (v, rest) => (some opt, v, rest)

/-- The places that are compared with the list, from the start of the command line, and the
options found there; the variables; and the memory behind the byte that ends the loop. -/
structure Parsed where
  matched : List (Nat × Option Opt)
  vars : CmdlineVars
  rest : List UInt8
  deriving DecidableEq, Repr

/-- The loop, at `.skipspace` or in an option at `.skip_opt`. -/
def cmdlineLoop (total : Nat) : Nat → Bool → List UInt8 → CmdlineVars → Option Parsed
  | 0, _, _, _ => none
  | _ + 1, _, [], _ => none
  | rounds + 1, inOption, al :: raw, v =>
    if 0x20 < al then
      if inOption then cmdlineLoop total rounds true raw v
      else
        (takeOption total v (al :: raw)).bind fun (opt, v, rest) =>
          (cmdlineLoop total rounds true rest v).map fun r =>
            { r with matched := (total - (al :: raw).length, opt) :: r.matched }
    else if al = 0 then some ⟨[], v, raw⟩
    else cmdlineLoop total rounds false raw v

/-- `parse_cmdline` on the memory from `cmd_line_here` on. There is no result when it reads a byte
that is not there. -/
def parseCmdline (raw : List UInt8) (v : CmdlineVars) : Option Parsed :=
  cmdlineLoop raw.length (2 * raw.length + 1) false raw v

/-- `CmdLineLen`. -/
def cmdLineLen (raw : List UInt8) (r : Parsed) : UInt16 :=
  diAt raw.length r.rest - UInt16.ofNat cmdLineHere

/-! ## Words -/

/-- What begins at the words of a text, the first of which may have begun in front of it. -/
def wordStarts : Bool → List UInt8 → List (List UInt8)
  | _, [] => []
  | inWord, c :: text =>
    if 0x20 < c then
      if inWord then wordStarts true text else (c :: text) :: wordStarts true text
    else wordStarts false text

/-- The first word. -/
def firstWord (text : List UInt8) : List UInt8 := text.takeWhile fun c => 0x20 < c

/-- A word is an option: all of it, or its front when a value follows. -/
def Takes (text word : List UInt8) : Prop :=
  if text.getLast? = some 0x3D then text <+: word else text = word

instance (text word : List UInt8) : Decidable (Takes text word) :=
  inferInstanceAs (Decidable (if text.getLast? = some 0x3D then text <+: word else text = word))

/-- The option that a word is. -/
def optionOf (word : List UInt8) : Option Opt :=
  (optionsList.find? fun o => Takes o.1 word).map Prod.snd

/-- What is promised of a command line, whatever lies behind it, be it nothing at all. -/
def CmdlineRight (text : List UInt8) : Prop :=
  ∀ behind v, ∃ r, parseCmdline (text ++ 0 :: behind) v = some r ∧
    (cmdLineLen (text ++ 0 :: behind) r).toNat = text.length + 1 ∧
    r.matched = (wordStarts false text).map fun s =>
      (text.length - s.length, optionOf (firstWord s))

/-- An option with a number that has no digits. -/
def Bare (word : List UInt8) : Prop :=
  ∃ minus, (∀ c ∈ minus, c = 0x2D) ∧
    (word = "vga=".toUTF8.data.toList ++ minus ∨ word = "mem=".toUTF8.data.toList ++ minus)

/-- Behind a word comes a byte that separates it, and not directly the next word. -/
def SetApart (after : List UInt8) : Prop :=
  ∃ sep rest, after = sep :: rest ∧ ∀ c ∈ rest.head?, c ≤ 0x20

/-- A word whose number is missing is set apart from the next one. -/
def Fine (s : List UInt8) : Prop :=
  Bare (firstWord s) → SetApart (s.drop (firstWord s).length)

/-! ## One word -/

variable {word tail text raw rest : List UInt8} {e : UInt8} {opt : Opt} {v : CmdlineVars}
  {total : Nat}

/-- A comparison with a word ends in front of the byte that ends the word. -/
theorem cmpsb_word (htext : ∀ c ∈ text, 0x20 < c) (he : e ≤ 0x20) :
    (text <+: word ∧ cmpsb text (word ++ e :: tail) =
      some (true, word.drop text.length ++ e :: tail)) ∨
    ¬text <+: word ∧ ∃ rest, cmpsb text (word ++ e :: tail) = some (false, rest) := by
  induction text generalizing word with
  | nil => exact Or.inl ⟨List.nil_prefix, rfl⟩
  | cons c text ih =>
    obtain ⟨hc, htext⟩ := List.forall_mem_cons.mp htext
    cases word with
    | nil =>
      refine Or.inr ⟨fun h => absurd (List.prefix_nil.mp h) (List.cons_ne_nil _ _), tail, ?_⟩
      rw [List.nil_append, cmpsb, if_neg (by grind)]
    | cons b word =>
      rw [List.cons_append, cmpsb, List.cons_prefix_cons, List.length_cons, List.drop_succ_cons]
      by_cases heq : c = b
      · rw [if_pos heq, and_iff_right heq]
        exact ih htext
      · rw [if_neg heq]
        exact Or.inr ⟨fun h => heq h.1, _, rfl⟩

/-- The option that is found at a word is the first one that the word is. -/
theorem nextOpt_word (hword : ∀ c ∈ word, 0x20 < c) (he : e ≤ 0x20)
    (list : List (List UInt8 × Opt)) (hlist : ∀ o ∈ list, ∀ c ∈ o.1, 0x20 < c) :
    nextOpt list (word ++ e :: tail) = some ((list.find? fun o => Takes o.1 word).map
      fun o => (o.2, word.drop o.1.length ++ e :: tail)) := by
  induction list with
  | nil => rfl
  | cons o list ih =>
    obtain ⟨text, opt⟩ := o
    obtain ⟨htext, hlist⟩ := List.forall_mem_cons.mp hlist
    have hfound : Takes text word → ((text, opt) :: list).find? (fun o => Takes o.1 word) =
        some (text, opt) := fun h => List.find?_cons_of_pos (by simpa using h)
    have hother : ¬Takes text word → ((text, opt) :: list).find? (fun o => Takes o.1 word) =
        list.find? fun o => Takes o.1 word := fun h => List.find?_cons_of_neg (by simpa using h)
    rw [nextOpt]
    rcases @cmpsb_word word tail text e htext he with ⟨hpre, hcmp⟩ | ⟨hpre, rest, hcmp⟩
    · obtain ⟨value, rfl⟩ := hpre
      rw [List.drop_left] at hcmp
      rw [hcmp]
      dsimp only
      obtain ⟨ah, behind, hbehind⟩ : ∃ ah behind, value ++ e :: tail = ah :: behind :=
        List.exists_cons_of_ne_nil (List.append_ne_nil_of_right_ne_nil _ (List.cons_ne_nil _ _))
      rw [hbehind]
      dsimp only
      by_cases hparam : text.getLast? = some 0x3D
      · have htakes : Takes text (text ++ value) := by
          rw [Takes, if_pos hparam]
          exact List.prefix_append text value
        rw [if_pos hparam, hfound htakes, Option.map_some, List.drop_left, hbehind]
      · rw [if_neg hparam]
        by_cases hmore : 0x20 < ah
        · have htakes : ¬Takes text (text ++ value) := by
            rw [Takes, if_neg hparam]
            intro heq
            obtain rfl : value = [] := List.append_right_eq_self.mp heq.symm
            obtain rfl := (List.cons.inj hbehind).1
            grind
          rw [if_pos hmore, hother htakes, ih hlist]
        · have hvalue : value = [] := by
            cases value with
            | nil => rfl
            | cons c value =>
              obtain rfl : c = ah := (List.cons.inj hbehind).1
              exact absurd (hword c (by simp)) hmore
          have htakes : Takes text (text ++ value) := by
            rw [Takes, if_neg hparam, hvalue, List.append_nil]
          rw [if_neg hmore, hfound htakes, Option.map_some, List.drop_left, hbehind]
    · have htakes : ¬Takes text word := by
        rw [Takes]
        split_ifs
        · exact hpre
        · exact fun heq => hpre (heq ▸ List.prefix_rfl)
      rw [hcmp, hother htakes]
      exact ih hlist

/-- What a handler leaves of the value of its option: an end of it, or nothing when a number is
missing. -/
def LeavesValue (number : Prop) (value : List UInt8) (e : UInt8) (tail rest : List UInt8) : Prop :=
  number ∧ (∀ c ∈ value, c = 0x2D) ∧ rest = tail ∨
    ¬(number ∧ ∀ c ∈ value, c = 0x2D) ∧ LeavesWord value e tail rest

variable {value : List UInt8}

theorem leavesWord_self : LeavesWord value e tail (value ++ e :: tail) :=
  ⟨value, List.suffix_rfl, rfl⟩

/-- `mem=` reads no further than its own word. -/
theorem optMem_word (he : e ≤ 0x20) (v : CmdlineVars) (value : List UInt8) :
    ∃ v' rest, optMem v (value ++ e :: tail) = some (v', rest) ∧
      LeavesValue True value e tail rest := by
  obtain ⟨ebx, rest, hparse, hcase⟩ := @parseint_word tail e he false value
  rw [optMem, hparse]
  have hleaves : LeavesValue True value e tail rest := by
    rcases hcase with ⟨hall, -, rfl⟩ | ⟨hnot, hleaves⟩
    · exact Or.inl ⟨trivial, hall, rfl⟩
    · exact Or.inr ⟨fun h => hnot h.2, hleaves⟩
  cases ebx with
  | none => exact ⟨v, rest, rfl, hleaves⟩
  | some ebx => exact ⟨_, rest, rfl, hleaves⟩

/-- `vga=` reads no further than its own word. -/
theorem optVga_word (he : e ≤ 0x20) (v : CmdlineVars) (value : List UInt8) :
    ∃ v' rest, optVga v (value ++ e :: tail) = some (v', rest) ∧
      LeavesValue True value e tail rest := by
  obtain ⟨c, raw, hraw⟩ : ∃ c raw, value ++ e :: tail = c :: raw :=
    List.exists_cons_of_ne_nil (List.append_ne_nil_of_right_ne_nil _ (List.cons_ne_nil _ _))
  by_cases hletter : c = 0x6E ∨ c = 0x65 ∨ c = 0x61 ∨ c = 0x63
  · -- the rest of the word is left
    have hleaves : LeavesValue True value e tail (c :: raw) := by
      refine Or.inr ⟨fun h => ?_, hraw ▸ leavesWord_self⟩
      cases value with
      | nil =>
        obtain rfl := (List.cons.inj hraw).1
        grind
      | cons b value =>
        obtain rfl := (List.cons.inj hraw).1
        have hb := h.2 b List.mem_cons_self
        rw [hb] at hletter
        exact absurd hletter (by decide)
    rw [hraw, optVga]
    split_ifs
    · exact ⟨_, _, rfl, hleaves⟩
    · exact ⟨_, _, rfl, hleaves⟩
    · exact ⟨_, _, rfl, hleaves⟩
    · exact ⟨_, _, rfl, hleaves⟩
    · grind
  · obtain ⟨ebx, rest, hparse, hcase⟩ := @parseint_word tail e he false value
    have hleaves : LeavesValue True value e tail rest := by
      rcases hcase with ⟨hall, -, rfl⟩ | ⟨hnot, hleaves⟩
      · exact Or.inl ⟨trivial, hall, rfl⟩
      · exact Or.inr ⟨fun h => hnot h.2, hleaves⟩
    rw [hraw] at hparse ⊢
    rw [optVga, if_neg (by tauto), if_neg (by tauto), if_neg (by tauto), if_neg (by tauto), hparse]
    cases ebx with
    | none => exact ⟨v, rest, rfl, hleaves⟩
    | some ebx => exact ⟨_, rest, rfl, hleaves⟩

/-- An option reads a number. -/
def Opt.number (opt : Opt) : Prop := opt = .vga ∨ opt = .mem

/-- No option reads further than its own word. -/
theorem runOpt_word (he : e ≤ 0x20) (di : UInt16) (v : CmdlineVars) (value : List UInt8)
    (opt : Opt) : ∃ v' rest, runOpt di v (value ++ e :: tail) opt = some (v', rest) ∧
      LeavesValue opt.number value e tail rest := by
  cases opt with
  | vga =>
    have hnumber : Opt.vga.number = True := eq_true (Or.inl rfl)
    rw [hnumber]
    exact optVga_word he v value
  | mem =>
    have hnumber : Opt.mem.number = True := eq_true (Or.inr rfl)
    rw [hnumber]
    exact optMem_word he v value
  | quiet => exact ⟨_, _, rfl, Or.inr ⟨fun h => h.1.elim nofun nofun, leavesWord_self⟩⟩
  | initrd =>
    obtain ⟨c, raw, hraw⟩ : ∃ c raw, value ++ e :: tail = c :: raw :=
      List.exists_cons_of_ne_nil (List.append_ne_nil_of_right_ne_nil _ (List.cons_ne_nil _ _))
    have hleaves : LeavesValue Opt.initrd.number value e tail (c :: raw) :=
      Or.inr ⟨fun h => h.1.elim nofun nofun, hraw ▸ leavesWord_self⟩
    rw [hraw]
    exact ⟨_, _, rfl, hleaves⟩

/-! ## The options at their words -/

/-- The bytes of the texts. -/
theorem option_texts : "vga=".toUTF8.data.toList = [0x76, 0x67, 0x61, 0x3D] ∧
    "mem=".toUTF8.data.toList = [0x6D, 0x65, 0x6D, 0x3D] ∧
    "quiet".toUTF8.data.toList = [0x71, 0x75, 0x69, 0x65, 0x74] ∧
    "initrd=".toUTF8.data.toList = [0x69, 0x6E, 0x69, 0x74, 0x72, 0x64, 0x3D] := by
  decide +kernel

/-- The letters of `vga=`. -/
theorem vga_text : "vga=".toUTF8.data.toList = [0x76, 0x67, 0x61, 0x3D] := option_texts.1

/-- The letters of `mem=`. -/
theorem mem_text : "mem=".toUTF8.data.toList = [0x6D, 0x65, 0x6D, 0x3D] := option_texts.2.1

/-- The table of options in bytes. -/
theorem optionsList_eq : optionsList =
    [([0x76, 0x67, 0x61, 0x3D], .vga), ([0x6D, 0x65, 0x6D, 0x3D], .mem),
      ([0x71, 0x75, 0x69, 0x65, 0x74], .quiet),
      ([0x69, 0x6E, 0x69, 0x74, 0x72, 0x64, 0x3D], .initrd)] := by
  obtain ⟨hvga, hmem, hquiet, hinitrd⟩ := option_texts
  rw [optionsList, cmdOpt, cmdOpt, cmdOpt, cmdOpt, hvga, hmem, hquiet, hinitrd]

/-- The texts are words. -/
theorem optionsList_word : ∀ o ∈ optionsList, ∀ c ∈ o.1, 0x20 < c := by
  rw [optionsList_eq]
  decide +kernel

/-- Which words are options without a number. -/
theorem bare_iff (hmem : (text, opt) ∈ optionsList) (value : List UInt8) :
    Bare (text ++ value) ↔ opt.number ∧ ∀ c ∈ value, c = 0x2D := by
  rw [Bare, vga_text, mem_text]
  rw [optionsList_eq] at hmem
  simp only [List.mem_cons, List.not_mem_nil, or_false, Prod.mk.injEq] at hmem
  rcases hmem with ⟨rfl, rfl⟩ | ⟨rfl, rfl⟩ | ⟨rfl, rfl⟩ | ⟨rfl, rfl⟩
  · constructor
    · rintro ⟨minus, hminus, heq | heq⟩
      · exact ⟨Or.inl rfl, (List.append_cancel_left heq).symm ▸ hminus⟩
      · exact absurd (List.cons.inj heq).1 (by decide)
    · exact fun h => ⟨value, h.2, Or.inl rfl⟩
  · constructor
    · rintro ⟨minus, hminus, heq | heq⟩
      · exact absurd (List.cons.inj heq).1 (by decide)
      · exact ⟨Or.inr rfl, (List.append_cancel_left heq).symm ▸ hminus⟩
    · exact fun h => ⟨value, h.2, Or.inr rfl⟩
  · refine ⟨?_, fun h => h.1.elim nofun nofun⟩
    rintro ⟨minus, -, heq | heq⟩
    · exact absurd (List.cons.inj heq).1 (by decide)
    · exact absurd (List.cons.inj heq).1 (by decide)
  · refine ⟨?_, fun h => h.1.elim nofun nofun⟩
    rintro ⟨minus, -, heq | heq⟩
    · exact absurd (List.cons.inj heq).1 (by decide)
    · exact absurd (List.cons.inj heq).1 (by decide)

/-- A word whose number is missing is an option. -/
theorem Bare.option (h : Bare word) : optionsList.find? (fun o => Takes o.1 word) ≠ none := by
  obtain ⟨minus, -, hcase⟩ := h
  rw [Ne, List.find?_eq_none]
  intro hnone
  rcases hcase with rfl | rfl
  · exact hnone (cmdOpt "vga=" .vga) List.mem_cons_self
      (decide_eq_true (by rw [Takes, if_pos (by decide +kernel)]; exact List.prefix_append _ _))
  · exact hnone (cmdOpt "mem=" .mem) (List.mem_cons_of_mem _ List.mem_cons_self)
      (decide_eq_true (by rw [Takes, if_pos (by decide +kernel)]; exact List.prefix_append _ _))

/-- At a word the right option is taken, and the rest of the word is left: without a number, the
word and the byte that ends it are gone. -/
theorem takeOption_word (hword : ∀ c ∈ word, 0x20 < c) (he : e ≤ 0x20) (total : Nat)
    (v : CmdlineVars) :
    ∃ v' rest, takeOption total v (word ++ e :: tail) = some (optionOf word, v', rest) ∧
      (Bare word ∧ rest = tail ∨ ¬Bare word ∧ LeavesWord word e tail rest) := by
  rw [takeOption, nextOpt_word hword he optionsList optionsList_word, optionOf]
  cases hfind : optionsList.find? fun o => Takes o.1 word with
  | none => exact ⟨v, _, rfl, Or.inr ⟨fun h => h.option hfind, leavesWord_self⟩⟩
  | some o =>
    obtain ⟨text, opt⟩ := o
    have htakes : Takes text word := by simpa using List.find?_some hfind
    obtain ⟨value, rfl⟩ : text <+: word := by
      rw [Takes] at htakes
      split_ifs at htakes
      · exact htakes
      · exact htakes ▸ List.prefix_rfl
    rw [Option.map_some]
    dsimp only
    rw [List.drop_left, bare_iff (List.mem_of_find?_eq_some hfind)]
    obtain ⟨v', rest, hrun, hleaves⟩ :=
      @runOpt_word tail e he (diAt total (value ++ e :: tail)) v value opt
    refine ⟨v', rest, by rw [hrun]; rfl, ?_⟩
    rcases hleaves with ⟨hnumber, hall, hrest⟩ | ⟨hnot, word', hsuffix, hrest⟩
    · exact Or.inl ⟨⟨hnumber, hall⟩, hrest⟩
    · exact Or.inr ⟨hnot, word', hsuffix.trans (List.suffix_append text value), hrest⟩

end Liigboot.Boot
