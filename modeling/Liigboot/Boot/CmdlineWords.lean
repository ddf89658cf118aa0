import Liigboot.Boot.ParseCmdline
import Mathlib.Data.List.TakeDrop
import Mathlib.Data.List.TakeWhile

/-!
# The words of the kernel's command line

Between two words the loop of `parse_cmdline` is where the text says it is. It leaves that way at a
word whose number is missing, when the next word follows directly or the line ends.
-/

namespace Liigboot.Boot

variable {word post text behind rest : List UInt8} {v : CmdlineVars} {total rounds : Nat}
  {inWord : Bool} {r : Parsed}

/-! ## Words and what is between them -/

/-- Behind a word. -/
def Ends (post : List UInt8) : Prop := ∀ c ∈ post.head?, c ≤ 0x20

/-- A word is ended by a blank. -/
theorem Ends.blank {c : UInt8} (h : Ends (c :: post)) : ¬0x20 < c := UInt8.not_lt.mpr (h c rfl)

/-- No word starts inside of a word. -/
theorem wordStarts_letter {c : UInt8} (hc : 0x20 < c) (text : List UInt8) :
    wordStarts true (c :: text) = wordStarts true text := by
  rw [wordStarts, if_pos hc, if_pos rfl]

/-- Behind a blank a word may start. -/
theorem wordStarts_blank {c : UInt8} (hc : ¬0x20 < c) (inWord : Bool) (text : List UInt8) :
    wordStarts inWord (c :: text) = wordStarts false text := by
  rw [wordStarts, if_neg hc]

/-- The rest of a word is passed. -/
theorem wordStarts_append (hword : ∀ c ∈ word, 0x20 < c) :
    wordStarts true (word ++ post) = wordStarts true post := by
  induction word with
  | nil => rfl
  | cons c word ih =>
    obtain ⟨hc, hword⟩ := List.forall_mem_cons.mp hword
    rw [List.cons_append, wordStarts_letter hc, ih hword]

/-- At the end of a word it does not matter that there was one. -/
theorem wordStarts_ends (h : Ends post) : wordStarts false post = wordStarts true post := by
  cases post with
  | nil => rfl
  | cons c post => rw [wordStarts_blank h.blank, wordStarts_blank h.blank]

/-- A word is followed by the others, whether or not the text behind it begins with one. -/
theorem wordStarts_missed {c : UInt8} (hc : 0x20 < c) (text : List UInt8) :
    wordStarts false (c :: text) = (c :: text) :: wordStarts true (c :: text) := by
  rw [wordStarts, if_pos hc, if_neg Bool.false_ne_true, wordStarts_letter hc]

/-- The first word ends at the first blank. -/
theorem firstWord_append (hword : ∀ c ∈ word, 0x20 < c) (hpost : Ends post) :
    firstWord (word ++ post) = word := by
  rw [firstWord, List.takeWhile_append_of_pos fun c hc => decide_eq_true (hword c hc)]
  cases post with
  | nil => rw [List.takeWhile_nil, List.append_nil]
  | cons c post =>
    have hc := hpost.blank
    rw [List.takeWhile_cons_of_neg (by simpa using hc), List.append_nil]

/-- A text that begins with a word. -/
theorem exists_word {c : UInt8} (hc : 0x20 < c) (text : List UInt8) :
    ∃ word post, c :: text = c :: word ++ post ∧ (∀ b ∈ c :: word, 0x20 < b) ∧ Ends post := by
  refine ⟨text.takeWhile fun c => 0x20 < c, text.dropWhile fun c => 0x20 < c, ?_, ?_, ?_⟩
  · rw [List.cons_append, List.takeWhile_append_dropWhile]
  · rw [List.forall_mem_cons]
    exact ⟨hc, fun b hb => by simpa using List.mem_takeWhile_imp hb⟩
  · intro b hb
    have hhead := List.head?_dropWhile_not (fun c : UInt8 => decide (0x20 < c)) text
    rw [Option.mem_def.mp hb] at hhead
    simpa using hhead

/-! ## The loop at a word -/

/-- Where the loop goes on behind the beginning of a word: in the word, at what is behind it and the
byte that separates it, or behind the end of the line. -/
inductive GoesOn (word post behind : List UInt8) : List UInt8 → Prop
  | inside {word' : List UInt8} (hbare : ¬Bare word) (hsuffix : word' <:+ word) :
      GoesOn word post behind (word' ++ post ++ 0 :: behind)
  | apart {sep : UInt8} {post' : List UInt8} (hbare : Bare word) (hpost : post = sep :: post') :
      GoesOn word post behind (post' ++ 0 :: behind)
  | beyond (hbare : Bare word) (hpost : post = []) : GoesOn word post behind behind

/-- The loop at the beginning of a word. -/
theorem cmdlineLoop_word {c : UInt8} (hc : 0x20 < c) (text behind : List UInt8) (total : Nat)
    (v : CmdlineVars) :
    ∃ word post v' rest, c :: text = word ++ post ∧ word ≠ [] ∧ (∀ b ∈ word, 0x20 < b) ∧
      Ends post ∧ GoesOn word post behind rest ∧
      ∀ rounds, cmdlineLoop total (rounds + 1) false (c :: text ++ 0 :: behind) v =
        (cmdlineLoop total rounds true rest v').map fun r =>
          { r with matched := (total - (c :: text ++ 0 :: behind).length, optionOf word) ::
            r.matched } := by
  obtain ⟨word, post, htext, hword, hpost⟩ := exists_word hc text
  have hloop : ∀ {v' rest}, takeOption total v (c :: text ++ 0 :: behind) =
      some (optionOf (c :: word), v', rest) → ∀ rounds,
      cmdlineLoop total (rounds + 1) false (c :: text ++ 0 :: behind) v =
        (cmdlineLoop total rounds true rest v').map fun r =>
          { r with matched := (total - (c :: text ++ 0 :: behind).length, optionOf (c :: word)) ::
            r.matched } := by
    intro v' rest htake rounds
    rw [List.cons_append] at htake ⊢
    rw [cmdlineLoop, if_pos hc, if_neg Bool.false_ne_true, htake, Option.bind_some]
  cases post with
  | nil =>
    obtain ⟨v', rest, htake, hcase⟩ :=
      @takeOption_word (c :: word) behind 0 hword (by decide) total v
    rw [List.append_nil] at htext
    have hraw : c :: word ++ 0 :: behind = c :: text ++ 0 :: behind := by rw [htext]
    rw [hraw] at htake
    refine ⟨c :: word, [], v', rest, by rw [htext, List.append_nil], List.cons_ne_nil _ _, hword,
      hpost, ?_, hloop htake⟩
    rcases hcase with ⟨hbare, rfl⟩ | ⟨hbare, word', hsuffix, rfl⟩
    · exact .beyond hbare rfl
    · have hinside := @GoesOn.inside (c :: word) [] behind word' hbare hsuffix
      rwa [List.append_nil] at hinside
  | cons sep post =>
    obtain ⟨v', rest, htake, hcase⟩ :=
      @takeOption_word (c :: word) (post ++ 0 :: behind) sep hword (hpost sep rfl) total v
    have hraw : c :: word ++ sep :: (post ++ 0 :: behind) = c :: text ++ 0 :: behind := by
      rw [htext, List.append_assoc (c :: word)]
      rfl
    rw [hraw] at htake
    refine ⟨c :: word, sep :: post, v', rest, htext, List.cons_ne_nil _ _, hword, hpost, ?_,
      hloop htake⟩
    rcases hcase with ⟨hbare, rfl⟩ | ⟨hbare, word', hsuffix, rfl⟩
    · exact .apart hbare rfl
    · have hinside := @GoesOn.inside (c :: word) (sep :: post) behind word' hbare hsuffix
      rwa [List.append_assoc, List.cons_append] at hinside

/-! ## Runs of the loop -/

/-- What is known of a text that begins with a word. -/
theorem fine_word {s : List UInt8} (heq : s = word ++ post) (hword : ∀ c ∈ word, 0x20 < c)
    (hpost : Ends post) :
    firstWord s = word ∧ wordStarts true s = wordStarts true post ∧
      (Fine s ↔ (Bare word → SetApart post)) := by
  have hfirst : firstWord s = word := by rw [heq, firstWord_append hword hpost]
  refine ⟨hfirst, by rw [heq, wordStarts_append hword], ?_⟩
  rw [Fine, hfirst, heq, List.drop_left]

/-- Where the loop goes on in a word, it finds the words behind it. -/
theorem wordStarts_inside {word' : List UInt8} (hsuffix : word' <:+ word)
    (hword : ∀ c ∈ word, 0x20 < c) : wordStarts true (word' ++ post) = wordStarts true post :=
  wordStarts_append fun b hb => hword b (hsuffix.subset hb)

/-- There is no NUL inside of the line. -/
theorem ne_zero_inside {word' : List UInt8} (hsuffix : word' <:+ word)
    (hmem : ∀ b ∈ word ++ post, b ≠ 0) : ∀ b ∈ word' ++ post, b ≠ 0 := by
  obtain ⟨front, rfl⟩ := hsuffix
  intro b hb
  rw [List.append_assoc] at hmem
  exact hmem b (List.mem_append_right _ hb)

/-- What is logged for some words. -/
def entries (total : Nat) (behind : List UInt8) (starts : List (List UInt8)) :
    List (Nat × Option Opt) :=
  starts.map fun s => (total - (s ++ 0 :: behind).length, optionOf (firstWord s))

/-- Where no number is missing in the wrong place, the loop finds each word once, and ends behind
the line. -/
theorem cmdlineLoop_fine (htext : ∀ c ∈ text, c ≠ 0)
    (hfine : ∀ s ∈ wordStarts inWord text, Fine s)
    (hrounds : 2 * text.length + (if inWord then 1 else 2) ≤ rounds) :
    ∃ v', cmdlineLoop total rounds inWord (text ++ 0 :: behind) v =
      some ⟨entries total behind (wordStarts inWord text), v', behind⟩ := by
  induction rounds generalizing text inWord v with
  | zero => split_ifs at hrounds <;> omega
  | succ rounds ih =>
    cases text with
    | nil => exact ⟨v, rfl⟩
    | cons c text =>
      obtain ⟨hc0, htext'⟩ := List.forall_mem_cons.mp htext
      rw [List.length_cons] at hrounds
      by_cases hc : 0x20 < c
      · cases inWord with
        | true =>
          rw [wordStarts_letter hc] at hfine ⊢
          rw [if_pos rfl] at hrounds
          rw [List.cons_append, cmdlineLoop, if_pos hc, if_pos rfl]
          exact ih htext' hfine (by rw [if_pos rfl]; omega)
        | false =>
          obtain ⟨word, post, v', rest, heq, hne, hword, hpost, hgoes, hloop⟩ :=
            cmdlineLoop_word hc text behind total v
          obtain ⟨hfirst, hstarts, hiff⟩ := fine_word heq hword hpost
          rw [wordStarts_missed hc, hstarts] at hfine ⊢
          obtain ⟨hfine, hlater⟩ := List.forall_mem_cons.mp hfine
          replace hfine := hiff.mp hfine
          have hlength : word.length + post.length = text.length + 1 := by
            rw [← List.length_append, ← heq, List.length_cons]
          have hpos : 0 < word.length := List.length_pos_of_ne_nil hne
          rw [if_neg Bool.false_ne_true] at hrounds
          have hmem : ∀ b ∈ word ++ post, b ≠ 0 := heq ▸ htext
          suffices hrun : ∃ v'', cmdlineLoop total rounds true rest v' =
              some ⟨entries total behind (wordStarts true post), v'', behind⟩ by
            obtain ⟨v'', hrun⟩ := hrun
            refine ⟨v'', ?_⟩
            rw [hloop, hrun, entries, entries, List.map_cons, hfirst]
            rfl
          cases hgoes with
          | @inside word' hbare hsuffix =>
            have hshort := hsuffix.length_le
            have hsame := @wordStarts_inside _ post _ hsuffix hword
            have hrun := @ih (word' ++ post) v' true (ne_zero_inside hsuffix hmem) (by rwa [hsame])
              (by rw [List.length_append, if_pos rfl]; omega)
            rwa [hsame] at hrun
          | @apart sep post' hbare hpost' =>
            subst hpost'
            obtain ⟨b, behind', hcons, hends⟩ := hfine hbare
            obtain ⟨rfl, rfl⟩ := List.cons.inj hcons
            have hsame : wordStarts true (sep :: post') = wordStarts true post' := by
              rw [wordStarts_blank hpost.blank, wordStarts_ends hends]
            rw [hsame] at hlater ⊢
            refine ih (fun b hb => hmem b ?_) hlater ?_
            · exact List.mem_append_right _ (List.mem_cons_of_mem _ hb)
            · rw [List.length_cons] at hlength
              rw [if_pos rfl]
              omega
          | beyond hbare hpost' =>
            obtain ⟨b, behind', hcons, -⟩ := hfine hbare
            rw [hpost'] at hcons
            exact absurd hcons.symm (List.cons_ne_nil b behind')
      · rw [wordStarts_blank hc] at hfine ⊢
        rw [List.cons_append, cmdlineLoop, if_neg hc, if_neg hc0]
        exact ih htext' hfine (by split_ifs at hrounds ⊢ <;> omega)

/-- The next word counts at most once more when it has not begun. -/
theorem length_wordStarts_false (text : List UInt8) :
    (wordStarts false text).length = (wordStarts true text).length ∧ Ends text ∨
      (wordStarts false text).length = (wordStarts true text).length + 1 := by
  cases text with
  | nil => exact Or.inl ⟨rfl, nofun⟩
  | cons c text =>
    by_cases hc : 0x20 < c
    · rw [wordStarts_missed hc, List.length_cons]
      exact Or.inr rfl
    · have hends : Ends (c :: text) := by
        intro b hb
        obtain rfl : c = b := by simpa using hb
        grind
      rw [wordStarts_ends hends]
      exact Or.inl ⟨rfl, hends⟩

/-- With nothing behind the line the loop finds each word at most once, and misses one where a
number is missing in the wrong place. -/
theorem cmdlineLoop_count (htext : ∀ c ∈ text, c ≠ 0)
    (h : cmdlineLoop total rounds inWord (text ++ [0]) v = some r) :
    r.matched.length ≤ (wordStarts inWord text).length ∧
      (r.matched.length = (wordStarts inWord text).length →
        ∀ s ∈ wordStarts inWord text, Fine s) := by
  induction rounds generalizing text inWord v r with
  | zero => exact nomatch h
  | succ rounds ih =>
    cases text with
    | nil =>
      refine ⟨?_, fun _ s hs => (nomatch hs)⟩
      obtain rfl : (⟨[], v, []⟩ : Parsed) = r := by simpa [cmdlineLoop] using h
      exact Nat.zero_le _
    | cons c text =>
      obtain ⟨hc0, htext'⟩ := List.forall_mem_cons.mp htext
      by_cases hc : 0x20 < c
      · cases inWord with
        | true =>
          rw [List.cons_append, cmdlineLoop, if_pos hc, if_pos rfl] at h
          rw [wordStarts_letter hc]
          exact ih htext' h
        | false =>
          obtain ⟨word, post, v', rest, heq, -, hword, hpost, hgoes, hloop⟩ :=
            cmdlineLoop_word hc text [] total v
          rw [hloop, Option.map_eq_some_iff] at h
          obtain ⟨r', hrun, rfl⟩ := h
          obtain ⟨-, hstarts, hfine⟩ := fine_word heq hword hpost
          have hmem : ∀ b ∈ word ++ post, b ≠ 0 := heq ▸ htext
          rw [wordStarts_missed hc, hstarts, List.length_cons, List.length_cons,
            List.forall_mem_cons, hfine]
          cases hgoes with
          | @inside word' hbare hsuffix =>
            obtain ⟨hle, hall⟩ := ih (ne_zero_inside hsuffix hmem) hrun
            rw [wordStarts_inside hsuffix hword] at hle hall
            exact ⟨Nat.succ_le_succ hle,
              fun heq => ⟨fun hb => absurd hb hbare, hall (Nat.succ_injective heq)⟩⟩
          | @apart sep post' hbare hpost' =>
            subst hpost'
            obtain ⟨hle, hall⟩ := ih
              (fun b hb => hmem b (List.mem_append_right _ (List.mem_cons_of_mem _ hb))) hrun
            rw [wordStarts_blank hpost.blank]
            rcases length_wordStarts_false post' with ⟨hlength, hends⟩ | hlength
            · refine ⟨by omega, fun heq => ⟨fun _ => ⟨sep, post', rfl, hends⟩, ?_⟩⟩
              rw [wordStarts_ends hends]
              exact hall (by omega)
            · exact ⟨by omega, fun heq => by omega⟩
          | beyond hbare hpost' =>
            cases rounds with
            | zero => exact nomatch hrun
            | succ rounds => exact nomatch hrun
      · rw [List.cons_append, cmdlineLoop, if_neg hc, if_neg hc0] at h
        rw [wordStarts_blank hc]
        exact ih htext' h

/-! ## The whole command line -/

/-- `parse_cmdline` goes over a command line to its end, and no further, and finds each of its words
once, exactly when each `vga=` and `mem=` that has at most minus signs for a number is followed by a
byte that separates it and then not directly by the next word. -/
theorem parse_cmdline_iff (htext : ∀ c ∈ text, c ≠ 0)
    (hfits : cmdLineHere + text.length + 1 ≤ 2 ^ 16) :
    CmdlineRight text ↔ ∀ s ∈ wordStarts false text, Fine s := by
  constructor
  · intro h
    obtain ⟨r, hparse, -, hmatched⟩ := h [] ⟨0, 0, 0, 0⟩
    refine (cmdlineLoop_count htext hparse).2 ?_
    rw [hmatched, List.length_map]
  · intro hfine behind v
    have hrounds : 2 * text.length + (if false then 1 else 2) ≤
        2 * (text ++ 0 :: behind).length + 1 := by
      rw [if_neg Bool.false_ne_true, List.length_append, List.length_cons]
      omega
    obtain ⟨v', hloop⟩ :=
      @cmdlineLoop_fine text behind v (text ++ 0 :: behind).length _ false htext hfine hrounds
    refine ⟨_, hloop, ?_, ?_⟩
    · have hread : (text ++ 0 :: behind).length - behind.length = text.length + 1 := by
        rw [List.length_append, List.length_cons]
        omega
      rw [cmdLineLen, diAt, hread, UInt16.ofNat_add, UInt16.add_comm, UInt16.add_sub_cancel]
      exact UInt16.toNat_ofNat_of_lt (by rw [cmdLineHere] at hfits; rw [UInt16.size]; omega)
    · refine List.map_congr_left fun s _ => ?_
      rw [List.length_append, List.length_append, List.length_cons, Nat.add_sub_add_right]

/-- A line with `mem=` and `initrd=`. -/
theorem parse_cmdline_iff_initrd :
    CmdlineRight "mem=16M initrd=i".toUTF8.data.toList ↔
      ∀ s ∈ wordStarts false "mem=16M initrd=i".toUTF8.data.toList, Fine s :=
  parse_cmdline_iff (by decide +kernel) (by decide +kernel)

/-- The end of the line goes with a number that is not there, and what is behind it is read. -/
theorem parse_cmdline_over : ¬CmdlineRight "quiet vga=".toUTF8.data.toList := by
  intro h
  obtain ⟨r, hparse, -⟩ := h [] ⟨0, 0, 0, 0⟩
  have hnone : parseCmdline ("quiet vga=".toUTF8.data.toList ++ [0]) ⟨0, 0, 0, 0⟩ = none := by
    decide +kernel
  rw [hnone] at hparse
  exact nomatch hparse

end Liigboot.Boot
