import Liigboot.Config.Getline
import Liigboot.Config.Store
import Liigboot.Lib.Loop
import Liigboot.Lib.StringOps

/-!
# The onerror command

When no kernel is found, `on_error` of `ui.inc` puts the onerror text in front of the command line
and starts again at `load_kernel`. That the text is put there only once is told by the command line
itself, which begins with it then. With `allowoptions 0`, `load_kernel` ends the command line at
the first option: if the onerror text has options of its own, it does not begin with it any more.
-/

namespace Liigboot.Boot

open Liigboot.Config

/-! ## The source -/

/-- The settings of a configuration: the arguments of `onerror` and `allowoptions`. -/
structure Settings where
  /-- What follows the keyword `onerror` on its line. -/
  onerrorLine : List UInt8
  allowOptions : UInt16
  fits : (normalForm onerrorLine).length ≤ maxCmdLen

/-- `Onerror`, of `OnerrorLen` bytes. -/
def Settings.onerror (cfg : Settings) : List UInt8 := normalForm cfg.onerrorLine

/-- `clin_non_wsp`: the first byte that is not above the blank. -/
def clinNonWsp (line : Nat → UInt8) : Nat → Nat → Option Nat
  | 0, _ => none
  | fuel + 1, si => if 0x20 < line si then clinNonWsp line fuel (si + 1) else some si

/-- `clin_is_wsp`, with the last byte that was loaded: the first option, or the final NUL. -/
def clinIsWsp (line : Nat → UInt8) : Nat → Nat → Option Nat
  | 0, _ => none
  | fuel + 1, si =>
    if line si = 0 then some si
    else if line (si + 1) ≤ 0x20 then clinIsWsp line fuel (si + 1)
    else some (si + 1)

/-- `load_kernel`, up to `clin_opt_ok`: the name of the kernel, and the command line. -/
def loadKernel (allowOptions : UInt16) (line : Nat → UInt8) :
    Option (List UInt8 × (Nat → UInt8)) := do
  let name ← clinNonWsp line (maxCmdLen + 2) 0
  let si ← clinIsWsp line (maxCmdLen + 2) name
  some ((List.range name).map line, if allowOptions = 0 then put line si 0 else line)

/-- `repe cmpsb` of a text and the command line: all bytes are the same. -/
def repeCmpsb (line : Nat → UInt8) : List UInt8 → Nat → Bool
  | [], _ => true
  | b :: bs, di => b = line di && repeCmpsb line bs (di + 1)

/-- `on_error`, behind the comparison. -/
def onError (onerror : List UInt8) (line : Nat → UInt8) : Nat → UInt8 :=
  let len := onerror.length
  let cx := maxCmdLen - len
  let di := maxCmdLen - 1
  let line := put line (di + 1) 0 -- Enforce null-termination
  let line := repMovsbDown line cx (di - len) di -- Make space in command_line
  repMovsbFrom line onerror 0

/-- Places of the source. -/
inductive Place
  | loadKernel
  | badKernel
  | onError
  | really
  | errorOrCommand
  deriving DecidableEq, Repr

/-- Where the loader is, with `command_line`, and how often the text was put in front of it and the
error was reported. -/
structure Ui where
  place : Place
  line : Nat → UInt8
  rewrites : Nat
  reports : Nat

/-- How the loop is left. -/
inductive UiExit
  | kernelGood
  | enterCommand
  deriving DecidableEq, Repr

variable (cfg : Settings) (found : List UInt8 → Bool)

/-- One step. `found` tells for which names there is a kernel, virtual or on disk. -/
def uiStep (s : Ui) : Step Ui UiExit :=
  match s.place with
  | .loadKernel =>
    match loadKernel cfg.allowOptions s.line with
    | none => .hang
    | some (name, line) =>
      if found name then .stop .kernelGood else .next { s with place := .badKernel, line := line }
  | .badKernel => .next { s with place := if cfg.onerror.length = 0 then .really else .onError }
  | .onError =>
    if repeCmpsb s.line cfg.onerror 0 then .next { s with place := .really }
    else
      .next { s with
        place := .loadKernel
        line := onError cfg.onerror s.line
        rewrites := s.rewrites + 1 }
  -- through `abort_load`
  | .really => .next { s with place := .errorOrCommand, reports := s.reports + 1 }
  | .errorOrCommand =>
    if cfg.onerror.length = 0 then .stop .enterCommand else .next { s with place := .onError }

/-! ## Command lines -/

/-- The buffer has a text and a NUL. -/
structure IsLine (line : Nat → UInt8) (text : List UInt8) : Prop where
  holds : Holds line 0 (text ++ [0])
  ne_zero : ∀ b ∈ text, b ≠ 0
  length_le : text.length ≤ maxCmdLen

/-- A byte of a word. -/
def inWord (c : UInt8) : Bool := 0x20 < c

/-- The first word, which is the name of the kernel. -/
def kernelWord (text : List UInt8) : List UInt8 := text.takeWhile inWord

/-- The first word and the blanks behind it. -/
def withoutOptions (text : List UInt8) : List UInt8 :=
  kernelWord text ++ (text.dropWhile inWord).takeWhile isBlank

/-- What `load_kernel` leaves of a command line. -/
def loadedLine (allowOptions : UInt16) (text : List UInt8) : List UInt8 :=
  if allowOptions = 0 then withoutOptions text else text

/-- The onerror text in front of a command line. -/
def rewritten (onerror text : List UInt8) : List UInt8 := (onerror ++ text).take maxCmdLen

variable {cfg : Settings} {found : List UInt8 → Bool} {line : Nat → UInt8} {text : List UInt8}

/-- The blanks are the characters up to the space. -/
theorem isBlank_iff {c : UInt8} : isBlank c = true ↔ c ≤ 0x20 := decide_eq_true_iff

/-- The characters of a word are those above the space. -/
theorem inWord_iff {c : UInt8} : inWord c = true ↔ 0x20 < c := decide_eq_true_iff

/-- A character is in a word if it is not blank. -/
theorem inWord_eq_not (c : UInt8) : inWord c = !isBlank c := by
  rw [Bool.eq_iff_iff, inWord_iff, Bool.not_eq_true', ← Bool.not_eq_true, isBlank_iff]
  exact UInt8.not_le.symm

/-- The scan of a word stops behind it. -/
theorem clinNonWsp_eq {fuel si : Nat} {rest : List UInt8} (h : Holds line si (rest ++ [0]))
    (hfuel : rest.length < fuel) :
    clinNonWsp line fuel si = some (si + (rest.takeWhile inWord).length) := by
  induction rest generalizing fuel si with
  | nil =>
    obtain ⟨fuel, rfl⟩ := Nat.exists_eq_add_one_of_ne_zero (Nat.ne_of_gt hfuel)
    rw [List.nil_append, holds_cons] at h
    rw [clinNonWsp, h.1, if_neg (by decide)]
    rfl
  | cons c rest ih =>
    obtain ⟨fuel, rfl⟩ := Nat.exists_eq_add_one_of_ne_zero (Nat.ne_of_gt (Nat.zero_lt_of_lt hfuel))
    rw [List.cons_append, holds_cons] at h
    rw [List.length_cons] at hfuel
    rw [clinNonWsp, h.1]
    by_cases hc : 0x20 < c
    · rw [if_pos hc, ih h.2 (by omega), List.takeWhile_cons_of_pos (inWord_iff.mpr hc),
        List.length_cons, Nat.add_assoc, Nat.add_comm 1]
    · rw [if_neg hc, List.takeWhile_cons_of_neg (mt inWord_iff.mp hc)]
      rfl

/-- The scan of blanks stops behind them. -/
theorem clinIsWsp_eq {fuel si : Nat} {rest : List UInt8} (h : Holds line si (rest ++ [0]))
    (hne : ∀ b ∈ rest, b ≠ 0) (hblank : ∀ c ∈ rest.head?, isBlank c = true)
    (hfuel : rest.length < fuel) :
    clinIsWsp line fuel si = some (si + (rest.takeWhile isBlank).length) := by
  induction rest generalizing fuel si with
  | nil =>
    obtain ⟨fuel, rfl⟩ := Nat.exists_eq_add_one_of_ne_zero (Nat.ne_of_gt hfuel)
    rw [List.nil_append, holds_cons] at h
    rw [clinIsWsp, if_pos h.1]
    rfl
  | cons c rest ih =>
    obtain ⟨fuel, rfl⟩ := Nat.exists_eq_add_one_of_ne_zero (Nat.ne_of_gt (Nat.zero_lt_of_lt hfuel))
    rw [List.cons_append, holds_cons] at h
    rw [List.length_cons] at hfuel
    rw [List.forall_mem_cons] at hne
    have hc : isBlank c = true := hblank c rfl
    have hnext : line (si + 1) = (rest ++ [0]).head (by simp) := by
      cases rest with
      | nil => exact (holds_cons.mp h.2).1
      | cons d rest => exact (holds_cons.mp h.2).1
    rw [clinIsWsp, h.1, if_neg hne.1, List.takeWhile_cons_of_pos hc, List.length_cons]
    by_cases hd : ∀ d ∈ rest.head?, isBlank d = true
    · have hle : line (si + 1) ≤ 0x20 := by
        rw [hnext]
        cases rest with
        | nil => exact UInt8.le_of_lt (by decide)
        | cons d rest => exact isBlank_iff.mp (hd d rfl)
      rw [if_pos hle, ih h.2 hne.2 hd (by omega), Nat.add_assoc, Nat.add_comm 1]
    · cases rest with
      | nil => exact absurd (fun d hd => nomatch hd) hd
      | cons d rest =>
        have hword : ¬isBlank d = true := fun hblank => hd fun e he => Option.some.inj he ▸ hblank
        have hgt : ¬line (si + 1) ≤ 0x20 := by
          rw [hnext]
          exact mt isBlank_iff.mpr hword
        rw [if_neg hgt, List.takeWhile_cons_of_neg hword]
        rfl

/-- A text is its first word and what follows. -/
theorem kernelWord_append (text : List UInt8) :
    kernelWord text ++ text.dropWhile inWord = text := List.takeWhile_append_dropWhile

/-- The command line without its options is a part of it. -/
theorem withoutOptions_front (text : List UInt8) :
    ∃ rest, withoutOptions text ++ rest = text := by
  refine ⟨(text.dropWhile inWord).dropWhile isBlank, ?_⟩
  rw [withoutOptions, List.append_assoc, List.takeWhile_append_dropWhile, kernelWord_append]

/-- `load_kernel` takes the first word, and without `allowoptions` nothing else is left. -/
theorem loadKernel_eq (allowOptions : UInt16) (h : IsLine line text) :
    ∃ line', loadKernel allowOptions line = some (kernelWord text, line') ∧
      IsLine line' (loadedLine allowOptions text) := by
  have hlen := h.length_le
  have hsplit := kernelWord_append text
  have hrest : Holds line (kernelWord text).length (text.dropWhile inWord ++ [0]) := by
    have hholds := h.holds
    rw [← hsplit, List.append_assoc, holds_append, Nat.zero_add] at hholds
    exact hholds.2
  have hname := clinNonWsp_eq h.holds (show text.length < maxCmdLen + 2 by omega)
  have hopt := clinIsWsp_eq hrest
    (fun b hb => h.ne_zero b ((List.dropWhile_sublist _).mem hb))
    (fun c hc => by
      have hhead := List.head?_dropWhile_not inWord text
      rw [hc] at hhead
      simpa [inWord_eq_not] using hhead)
    (show (text.dropWhile inWord).length < maxCmdLen + 2 from
      Nat.lt_of_le_of_lt (List.length_dropWhile_le _ _) (by omega))
  have hword : (List.range (kernelWord text).length).map line = kernelWord text := by
    have hholds := h.holds
    rw [← hsplit, List.append_assoc, holds_append] at hholds
    have hmap := hholds.1.map_range
    simp only [Nat.zero_add] at hmap
    exact hmap
  rw [Nat.zero_add] at hname
  change _ = some (kernelWord text).length at hname
  rw [← List.length_append, ← withoutOptions] at hopt
  refine ⟨if allowOptions = 0 then put line (withoutOptions text).length 0 else line, ?_, ?_⟩
  · rw [loadKernel, hname, Option.bind_eq_bind, Option.bind_some, hopt,
      Option.bind_some, hword]
  · rw [loadedLine]
    split_ifs with hallow
    · obtain ⟨rest, heq⟩ := withoutOptions_front text
      have hholds := h.holds
      rw [← heq, List.append_assoc, holds_append] at hholds
      refine ⟨holds_append.mpr ⟨hholds.1.congr fun c _ hc => put_of_ne _ (by omega), ?_⟩,
        fun b hb => h.ne_zero b (heq ▸ List.mem_append_left _ hb), ?_⟩
      · rw [holds_cons, Nat.zero_add, put_self]
        exact ⟨rfl, holds_nil _ _⟩
      · rw [← heq, List.length_append] at hlen
        omega
    · exact h

/-- The comparison tells whether the bytes are there. -/
theorem repeCmpsb_iff_holds {bs : List UInt8} {di : Nat} :
    repeCmpsb line bs di = true ↔ Holds line di bs := by
  induction bs generalizing di with
  | nil => exact ⟨fun _ => holds_nil _ _, fun _ => rfl⟩
  | cons b bs ih => rw [repeCmpsb, Bool.and_eq_true, decide_eq_true_iff, ih, holds_cons, eq_comm]

/-- The comparison tells whether a command line begins with a text. -/
theorem repeCmpsb_iff {bs : List UInt8} {di : Nat} (hbs : ∀ b ∈ bs, b ≠ 0)
    (h : Holds line di (text ++ [0])) : repeCmpsb line bs di = true ↔ bs <+: text := by
  induction bs generalizing di text with
  | nil => exact ⟨fun _ => List.nil_prefix, fun _ => rfl⟩
  | cons b bs ih =>
    rw [List.forall_mem_cons] at hbs
    rw [repeCmpsb, Bool.and_eq_true, decide_eq_true_iff]
    cases text with
    | nil =>
      rw [List.nil_append, holds_cons] at h
      rw [h.1]
      exact ⟨fun heq => absurd heq.1 hbs.1, fun hpre => absurd (List.prefix_nil.mp hpre)
        (List.cons_ne_nil _ _)⟩
    | cons c text =>
      rw [List.cons_append, holds_cons] at h
      rw [h.1, ih hbs.2 h.2, List.cons_prefix_cons]

/-- Behind the onerror text, `on_error` leaves the bytes that were in front, up to a NUL. -/
theorem onError_behind {onerror : List UInt8} (hle : onerror.length ≤ maxCmdLen) {a : Nat}
    (ha : onerror.length ≤ a) : onError onerror line a =
      if a < maxCmdLen then line (a - onerror.length)
      else if a = maxCmdLen then 0 else line a := by
  have hmax : maxCmdLen = 2047 := rfl
  rw [onError, repMovsbFrom_of_ge (by omega)]
  by_cases hroom : maxCmdLen - onerror.length = 0
  · rw [hroom, repMovsbDown, if_neg (by omega), put]
    rfl
  · rw [repMovsbDown_eq (by omega) (by omega)]
    by_cases hlt : a < maxCmdLen
    · rw [if_pos (by omega), if_pos hlt, put_of_ne _ (by omega)]
      congr 1
      omega
    · rw [if_neg (by omega), if_neg hlt, put]
      rfl

/-- `on_error` puts the onerror text in front of the command line. -/
theorem onError_line {onerror : List UInt8} (hne : ∀ b ∈ onerror, b ≠ 0)
    (hle : onerror.length ≤ maxCmdLen) (h : IsLine line text) :
    IsLine (onError onerror line) (rewritten onerror text) := by
  have hlen := h.length_le
  have hfront : Holds (onError onerror line) 0 onerror := repMovsbFrom_holds _ _
  have hrewritten : rewritten onerror text =
      onerror ++ text.take (maxCmdLen - onerror.length) := by
    rw [rewritten, List.take_append, List.take_of_length_le hle]
  constructor
  · rw [hrewritten, List.append_assoc, holds_append, Nat.zero_add]
    refine ⟨hfront, holds_append.mpr ⟨fun i b hb => ?_, ?_⟩⟩
    · have hi := (List.getElem?_eq_some_iff.mp hb).1
      rw [List.length_take] at hi
      rw [onError_behind hle (Nat.le_add_right _ _), if_pos (by omega), Nat.add_sub_cancel_left]
      rw [List.getElem?_take_of_lt (by omega)] at hb
      have hholds := (holds_append.mp h.holds).1 i b hb
      rwa [Nat.zero_add] at hholds
    · rw [holds_cons, List.length_take]
      refine ⟨?_, holds_nil _ _⟩
      rw [onError_behind hle (Nat.le_add_right _ _)]
      by_cases hlt : onerror.length + min (maxCmdLen - onerror.length) text.length < maxCmdLen
      · have hnul := (holds_cons.mp (holds_append.mp h.holds).2).1
        rw [Nat.zero_add] at hnul
        rw [if_pos hlt, Nat.add_sub_cancel_left, Nat.min_eq_right (by omega), hnul]
      · rw [if_neg hlt, if_pos (by omega)]
  · intro b hb
    rcases List.mem_append.mp (List.mem_of_mem_take hb) with hb | hb
    · exact hne b hb
    · exact h.ne_zero b hb
  · rw [rewritten, List.length_take]
    exact Nat.min_le_left _ _

/-- A rewritten command line begins with the onerror text. -/
theorem prefix_rewritten {onerror : List UInt8} (hle : onerror.length ≤ maxCmdLen) :
    onerror <+: rewritten onerror text := by
  rw [rewritten, List.take_append, List.take_of_length_le hle]
  exact List.prefix_append _ _

/-! ## The onerror text -/

/-- `load_kernel` leaves the onerror text in front of a command line. -/
def KeepsText (cfg : Settings) : Prop :=
  cfg.allowOptions ≠ 0 ∨ (words cfg.onerrorLine).length ≤ 1

theorem Settings.onerror_ne_zero : ∀ b ∈ cfg.onerror, b ≠ 0 := by
  intro b hb
  obtain ⟨w, hw, hb⟩ := List.mem_flatMap.mp hb
  rcases List.mem_append.mp hb with hb | hb
  · rintro rfl
    exact absurd ((word_of_mem hw).2 0 hb) (by decide)
  · rw [List.mem_singleton.mp hb]
    decide

/-- Where nothing is blank everything is in a word. -/
theorem forall_inWord {w : List UInt8} (h : ∀ c ∈ w, isBlank c = false) :
    ∀ c ∈ w, inWord c = true := by
  intro c hc
  rw [inWord_eq_not, h c hc]
  rfl

/-- The first word, and what is left without the options, of a word and a blank in front of some
text. -/
theorem kernelWord_word {w : List UInt8} (h : ∀ c ∈ w, isBlank c = false) (rest : List UInt8) :
    kernelWord (w ++ 0x20 :: rest) = w ∧
      withoutOptions (w ++ 0x20 :: rest) = w ++ 0x20 :: rest.takeWhile isBlank := by
  have hword := forall_inWord h
  have hblank : isBlank 0x20 = true := by decide
  have hnot : ¬inWord 0x20 = true := by decide
  have hkernel : kernelWord (w ++ 0x20 :: rest) = w := by
    rw [kernelWord, List.takeWhile_append_of_pos hword, List.takeWhile_cons_of_neg hnot,
      List.append_nil]
  refine ⟨hkernel, ?_⟩
  rw [withoutOptions, hkernel, List.dropWhile_append_of_pos hword, List.dropWhile_cons_of_neg hnot,
    List.takeWhile_cons_of_pos hblank]

/-- Without options a command line has one word. -/
theorem not_prefix_withoutOptions {w : List UInt8} {c : UInt8} {rest : List UInt8}
    (hc : isBlank c = false) : ¬w ++ 0x20 :: c :: rest <+: withoutOptions text := by
  intro hpre
  obtain ⟨tail, heq⟩ := hpre
  have hword : ∀ b ∈ kernelWord text, inWord b = true := fun b hb => List.mem_takeWhile_imp hb
  have hblanks : ∀ b ∈ (text.dropWhile inWord).takeWhile isBlank, isBlank b = true :=
    fun b hb => List.mem_takeWhile_imp hb
  rw [List.append_assoc, withoutOptions] at heq
  -- The blank is not in the first word, so what is behind it is not either.
  have hle : (kernelWord text).length ≤ w.length := by
    by_contra hlt
    have hget := congrArg (·[w.length]?) heq
    rw [List.getElem?_append_right (Nat.le_refl _), Nat.sub_self,
      List.getElem?_append_left (Nat.lt_of_not_le hlt)] at hget
    exact absurd (hword 0x20 (List.mem_of_getElem? hget.symm)) (by decide)
  have hget := congrArg (·[w.length + 1]?) heq
  rw [List.getElem?_append_right (Nat.le_add_right _ 1), Nat.add_sub_cancel_left, List.cons_append,
    List.cons_append, List.getElem?_cons_succ, List.getElem?_cons_zero,
    List.getElem?_append_right (by omega)] at hget
  have hblank := hblanks c (List.mem_of_getElem? hget.symm)
  rw [hc] at hblank
  exact Bool.false_ne_true hblank

/-- An onerror text of some words. -/
theorem Settings.onerror_eq {w : List UInt8} {ws : List (List UInt8)}
    (h : words cfg.onerrorLine = w :: ws) : cfg.onerror = w ++ 0x20 :: spaced ws := by
  rw [onerror, normalForm, h, spaced, List.flatMap_cons, List.append_assoc]
  rfl

/-- The first word of a command line that begins with the onerror text is that of the onerror
text. -/
theorem kernelWord_of_begin (hpre : cfg.onerror <+: text) (hne : cfg.onerror ≠ []) :
    kernelWord text = kernelWord cfg.onerror := by
  cases hws : words cfg.onerrorLine with
  | nil =>
    refine absurd ?_ hne
    rw [Settings.onerror, normalForm, hws]
    rfl
  | cons w ws =>
    have hw := (word_of_mem (hws ▸ List.mem_cons_self : w ∈ words cfg.onerrorLine)).2
    obtain ⟨rest, rfl⟩ := hpre
    rw [Settings.onerror_eq hws, (kernelWord_word hw _).1, List.append_assoc, List.cons_append,
      (kernelWord_word hw _).1]

/-- The onerror text stays where it is kept. -/
theorem KeepsText.prefix_loaded (hkeep : KeepsText cfg) (hpre : cfg.onerror <+: text) :
    cfg.onerror <+: loadedLine cfg.allowOptions text := by
  rw [loadedLine]
  split_ifs with hallow
  · have hone := hkeep.resolve_left (not_not.mpr hallow)
    cases hws : words cfg.onerrorLine with
    | nil =>
      rw [Settings.onerror, normalForm, hws]
      exact List.nil_prefix
    | cons w ws =>
      rw [hws, List.length_cons] at hone
      have hnil : ws = [] := List.length_eq_zero_iff.mp (by omega)
      have hw := (word_of_mem (hws ▸ List.mem_cons_self : w ∈ words cfg.onerrorLine)).2
      obtain ⟨rest, rfl⟩ := hpre
      rw [Settings.onerror_eq hws, hnil, List.append_assoc, List.cons_append,
        (kernelWord_word hw _).2]
      exact (List.prefix_append_right_inj w).mpr (List.cons_prefix_cons.mpr ⟨rfl, List.nil_prefix⟩)
  · exact hpre

/-- Where it is not kept, a command line never begins with it behind `load_kernel`. -/
theorem not_prefix_loaded (hkeep : ¬KeepsText cfg) :
    ¬cfg.onerror <+: loadedLine cfg.allowOptions text := by
  obtain ⟨hallow, hwords⟩ := not_or.mp hkeep
  rw [loadedLine, if_pos (not_not.mp hallow)]
  match hws : words cfg.onerrorLine with
  | [] => exact absurd (hws ▸ Nat.zero_le 1) hwords
  | [w] => exact absurd (hws ▸ Nat.le_refl 1) hwords
  | w :: v :: ws =>
    have hv := word_of_mem (hws ▸ List.mem_cons_of_mem _ List.mem_cons_self :
      v ∈ words cfg.onerrorLine)
    obtain ⟨c, v', rfl⟩ := List.exists_cons_of_ne_nil hv.1
    rw [Settings.onerror_eq hws, spaced, List.flatMap_cons, List.cons_append, List.cons_append]
    exact not_prefix_withoutOptions (hv.2 c List.mem_cons_self)

/-! ## Runs -/

/-- What `load_kernel` starts with. -/
def Ui.start (line : Nat → UInt8) : Ui := ⟨.loadKernel, line, 0, 0⟩

/-- The law of the onerror text, for the run of a command. A command that begins with the text is
taken as one that was rewritten already. -/
structure RewritesOnce (cfg : Settings) (found : List UInt8 → Bool) (start : Ui) : Prop where
  /-- When no kernel is found, the command line becomes the text followed by itself. -/
  becomes : ∀ s, Reaches (uiStep cfg found) start s → s.place = .badKernel →
    ∀ text, IsLine s.line text → ¬cfg.onerror <+: text →
      ∃ t, Reaches (uiStep cfg found) s t ∧ t.place = .loadKernel ∧ t.rewrites = s.rewrites + 1 ∧
        t.reports = s.reports ∧ IsLine t.line (rewritten cfg.onerror text)
  once : ∀ s, Reaches (uiStep cfg found) start s → s.rewrites ≤ 1
  /-- When no kernel is found for a rewritten command either, the error is reported. -/
  reported : ∀ s, Reaches (uiStep cfg found) start s → s.place = .badKernel →
    ∀ text, IsLine s.line text → 0 < s.rewrites ∨ cfg.onerror <+: text →
      ∃ t, Reaches (uiStep cfg found) s t ∧ t.reports = s.reports + 1 ∧
        t.rewrites = s.rewrites ∧ t.line = s.line

variable {s t : Ui}

/-- Memory has one string at an address. -/
theorem holds_unique {a : Nat} {text text' : List UInt8} (h : Holds line a (text ++ [0]))
    (h' : Holds line a (text' ++ [0])) (hne : ∀ b ∈ text, b ≠ 0) (hne' : ∀ b ∈ text', b ≠ 0) :
    text = text' := by
  induction text generalizing a text' with
  | nil =>
    rw [List.nil_append, holds_cons] at h
    cases text' with
    | nil => rfl
    | cons c text' =>
      rw [List.cons_append, holds_cons] at h'
      exact absurd (h'.1.symm.trans h.1) (hne' c List.mem_cons_self)
  | cons b text ih =>
    rw [List.cons_append, holds_cons] at h
    cases text' with
    | nil =>
      rw [List.nil_append, holds_cons] at h'
      exact absurd (h.1.symm.trans h'.1) (hne b List.mem_cons_self)
    | cons c text' =>
      rw [List.cons_append, holds_cons] at h'
      rw [← h.1, h'.1, ih h.2 h'.2 (fun d hd => hne d (List.mem_cons_of_mem _ hd))
        fun d hd => hne' d (List.mem_cons_of_mem _ hd)]

/-- The command line is one text. -/
theorem IsLine.unique {text text' : List UInt8} (h : IsLine line text) (h' : IsLine line text') :
    text = text' := holds_unique h.holds h'.holds h.ne_zero h'.ne_zero

/-- A line whose kernel is found is loaded. -/
theorem uiStep_found (hplace : s.place = .loadKernel) (h : IsLine s.line text)
    (hfound : found (kernelWord text) = true) : uiStep cfg found s = .stop .kernelGood := by
  obtain ⟨line', hload, -⟩ := loadKernel_eq cfg.allowOptions h
  rw [uiStep, hplace]
  dsimp only
  rw [hload]
  exact if_pos hfound

/-- Without its kernel the line is taken apart, and the kernel is reported as bad. -/
theorem uiStep_load (hplace : s.place = .loadKernel) (h : IsLine s.line text)
    (hfound : ¬found (kernelWord text) = true) :
    ∃ line', uiStep cfg found s = .next { s with place := .badKernel, line := line' } ∧
      IsLine line' (loadedLine cfg.allowOptions text) := by
  obtain ⟨line', hload, hline'⟩ := loadKernel_eq cfg.allowOptions h
  refine ⟨line', ?_, hline'⟩
  rw [uiStep, hplace]
  dsimp only
  rw [hload]
  exact if_neg hfound

/-- A bad kernel leads on to the `onerror` text, if there is one. -/
theorem uiStep_badKernel (hplace : s.place = .badKernel) : uiStep cfg found s =
    .next { s with place := if cfg.onerror.length = 0 then .really else .onError } := by
  rw [uiStep, hplace]

/-- After the message there is a new prompt. -/
theorem uiStep_really (hplace : s.place = .really) : uiStep cfg found s =
    .next { s with place := .errorOrCommand, reports := s.reports + 1 } := by
  rw [uiStep, hplace]

/-- The `onerror` text is put in front of a line that does not begin with it. -/
theorem uiStep_onError (hplace : s.place = .onError) (h : IsLine s.line text) :
    uiStep cfg found s =
      if cfg.onerror <+: text then .next { s with place := .really }
      else
        .next { s with
          place := .loadKernel
          line := onError cfg.onerror s.line
          rewrites := s.rewrites + 1 } := by
  have hcmp := repeCmpsb_iff cfg.onerror_ne_zero h.holds
  rw [uiStep, hplace]
  dsimp only
  by_cases hpre : cfg.onerror <+: text
  · rw [if_pos hpre, if_pos (hcmp.mpr hpre)]
  · rw [if_neg hpre, if_neg (mt hcmp.mp hpre)]

/-- A command that does not begin with the onerror text is rewritten. -/
theorem badKernel_rewrites (hplace : s.place = .badKernel) (h : IsLine s.line text)
    (hpre : ¬cfg.onerror <+: text) :
    ∃ t, Reaches (uiStep cfg found) s t ∧ t.place = .loadKernel ∧ t.rewrites = s.rewrites + 1 ∧
      t.reports = s.reports ∧ IsLine t.line (rewritten cfg.onerror text) := by
  have hlen : cfg.onerror.length ≠ 0 := fun hzero =>
    hpre (List.length_eq_zero_iff.mp hzero ▸ List.nil_prefix)
  have hbad := @uiStep_badKernel cfg found s hplace
  rw [if_neg hlen] at hbad
  have hrewrite := @uiStep_onError cfg found text { s with place := .onError } rfl h
  rw [if_neg hpre] at hrewrite
  exact ⟨_, (Reaches.start.next hbad).next hrewrite, rfl, rfl, rfl,
    onError_line cfg.onerror_ne_zero cfg.fits h⟩

/-- Of a command that does, the error is reported. -/
theorem badKernel_reports (hplace : s.place = .badKernel) (h : IsLine s.line text)
    (hpre : cfg.onerror <+: text) :
    ∃ t, Reaches (uiStep cfg found) s t ∧ t.reports = s.reports + 1 ∧ t.rewrites = s.rewrites ∧
      t.line = s.line := by
  have hbad := @uiStep_badKernel cfg found s hplace
  have hreally : Reaches (uiStep cfg found) s { s with place := .really } := by
    by_cases hlen : cfg.onerror.length = 0
    · rw [if_pos hlen] at hbad
      exact Reaches.start.next hbad
    · rw [if_neg hlen] at hbad
      have hcmp := @uiStep_onError cfg found text { s with place := .onError } rfl h
      rw [if_pos hpre] at hcmp
      exact (Reaches.start.next hbad).next hcmp
  exact ⟨_, hreally.next (uiStep_really rfl), rfl, rfl, rfl⟩

/-- A command line that begins with an onerror text is not given up: its error is reported again
and again, as `abort_load` leads back to `on_error`. -/
theorem reports_again (hplace : s.place = .onError) (h : IsLine s.line text)
    (hpre : cfg.onerror <+: text) (hne : cfg.onerror ≠ []) (n : Nat) :
    ∃ t, Reaches (uiStep cfg found) s t ∧ t.place = .onError ∧ t.line = s.line ∧
      t.reports = s.reports + n := by
  induction n with
  | zero => exact ⟨s, .start, hplace, rfl, rfl⟩
  | succ n ih =>
    obtain ⟨t, hreach, hplace', hline, hcount⟩ := ih
    have hcmp := @uiStep_onError cfg found text t hplace' (hline ▸ h)
    rw [if_pos hpre] at hcmp
    have hreport := (hreach.next hcmp).next (uiStep_really rfl)
    refine ⟨_, hreport.next (if_neg (mt List.length_eq_zero_iff.mp hne)), rfl, hline, ?_⟩
    exact congrArg (· + 1) hcount

/-- A command was not rewritten, or it was, and begins with the onerror text. -/
def Rewritten (cfg : Settings) (s : Ui) : Prop :=
  ∃ text, IsLine s.line text ∧
    (s.rewrites = 0 ∨ s.rewrites = 1 ∧ cfg.onerror <+: text ∧ cfg.onerror ≠ [])

/-- One step keeps this, where the text is kept or names a kernel. -/
theorem Rewritten.step (hkeep : KeepsText cfg ∨ found (kernelWord cfg.onerror) = true)
    (h : Rewritten cfg s) (hstep : uiStep cfg found s = .next t) : Rewritten cfg t := by
  obtain ⟨text, hline, hrewrites⟩ := h
  cases hplace : s.place with
  | loadKernel =>
    by_cases hfound : found (kernelWord text) = true
    · rw [uiStep_found hplace hline hfound] at hstep
      cases hstep
    · obtain ⟨line', hload, hline'⟩ := @uiStep_load cfg found text s hplace hline hfound
      rw [hload] at hstep
      cases hstep
      refine ⟨_, hline', hrewrites.imp_right fun ⟨hone, hpre, hne⟩ => ⟨hone, ?_, hne⟩⟩
      rw [kernelWord_of_begin hpre hne] at hfound
      exact (hkeep.resolve_right hfound).prefix_loaded hpre
  | badKernel =>
    rw [uiStep_badKernel hplace] at hstep
    cases hstep
    exact ⟨text, hline, hrewrites⟩
  | onError =>
    rw [uiStep_onError hplace hline] at hstep
    split_ifs at hstep with hpre
    · cases hstep
      exact ⟨text, hline, hrewrites⟩
    · cases hstep
      have hzero := hrewrites.resolve_right fun hone => hpre hone.2.1
      refine ⟨_, onError_line cfg.onerror_ne_zero cfg.fits hline,
        Or.inr ⟨congrArg (· + 1) hzero, prefix_rewritten cfg.fits, ?_⟩⟩
      rintro hnil
      exact hpre (hnil ▸ List.nil_prefix)
  | really =>
    rw [uiStep_really hplace] at hstep
    cases hstep
    exact ⟨text, hline, hrewrites⟩
  | errorOrCommand =>
    rw [uiStep, hplace] at hstep
    dsimp only at hstep
    split_ifs at hstep with hlen
    cases hstep
    exact ⟨text, hline, hrewrites⟩

/-- Where the text is not kept and names no kernel, it is put in front again and again. -/
theorem rewrites_again (hkeep : ¬KeepsText cfg)
    (honerror : ¬found (kernelWord cfg.onerror) = true) (hplace : s.place = .loadKernel)
    (h : IsLine s.line text) (hfound : ¬found (kernelWord text) = true) (n : Nat) :
    ∃ t text', Reaches (uiStep cfg found) s t ∧ t.place = .loadKernel ∧
      t.rewrites = s.rewrites + n ∧ IsLine t.line text' ∧ ¬found (kernelWord text') = true := by
  induction n with
  | zero => exact ⟨s, text, .start, hplace, rfl, h, hfound⟩
  | succ n ih =>
    obtain ⟨t, text', hreach, hplace', hcount, hline', hfound'⟩ := ih
    obtain ⟨line'', hload, hline''⟩ := @uiStep_load cfg found text' t hplace' hline' hfound'
    obtain ⟨u, hu, huplace, hucount, -, huline⟩ := @badKernel_rewrites cfg found
      (loadedLine cfg.allowOptions text') { t with place := .badKernel, line := line'' } rfl
      hline'' (not_prefix_loaded hkeep)
    have hne : cfg.onerror ≠ [] := fun hnil =>
      @not_prefix_loaded cfg text hkeep (hnil ▸ List.nil_prefix)
    refine ⟨u, _, (hreach.next hload).trans hu, huplace, ?_, huline, ?_⟩
    · rw [hucount]
      exact congrArg (· + 1) hcount
    · rw [kernelWord_of_begin (prefix_rewritten cfg.fits) hne]
      exact honerror

/-- Where the text is not kept, a line that fails twice is rewritten twice. -/
theorem not_rewritesOnce (hkeep : ¬KeepsText cfg)
    (honerror : ¬found (kernelWord cfg.onerror) = true) (h : IsLine line text)
    (hfound : ¬found (kernelWord text) = true) : ¬RewritesOnce cfg found (Ui.start line) := by
  intro hlaw
  obtain ⟨t, -, hreach, -, hcount, -⟩ :=
    @rewrites_again cfg found text (Ui.start line) hkeep honerror rfl h hfound 2
  have honce := hlaw.once t hreach
  rw [hcount] at honce
  exact Nat.not_succ_le_self 1 honce

/-- A command is rewritten once at most, and then the error is reported: exactly when options are
allowed, or the onerror text is one word, or there is a kernel for the command or for the onerror
text. -/
theorem onerror_once_iff (cfg : Settings) (found : List UInt8 → Bool) (line : Nat → UInt8)
    (text : List UInt8) (h : IsLine line text) :
    RewritesOnce cfg found (Ui.start line) ↔
      KeepsText cfg ∨ found (kernelWord text) = true ∨ found (kernelWord cfg.onerror) = true := by
  constructor
  · intro hlaw
    by_contra hnot
    obtain ⟨hkeep, hrest⟩ := not_or.mp hnot
    obtain ⟨hfound, honerror⟩ := not_or.mp hrest
    exact not_rewritesOnce hkeep honerror h hfound hlaw
  · intro hcond
    have hinv : ∀ s, Reaches (uiStep cfg found) (Ui.start line) s → Rewritten cfg s := by
      intro s hs
      have hstart : Rewritten cfg (Ui.start line) := ⟨text, h, Or.inl rfl⟩
      by_cases hfound : found (kernelWord text) = true
      · have hstop := @uiStep_found cfg found text (Ui.start line) rfl h hfound
        have heq := @Reaches.inv _ _ _ _ _ (· = Ui.start line) hs rfl fun t u ht hu => by
          rw [ht, hstop] at hu
          cases hu
        rw [heq]
        exact hstart
      · exact hs.inv hstart fun t u ht hu =>
          ht.step (hcond.imp_right fun hor => hor.resolve_left hfound) hu
    refine ⟨fun s _ hplace text' hline hpre => badKernel_rewrites hplace hline hpre,
      fun s hs => ?_, fun s hs hplace text' hline hor => ?_⟩
    · obtain ⟨-, -, hzero | ⟨hone, -⟩⟩ := hinv s hs
      · omega
      · omega
    · refine badKernel_reports hplace hline (hor.elim (fun hpos => ?_) id)
      obtain ⟨text'', hline'', hzero | ⟨-, hpre, -⟩⟩ := hinv s hs
      · omega
      · exact hline.unique hline'' ▸ hpre

/-! ## Examples -/

/-- The command `k`. -/
def sampleLine : Nat → UInt8 := fun a => if a = 0 then 0x6B else 0

/-- The sample is the line `k`. -/
theorem sampleLine_isLine : IsLine sampleLine [0x6B] := by
  refine ⟨?_, List.forall_mem_singleton.mpr (by decide), by decide⟩
  rw [List.singleton_append, holds_cons, holds_cons]
  exact ⟨rfl, rfl, holds_nil _ _⟩

/-- `onerror a b`. -/
def sampleOnerror (allowOptions : UInt16) : Settings :=
  ⟨[0x61, 0x20, 0x62], allowOptions, by decide⟩

/-- A text of one blank, which is not kept. -/
theorem onerror_once_iff_sample :
    RewritesOnce (sampleOnerror 1) (fun _ => false) (Ui.start sampleLine) ↔
      KeepsText (sampleOnerror 1) ∨ false = true ∨ false = true :=
  onerror_once_iff (sampleOnerror 1) (fun _ => false) sampleLine [0x6B] sampleLine_isLine

/-- With `allowoptions 0`, an onerror text of two words is put in front of the command forever. -/
theorem onerror_twice : ¬∀ (cfg : Settings) (found : List UInt8 → Bool) (line : Nat → UInt8)
    (text : List UInt8), IsLine line text → RewritesOnce cfg found (Ui.start line) := by
  intro h
  refine @not_rewritesOnce (sampleOnerror 0) (fun _ => false) sampleLine [0x6B] ?_ ?_
    sampleLine_isLine ?_ (h _ _ _ _ sampleLine_isLine)
  · rintro (hallow | hwords)
    · exact hallow rfl
    · exact absurd hwords (by decide)
  · exact Bool.false_ne_true
  · exact Bool.false_ne_true

end Liigboot.Boot
