import Liigboot.Config.Keyword
import Mathlib.Data.List.TakeWhile

/-!
# Reading a line of a configuration

`getline` stores a line with its control characters turned into blanks, of which it keeps one
behind each word. Its state is one bit: whether the last character that was stored is a blank, or
none was stored yet.
-/

namespace Liigboot.Config

/-! ## The source -/

/-- `skipspace`, with the input behind what was read. -/
def skipspaceRest : List UInt8 → Skipped × List UInt8
  | [] => (.eof, [])
  | al :: rest =>
    if al = 0x1a then (.eof, rest)
    else if al = 0x0a then (.eoln rest, rest)
    else if al ≤ 0x20 then skipspaceRest rest
    else (.char al rest, rest)

/-- What `getline` leaves: the bytes that it stores at ES:DI, the carry flag, and what `getc` still
yields. Nothing bounds the bytes: this is what happens as long as they miss the open files. -/
structure Line where
  stored : List UInt8
  eof : Bool
  rest : List UInt8
  deriving DecidableEq, Repr

/-- `stosb`, in front of all that is stored later. -/
def Line.stosb (al : UInt8) (line : Line) : Line := { line with stored := al :: line.stored }

/-- `.ret`: the last character is to be a blank. -/
def lineRet (dl : UInt8) (cf : Bool) (rest : List UInt8) : Line :=
  if dl ≠ 0 then ⟨[], cf, rest⟩ else ⟨[0x20], cf, rest⟩

/-- `.fillloop`. -/
def fillloop (dl : UInt8) : List UInt8 → Line
  | [] => lineRet dl true []
  | al :: rest =>
    if 0x20 < al then (fillloop 0 rest).stosb al
    else if al = 10 then lineRet dl false rest
    else if al = 26 then lineRet dl true rest
    -- multiple spaces are ignored
    else if dl ≠ 0 then fillloop dl rest
    else (fillloop (dl + 1) rest).stosb 0x20

/-- `getline`. -/
def getline (input : List UInt8) : Line :=
  match skipspaceRest input with
  | (.eof, rest) => lineRet 1 true rest
  | (.eoln _, rest) => lineRet 1 false rest
  | (.char al _, rest) => fillloop 1 (al :: rest)

/-! ## Words -/

/-- A character between words. -/
def isBlank (c : UInt8) : Bool := c ≤ 0x20

/-- The longest runs of characters above the blank. -/
def words (text : List UInt8) : List (List UInt8) := (text.splitOnP isBlank).filter (· ≠ [])

/-- Each word with one blank behind it. -/
def spaced (ws : List (List UInt8)) : List UInt8 := ws.flatMap (· ++ [0x20])

/-- The normal form of a line. -/
def normalForm (text : List UInt8) : List UInt8 := spaced (words text)

/-- The normal form of what follows a part of a word. -/
def normalRest (text : List UInt8) : List UInt8 :=
  (text.splitOnP isBlank).headD [] ++ [0x20] ++
    spaced ((text.splitOnP isBlank).tail.filter (· ≠ []))

/-- A character that does not end a line. -/
def inLine (c : UInt8) : Bool := c ≠ 10 && c ≠ 26

/-- The current line of an input. -/
def currentLine (input : List UInt8) : List UInt8 := input.takeWhile inLine

variable {c : UInt8} {text input : List UInt8}

theorem normalForm_of_blank (h : isBlank c = true) : normalForm (c :: text) = normalForm text := by
  rw [normalForm, words, List.splitOnP_cons_eq_if_modifyHead, if_pos h,
    List.filter_cons_of_neg (by decide)]
  rfl

theorem normalRest_of_blank (h : isBlank c = true) :
    normalRest (c :: text) = 0x20 :: normalForm text := by
  rw [normalRest, List.splitOnP_cons_eq_if_modifyHead, if_pos h]
  rfl

/-- A character in a word is kept. -/
theorem normal_of_not_blank (h : isBlank c = false) :
    normalForm (c :: text) = c :: normalRest text ∧
      normalRest (c :: text) = c :: normalRest text := by
  have hblank : ¬isBlank c = true := by rw [h]; exact Bool.false_ne_true
  obtain ⟨w, ws, hws⟩ := List.exists_cons_of_ne_nil (List.splitOnP_ne_nil isBlank text)
  have hcons : (c :: text).splitOnP isBlank = (c :: w) :: ws := by
    rw [List.splitOnP_cons_eq_if_modifyHead, if_neg hblank, hws]
    rfl
  constructor
  · rw [normalForm, words, hcons, List.filter_cons_of_pos (by simp), normalRest, hws, spaced,
      List.flatMap_cons]
    rfl
  · rw [normalRest, hcons, normalRest, hws]
    rfl

theorem splitOnP_not_blank (text : List UInt8) :
    ∀ w ∈ text.splitOnP isBlank, ∀ c ∈ w, isBlank c = false := by
  induction text with
  | nil =>
    intro w hw c hc
    rw [List.splitOnP_nil, List.mem_singleton] at hw
    exact absurd (hw ▸ hc) List.not_mem_nil
  | cons b text ih =>
    intro w hw c hc
    rw [List.splitOnP_cons_eq_if_modifyHead] at hw
    split at hw
    · rcases List.mem_cons.mp hw with rfl | hw
      · exact absurd hc List.not_mem_nil
      · exact ih w hw c hc
    next hb =>
      obtain ⟨v, ws, hws⟩ := List.exists_cons_of_ne_nil (List.splitOnP_ne_nil isBlank text)
      rw [hws, List.forall_mem_cons] at ih
      rw [hws, List.modifyHead_cons] at hw
      rcases List.mem_cons.mp hw with rfl | hw
      · rcases List.mem_cons.mp hc with rfl | hc
        · exact Bool.eq_false_iff.mpr hb
        · exact ih.1 c hc
      · exact ih.2 w hw c hc

/-- A word is not empty, and has no blanks. -/
theorem word_of_mem {w : List UInt8} (h : w ∈ words text) :
    w ≠ [] ∧ ∀ c ∈ w, isBlank c = false := by
  rw [words, List.mem_filter, decide_eq_true_iff] at h
  exact ⟨h.2, splitOnP_not_blank text w h.1⟩

theorem inLine_eq_false (h : inLine c = false) : c = 10 ∨ c = 26 := by
  by_contra hnot
  obtain ⟨hlf, hsub⟩ := not_or.mp hnot
  simp [inLine, hlf, hsub] at h

/-! ## What is stored -/

/-- What the loop leaves, at the start of a word or between words, and within a word. -/
theorem fillloop_eq (input : List UInt8) :
    (∀ dl ≠ 0, fillloop dl input = ⟨normalForm (currentLine input),
      (input.dropWhile inLine).head? ≠ some 10, (input.dropWhile inLine).tail⟩) ∧
    fillloop 0 input = ⟨normalRest (currentLine input),
      (input.dropWhile inLine).head? ≠ some 10, (input.dropWhile inLine).tail⟩ := by
  induction input with
  | nil =>
    refine ⟨fun dl hdl => ?_, rfl⟩
    rw [fillloop, lineRet, if_pos hdl]
    rfl
  | cons al input ih =>
    obtain ⟨hbetween, hwithin⟩ := ih
    by_cases hend : inLine al = true
    · have hne : al ≠ 10 ∧ al ≠ 26 := by simpa [inLine] using hend
      rw [currentLine, List.takeWhile_cons_of_pos hend, List.dropWhile_cons_of_pos hend,
        ← currentLine]
      by_cases hblank : 0x20 < al
      · have hword : isBlank al = false := decide_eq_false (UInt8.not_le.mpr hblank)
        obtain ⟨hform, hrest⟩ := @normal_of_not_blank al (currentLine input) hword
        simp only [fillloop, if_pos hblank, hwithin, hform, hrest]
        exact ⟨fun _ _ => rfl, rfl⟩
      · have hspace : isBlank al = true := decide_eq_true (UInt8.not_lt.mp hblank)
        rw [normalForm_of_blank hspace, normalRest_of_blank hspace]
        refine ⟨fun dl hdl => ?_, ?_⟩
        · rw [fillloop, if_neg hblank, if_neg hne.1, if_neg hne.2, if_pos hdl, hbetween dl hdl]
        · rw [fillloop, if_neg hblank, if_neg hne.1, if_neg hne.2, if_neg (not_not.mpr rfl),
            hbetween (0 + 1) (by decide)]
          rfl
    · rw [currentLine, List.takeWhile_cons_of_neg hend, List.dropWhile_cons_of_neg hend]
      rcases inLine_eq_false (Bool.eq_false_iff.mpr hend) with rfl | rfl
      · refine ⟨fun dl hdl => ?_, rfl⟩
        rw [fillloop, if_neg (by decide), if_pos rfl, lineRet, if_pos hdl]
        rfl
      · refine ⟨fun dl hdl => ?_, rfl⟩
        rw [fillloop, if_neg (by decide), if_neg (by decide), if_pos rfl, lineRet, if_pos hdl]
        rfl

/-- Blanks in front of a line do not matter to the loop. -/
theorem getline_eq_fillloop (input : List UInt8) : getline input = fillloop 1 input := by
  induction input with
  | nil => rfl
  | cons al input ih =>
    rw [getline, skipspaceRest, fillloop]
    by_cases hsub : al = 0x1a
    · rw [hsub]
      rfl
    by_cases hlf : al = 0x0a
    · rw [hlf]
      rfl
    rw [if_neg hsub, if_neg hlf, if_neg hlf, if_neg hsub]
    by_cases hblank : al ≤ 0x20
    · rw [if_pos hblank, if_neg (UInt8.not_lt.mpr hblank), if_pos (by decide), ← ih]
      rfl
    · rw [if_neg hblank, if_pos (UInt8.not_le.mp hblank)]
      dsimp only
      rw [fillloop, if_pos (UInt8.not_le.mp hblank)]

theorem getline_eq (input : List UInt8) : getline input = ⟨normalForm (currentLine input),
    (input.dropWhile inLine).head? ≠ some 10, (input.dropWhile inLine).tail⟩ := by
  rw [getline_eq_fillloop]
  exact (fillloop_eq input).1 1 (by decide)

/-- The line `a`, two blanks, a tabulator and `b`. -/
example : getline [0x20, 0x61, 0x20, 0x20, 0x09, 0x62, 10, 0x63] =
    ⟨[0x61, 0x20, 0x62, 0x20], false, [0x63]⟩ := by
  decide

end Liigboot.Config
