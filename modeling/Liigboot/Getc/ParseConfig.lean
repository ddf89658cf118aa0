import Liigboot.Getc.Commands

/-!
# Pushing back while a configuration is parsed

`getcommand` pushes back the blank behind a word and then the first character of the parameter, with
a read in between, and the handler begins with that character. So one character at most is pushed
back at a time in the whole run, whatever files are included. Nothing bounds the length of a word or
a line, though, and a long one is stored over the records.
-/

namespace Liigboot.Getc

namespace Parser

open Liigboot.Config (Report rol5 cString tableSearch)

/-! ## The source -/

/-- The bytes of a text. -/
def ascii (text : String) : List UInt8 := text.toUTF8.data.toList

section source

variable (L : Layout) (fuel : Nat)

/-- A complaint about the word in `trackbuf`. -/
def complain (message : List UInt8 → Report) : Parser Unit := do
  let seg ← look
  let word := cString (bytesAt seg (L.addr .trackbuf) 0x10000)
  let _ ← routine (.writestr (ascii (message word).message))
  let _ ← routine (.writestr word)
  let _ ← routine .crlf

/-- The registers of `getcommand` at `.read_loop`. -/
structure Word where
  di : Nat
  ebx : UInt32

/-- The word of a line, with the character that ended it. -/
structure Ended where
  word : Word
  al : UInt8

/-- A pass of `.read_loop`. At the end of the file there is no result. -/
def readStep (w : Word) : Parser (Word ⊕ Option Ended) := do
  match ← getc with
  | none => return .inr none
  | some al =>
    if al ≤ 0x20 then return .inr (some ⟨w, al⟩)
    else
      stosb w.di [al]
      return .inl ⟨w.di + 1, rol5 w.ebx ^^^ (al ||| 0x20).toUInt32⟩

/-- `getcommand` from `.done` on, with the carry flag if it ends. -/
def dispatch (w : Ended) : Parser (Unit ⊕ Bool) := do
  ungetc w.al
  stosb w.word.di [0]
  match ← skipspace fuel with
  | .eof => return .inr true
  | .eoln =>
    complain L .noparm
    return .inl ()
  | .char al =>
    -- Return nonwhitespace char to buf
    ungetc al
    match tableSearch w.word.ebx with
    | some k =>
      handler L fuel k
      return .inr false
    | none =>
      complain L .badcfg
      -- the table search left the argument 0 of the last entry in `al`
      skipline fuel 0
      return .inl ()

/-- `getcommand` behind the indentation of a line, with its first character. -/
def firstChar (al : UInt8) : Parser (Unit ⊕ Bool) := do
  if al = 0x23 then
    skipline fuel al
    return .inl ()
  else
    stosb (L.addr .trackbuf) [al]
    match ← .loop readStep fuel ⟨L.addr .trackbuf + 1, (al ||| 0x20).toUInt32⟩ with
    | none => return .inr true
    | some w => dispatch L fuel w

/-- A line of `getcommand`. -/
def commandStep : Parser (Unit ⊕ Bool) := do
  match ← skipspace fuel with
  | .eof => return .inr true
  | .eoln => return .inl ()
  | .char al => firstChar L fuel al

/-- `getcommand`, with the carry flag at the end of the file. -/
def getcommand : Parser Bool := .loop (fun _ : Unit => commandStep L fuel) fuel ()

/-- A pass of the loop of `parse_config`. -/
def parseStep : Parser (Unit ⊕ Unit) := do
  if ← getcommand L fuel then
    close
    -- Still parsing?
    if ← decLevel then return .inr () else return .inl ()
  else return .inl ()

/-- `parse_config` -/
def parseConfig : Parser Unit := do
  clearVKernel
  .loop (fun _ : Unit => parseStep L fuel) fuel ()
  commitVk L

/-- `pm_load_config` and `load_config_file` -/
def loadConfig : Parser Unit := do
  if ← coreOpen (L.addr .configName) then parseConfig L fuel
  else return ()

end source

/-! ## What they leave -/

variable {φ : Type} {L : Layout} {env : Env L.toPlaces φ} {s : State φ} {files level top fuel : Nat}

/-- The included file is counted. -/
theorem upholds_pcInclude {n : Nat} (h : Stacked L s (n + 1 + 1) (n + 1) 0) :
    Upholds L env pcInclude (fun _ => Ready L 1) s := by
  refine (upholds_incLevel h (Nat.zero_le 1)).mono fun _ s h => ?_
  have hfiles := h.files_le
  have hmax : maxGetc = 16 := rfl
  rw [Nat.mod_eq_of_lt (by omega)] at h
  exact Ready.mono ⟨n + 1, h⟩

/-- The other files that commands open are closed again. -/
theorem upholds_closing {n : Nat} {p : Parser Unit}
    (hp : Upholds L env p (fun _ s => Stacked L s (n + 1) (n + 1) 0) s) :
    Upholds L env p (fun _ => Ready L 1) s :=
  hp.mono fun _ _ h => Ready.mono ⟨n, h⟩

/-- A handler leaves one file open and one character at most put back. -/
theorem upholds_handler (k : Config.Keyword) (h : Ready L 1 s) :
    Upholds L env (handler L fuel k) (fun _ => Ready L 1) s := by
  unfold handler
  split
  · exact upholds_ready h fun n h => (upholds_pcGetline h).bind fun _ _ h => h.mono (Nat.zero_le 1)
  · exact upholds_ready h fun n h => upholds_pcText h
  · exact upholds_pcOpencmd h fun n s h => upholds_pcInclude h
  · exact upholds_pcOpencmd h fun n s h => upholds_closing (upholds_getMsgFile fuel h)
  · exact upholds_pcOpencmd h fun n s h => upholds_closing (upholds_loadfont h)
  · exact upholds_pcOpencmd h fun n s h => upholds_closing (upholds_loadkeys h)
  · exact upholds_ready h fun n h => upholds_pcAppend h
  · exact upholds_ready h fun n h => upholds_pcFilename h
  · exact upholds_ready h fun n h => upholds_pcFilename h
  · exact upholds_ready h fun n h => upholds_pcDefault h
  iterate 8 exact upholds_ready h fun n h => upholds_pcSetint16 h
  · exact upholds_ready h fun n h => upholds_pcKernel h
  · exact upholds_ready h fun n h => upholds_pcLabel h
  · exact upholds_ready h fun n h => upholds_pcSay h
  · exact upholds_ready h fun n h => upholds_pcSerial h
  iterate 2 exact upholds_ready h fun n h => upholds_pcTimeout h
  · exact upholds_ready h fun n h => upholds_pcOntimeout h
  · exact upholds_ready h fun n h => upholds_pcOnerror h
  · exact upholds_ready h fun n h => upholds_pcLocalboot h
  · exact h

/-- A message leaves the open files. -/
theorem upholds_complain {message : List UInt8 → Report} (h : Stacked L s files level top)
    (htop : top ≤ 1) :
    Upholds L env (complain L message) (fun _ s => Stacked L s files level top) s := by
  refine (upholds_look h htop).bind fun seg s h => ?_
  refine (upholds_routine h htop).bind fun _ s h => ?_
  refine (upholds_routine h htop).bind fun _ s h => ?_
  exact (upholds_routine h htop).bind fun _ _ h => h

/-- Reading a word keeps the open files. -/
theorem upholds_readLoop {w : Word} (h : Stacked L s (files + 1) level 0) :
    Upholds L env (.loop readStep fuel w) (fun _ s => Stacked L s (files + 1) level 0) s := by
  refine upholds_loop (fun _ s => Stacked L s (files + 1) level 0) (fun w s h => ?_) fuel h
  refine (upholds_getc (h.mono (Nat.zero_le 1))).bind fun c s h => ?_
  cases c with
  | none => exact h
  | some al =>
    refine upholds_ite (fun _ => h) fun _ => ?_
    exact (upholds_stosb h (Nat.zero_le 1)).bind fun _ _ h => h

/-- The records behind a command, and at the end of the file. -/
def Done (L : Layout) (eof : Bool) (s : State φ) : Prop := Ready L (if eof then 0 else 1) s

/-- The records behind a line, which may end `getcommand`. -/
def LineDone (L : Layout) (r : Unit ⊕ Bool) (s : State φ) : Prop :=
  r.elim (fun _ => Ready L 1) (Done L) s

/-- The blank is read again before the first character of the parameter is pushed back. -/
theorem upholds_dispatch {w : Ended} {n : Nat} (h : Stacked L s (n + 1) (n + 1) 0) :
    Upholds L env (dispatch L fuel w) (LineDone L) s := by
  refine (upholds_ungetc h).bind fun _ s h => ?_
  refine (upholds_stosb h le_rfl).bind fun _ s h => ?_
  refine (upholds_skipspace fuel h).bind fun c s h => ?_
  cases c with
  | eof => exact ⟨n, h⟩
  | eoln =>
    exact (upholds_complain (h.mono (Nat.zero_le 1)) le_rfl).bind fun _ _ h => ⟨n, h⟩
  | char al =>
    refine (upholds_ungetc h).bind fun _ s h => ?_
    split
    · exact (upholds_handler _ ⟨n, h⟩).bind fun _ _ h => h
    · refine (upholds_complain h le_rfl).bind fun _ s h => ?_
      exact (upholds_skipline fuel 0 h).bind fun _ _ h => ⟨n, h⟩

/-- A line that starts with any character is read to its end. -/
theorem upholds_firstChar {al : UInt8} {n : Nat} (h : Stacked L s (n + 1) (n + 1) 0) :
    Upholds L env (firstChar L fuel al) (LineDone L) s := by
  refine upholds_ite (fun _ => ?_) fun _ => ?_
  · exact (upholds_skipline fuel al (h.mono (Nat.zero_le 1))).bind fun _ _ h => ⟨n, h⟩
  · refine (upholds_stosb h (Nat.zero_le 1)).bind fun _ s h => ?_
    refine (upholds_readLoop h).bind fun w s h => ?_
    cases w with
    | none => exact ⟨n, h⟩
    | some w => exact upholds_dispatch h

/-- One line of the file keeps the file open. -/
theorem upholds_commandStep (h : Ready L 1 s) :
    Upholds L env (commandStep L fuel) (LineDone L) s := by
  obtain ⟨n, h⟩ := h
  refine (upholds_skipspace fuel h).bind fun c s h => ?_
  cases c with
  | eof => exact ⟨n, h⟩
  | eoln => exact Ready.mono ⟨n, h⟩
  | char al => exact upholds_firstChar h

/-- `getcommand` ends at a keyword or at the end of the file. -/
theorem upholds_getcommand (h : Ready L 1 s) : Upholds L env (getcommand L fuel) (Done L) s :=
  upholds_loop (fun _ => Ready L 1) (fun _ _ h => upholds_commandStep h) fuel h

/-- At the end of a file the level goes down with the file. The last one leaves nothing open. -/
theorem upholds_parseStep (h : Ready L 1 s) :
    Upholds L env (parseStep L fuel)
      (fun r s => r.elim (fun _ => Ready L 1) (fun _ s => Stacked L s 0 0 0) s) s := by
  refine (upholds_getcommand h).bind fun eof s h => ?_
  cases eof with
  | false => exact h
  | true =>
    obtain ⟨n, h⟩ := h
    refine (upholds_close h).bind fun _ s h => ?_
    refine (upholds_decLevel h (Nat.zero_le 1)).bind fun zero s h => ?_
    obtain ⟨h, rfl⟩ := h
    cases n with
    | zero => exact h
    | succ n => exact Ready.mono ⟨n, h⟩

/-- When the file is parsed it is closed. -/
theorem upholds_parseConfig (h : Ready L 0 s) :
    Upholds L env (parseConfig L fuel) (fun _ s => Stacked L s 0 0 0) s := by
  obtain ⟨n, h⟩ := h
  refine (upholds_set h (Nat.zero_le 1)).bind fun _ s h => ?_
  refine (upholds_loop (fun _ => Ready L 1) (fun _ _ h => upholds_parseStep h) fuel
    (Ready.mono ⟨n, h⟩)).bind fun _ s h => ?_
  exact upholds_commitVk h (Nat.zero_le 1)

/-- The whole run, from a state without open files and with the level at one. -/
theorem upholds_loadConfig (h : Stacked L s 0 1 0) :
    Upholds L env (loadConfig L fuel) (fun _ _ => True) s := by
  refine (upholds_coreOpen h).bind fun ok s h => ?_
  cases ok with
  | false => trivial
  | true => exact (upholds_parseConfig ⟨0, h⟩).mono fun _ _ _ => trivial

end Parser

end Liigboot.Getc
