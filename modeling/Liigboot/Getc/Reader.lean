import Liigboot.Boot.ParseInt
import Liigboot.Getc.Rules

/-!
# Reading characters

The routines of `getc.inc` over the stack of open files. Each of them needs at most one character
that is pushed back, and pushes one back only when it has just read it.
-/

namespace Liigboot.Getc

namespace Parser

/-! ## The source -/

/-- How `skipspace` returns. -/
inductive Space
  | eof
  | eoln
  | char (al : UInt8)

/-- A pass of `skipspace`. -/
def skipStep : Parser (Unit ⊕ Space) := do
  match ← getc with
  | none => return .inr .eof
  | some al =>
    if al = 0x1a then return .inr .eof
    else if al = 0x0a then return .inr .eoln
    else if al ≤ 0x20 then return .inl ()
    else return .inr (.char al)

/-- `skipspace` -/
def skipspace (fuel : Nat) : Parser Space := .loop (fun _ => skipStep) fuel ()

/-- `getint` at `.getnum`, with `DI` counted from `NumBuf`. -/
def getnum : Parser (Fin 16) :=
  .loop (fun di : Fin 16 =>
    -- `NumBufEnd`
    if h : di.val + 1 < 16 then do
      match ← getc with
      | none => return .inr di
      | some al =>
        set .numBuf di [al] di.isLt
        if 0x2d ≤ al then return .inl ⟨di + 1, h⟩
        else
          ungetc al
          return .inr ⟨di + 1, h⟩
    else return .inr di) 16 0

/-- `getint`, with the number in `EBX`, or none for an error. -/
def getint (L : Layout) : Parser (Option UInt32) := do
  let di ← getnum
  set .numBuf di [0] di.isLt
  let seg ← look
  return (Boot.parseint false (bytesAt seg (L.addr .numBuf) 16)).bind Prod.fst

/-- The registers of `getline`. -/
structure Line where
  di : Nat
  /-- `DL`: there is nothing yet, or a blank is the last character. -/
  blank : Bool
  /-- The carry flag, at the end. -/
  cf : Bool

/-- A pass of `.fillloop`. -/
def fillStep (l : Line) : Parser (Line ⊕ Line) := do
  match ← getc with
  | none => return .inr { l with cf := true }
  | some al =>
    if 0x20 < al then
      stosb l.di [al]
      return .inl { l with di := l.di + 1, blank := false }
    else if al = 10 then return .inr l
    else if al = 26 then return .inr { l with cf := true }
    else if l.blank then return .inl l
    else
      stosb l.di [0x20]
      return .inl { l with di := l.di + 1, blank := true }

/-- `getline` at `.fillloop`. -/
def fillloop (fuel di : Nat) : Parser Line := .loop fillStep fuel ⟨di, true, false⟩

/-- `getline` at `.ret`. -/
def endline (l : Line) : Parser Line := do
  if l.blank then return l
  else
    stosb l.di [0x20]
    return { l with di := l.di + 1 }

/-- `getline` behind `skipspace`. -/
def lineFrom (fuel di : Nat) : Space → Parser Line
  | .eof => return ⟨di, true, true⟩
  | .eoln => return ⟨di, true, false⟩
  | .char al => do
    ungetc al
    let l ← fillloop fuel di
    endline l

/-- `getline`, with `DI` and the carry flag at the end. -/
def getline (fuel di : Nat) : Parser Line := do
  lineFrom fuel di (← skipspace fuel)

/-- `skipline`, with a character at hand. -/
def skipline (fuel : Nat) (al : UInt8) : Parser Unit :=
  .loop (fun al => do
    if al = 10 then return .inr ()
    else
      match ← getc with
      | none => return .inr ()
      | some al => return .inl al) fuel al

/-- `readc`, with the carry flag at the end. It is called with `CX` above zero. -/
def readc : Nat → Nat → Parser Bool
  | 0, _ => return false
  | cx + 1, di => do
    match ← getc with
    | none => return true
    | some al =>
      stosb di [al]
      readc cx (di + 1)

/-! ## What they leave -/

variable {φ : Type} {L : Layout} {env : Env L.toPlaces φ} {s : State φ} {files level : Nat}

theorem upholds_skipspace (fuel : Nat) (h : Stacked L s (files + 1) level 1) :
    Upholds L env (skipspace fuel) (fun _ s => Stacked L s (files + 1) level 0) s := by
  refine upholds_loop (fun _ s => Stacked L s (files + 1) level 1) (fun _ s h => ?_) fuel h
  refine (upholds_getc h).bind fun c s h => ?_
  cases c with
  | none => exact h
  | some al =>
    dsimp only
    split
    · exact h
    split
    · exact h
    split
    · exact h.mono (Nat.zero_le 1)
    · exact h

/-- A number ends with a character that is pushed back, or with the file or the buffer. -/
theorem upholds_getnum (h : Stacked L s (files + 1) level 1) :
    Upholds L env getnum (fun _ s => Stacked L s (files + 1) level 1) s := by
  refine upholds_loop (fun _ s => Stacked L s (files + 1) level 1) (fun di s h => ?_) 16 h
  split
  · refine (upholds_getc h).bind fun c s h => ?_
    cases c with
    | none => exact h.mono (Nat.zero_le 1)
    | some al =>
      refine (upholds_set h (Nat.zero_le 1)).bind fun _ s h => ?_
      split
      · exact h.mono (Nat.zero_le 1)
      · exact (upholds_ungetc h).bind fun _ s h => h
  · exact h

theorem upholds_getint (h : Stacked L s (files + 1) level 1) :
    Upholds L env (getint L) (fun _ s => Stacked L s (files + 1) level 1) s := by
  refine (upholds_getnum h).bind fun di s h => ?_
  refine (upholds_set h le_rfl).bind fun _ s h => ?_
  exact (upholds_look h le_rfl).bind fun _ s h => h

/-- The first character is the one that was pushed back. -/
theorem upholds_fillloop (fuel di : Nat) (h : Stacked L s (files + 1) level 1) :
    Upholds L env (fillloop fuel di) (fun _ s => Stacked L s (files + 1) level 0) s := by
  refine upholds_loop (fun _ s => Stacked L s (files + 1) level 1) (fun l s h => ?_) fuel h
  refine (upholds_getc h).bind fun c s h => ?_
  cases c with
  | none => exact h
  | some al =>
    have hagain := h.mono (Nat.zero_le 1)
    dsimp only
    split
    · exact (upholds_stosb hagain le_rfl).bind fun _ s h => h
    split
    · exact h
    split
    · exact h
    split
    · exact hagain
    · exact (upholds_stosb hagain le_rfl).bind fun _ s h => h

theorem upholds_getline (fuel di : Nat) (h : Stacked L s (files + 1) level 1) :
    Upholds L env (getline fuel di) (fun _ s => Stacked L s (files + 1) level 0) s := by
  refine (upholds_skipspace fuel h).bind fun c s h => ?_
  cases c with
  | eof => exact h
  | eoln => exact h
  | char al =>
    refine (upholds_ungetc h).bind fun _ s h => ?_
    refine (upholds_fillloop fuel di h).bind fun l s h => ?_
    unfold endline
    split
    · exact h
    · exact (upholds_stosb h (Nat.zero_le 1)).bind fun _ s h => h

theorem upholds_skipline (fuel : Nat) (al : UInt8) (h : Stacked L s (files + 1) level 1) :
    Upholds L env (skipline fuel al) (fun _ s => Stacked L s (files + 1) level 1) s := by
  refine upholds_loop (fun _ s => Stacked L s (files + 1) level 1) (fun al s h => ?_) fuel h
  split
  · exact h
  · refine (upholds_getc h).bind fun c s h => ?_
    cases c with
    | none => exact h.mono (Nat.zero_le 1)
    | some al => exact h.mono (Nat.zero_le 1)

/-- When it reads at all. -/
theorem upholds_readc {cx di : Nat} (hcx : 0 < cx) (h : Stacked L s (files + 1) level 1) :
    Upholds L env (readc cx di) (fun _ s => Stacked L s (files + 1) level 0) s := by
  induction cx generalizing di s with
  | zero => exact absurd hcx (Nat.lt_irrefl 0)
  | succ cx ih =>
    refine (upholds_getc h).bind fun c s h => ?_
    cases c with
    | none => exact h
    | some al =>
      refine (upholds_stosb h (Nat.zero_le 1)).bind fun _ s h => ?_
      rcases Nat.eq_zero_or_pos cx with rfl | hpos
      · exact h
      · exact ih hpos (h.mono (Nat.zero_le 1))

end Parser

end Liigboot.Getc
