import Liigboot.Comcore.FormatInt

/-!
# Formatted output

`vsnprintf` is a state machine over the characters of the format. It is compared with a grammar of
directives: what a directive prints is a text, and the buffer gets as much of the texts as it has
room for, and a NUL.
-/

namespace Liigboot.Comcore

/-! ## The source -/

/-- An argument, as `va_arg` takes it. The pointer of `%n` is that of a place of its own. -/
inductive Arg where
  | word (v : UInt32)
  | longlong (v : UInt64)
  | string (s : Option (List UInt8))
  | target
  deriving DecidableEq, Repr

/-- `enum ranks`. -/
inductive Rank where
  | char
  | short
  | int
  | long
  | longlong
  deriving DecidableEq, Repr

/-- Canonicalize rank. -/
def canonicalRank (rank : Int) : Rank :=
  if rank ≤ -2 then .char
  else if rank = -1 then .short
  else if rank = 0 then .int
  else if rank = 1 then .long
  else .longlong

/-- The argument of `%d` and `%i`. -/
def signedArg : Rank → List Arg → Option (UInt64 × List Arg)
  | .char, .word v :: ap => some (v.toUInt8.toInt8.toInt64.toUInt64, ap)
  | .short, .word v :: ap => some (v.toUInt16.toInt16.toInt64.toUInt64, ap)
  | .int, .word v :: ap => some (v.toInt32.toInt64.toUInt64, ap)
  | .long, .word v :: ap => some (v.toInt32.toInt64.toUInt64, ap)
  | .longlong, .longlong v :: ap => some (v, ap)
  | _, _ => none

/-- The argument of `%o`, `%u`, `%x` and `%X`. -/
def unsignedArg : Rank → List Arg → Option (UInt64 × List Arg)
  | .char, .word v :: ap => some (v.toUInt8.toUInt64, ap)
  | .short, .word v :: ap => some (v.toUInt16.toUInt64, ap)
  | .int, .word v :: ap => some (v.toUInt64, ap)
  | .long, .word v :: ap => some (v.toUInt64, ap)
  | .longlong, .longlong v :: ap => some (v, ap)
  | _, _ => none

def nullText : List UInt8 := "(null)".toUTF8.data.toList

/-- Where an output modifier goes on. -/
inductive Item where
  -- `is_integer`
  | integer (val : UInt64) (flags : Flags) (base : Nat) (prec : Int)
  -- `is_string`, with the characters of the string
  | string (sarg : List UInt8) (prec : Int)
  -- `%n`
  | count (rank : Rank)
  -- Anything else, including %
  | other (ch : UInt8)
  deriving DecidableEq, Repr

/-- The argument of `%p` and `%P`. -/
def pointerArg : List Arg → Option (UInt64 × List Arg)
  | .word v :: ap => some (v.toUInt64, ap)
  | _ => none

/-- The argument of `%c`. -/
def charArg : List Arg → Option (List UInt8 × List Arg)
  | .word v :: ap => some ([v.toUInt8], ap)
  | _ => none

/-- The argument of `%s`. -/
def stringArg : List Arg → Option (List UInt8 × List Arg)
  | .string sarg :: ap => some (sarg.getD nullText, ap)
  | _ => none

/-- The argument of `%n`. -/
def targetArg : List Arg → Option (List Arg)
  | .target :: ap => some ap
  | _ => none

/-- To `is_integer`. -/
def isInteger (arg : Option (UInt64 × List Arg)) (flags : Flags) (base : Nat) (prec : Int) :
    Option (Item × List Arg) :=
  arg.map fun r => (.integer r.1 flags base prec, r.2)

/-- To `is_string`. The loop there counts `slen` down to zero. From a number below zero, which a
precision below -1 (an asterisk and digits behind it) or a string of 2 GB gives, it reads on behind
the string. -/
def isString (arg : Option (List UInt8 × List Arg)) (prec : Int) : Option (Item × List Arg) :=
  arg.bind fun r =>
    if prec < -1 ∨ 2 ^ 31 ≤ r.1.length then none else some (.string r.1 prec, r.2)

/-- Output modifiers: the argument is taken. -/
def outputModifier (ch : UInt8) (flags : Flags) (rank : Rank) (prec : Int) (ap : List Arg) :
    Option (Item × List Arg) :=
  if ch = 0x50 then -- 'P'
    isInteger (pointerArg ap) { flags with upper := true, hash := true } 16 8
  else if ch = 0x70 then -- 'p'
    isInteger (pointerArg ap) { flags with hash := true } 16 8
  else if ch = 0x64 ∨ ch = 0x69 then -- 'd', 'i'
    isInteger (signedArg rank ap) { flags with signed := true } 10 prec
  else if ch = 0x6F then -- 'o'
    isInteger (unsignedArg rank ap) flags 8 prec
  else if ch = 0x75 then -- 'u'
    isInteger (unsignedArg rank ap) flags 10 prec
  else if ch = 0x58 then -- 'X'
    isInteger (unsignedArg rank ap) { flags with upper := true } 16 prec
  else if ch = 0x78 then -- 'x'
    isInteger (unsignedArg rank ap) flags 16 prec
  else if ch = 0x63 then -- 'c'
    isString (charArg ap) prec
  else if ch = 0x73 then -- 's'
    isString (stringArg ap) prec
  else if ch = 0x6E then -- 'n'
    (targetArg ap).map fun ap => (.count rank, ap)
  else some (.other ch, ap)

/-- The states of `vsnprintf`. -/
inductive State where
  | normal
  | flags
  | width
  | prec
  | modifiers
  deriving DecidableEq, Repr

/-- The variables of `vsnprintf` that a directive sets. -/
structure Directive where
  flags : Flags
  rank : Int
  width : Int
  prec : Int
  deriving DecidableEq, Repr

/-- The variables of `vsnprintf`, and what `%n` has stored. -/
structure Vs extends Directive where
  state : State
  ap : List Arg
  out : Out
  counts : List (Rank × UInt32)

def noFlags : Flags := ⟨false, false, false, false, false, false, false, false⟩

/-- A directive at its `%`. -/
def Directive.start : Directive := ⟨noFlags, 0, 0, -1⟩

/-- `st_flags`: the flags with one more. -/
def Flags.add (flags : Flags) (ch : UInt8) : Option Flags :=
  if ch = 0x2D then some { flags with minus := true } -- '-'
  else if ch = 0x2B then some { flags with plus := true } -- '+'
  else if ch = 0x27 then some { flags with tick := true } -- '\''
  else if ch = 0x20 then some { flags with space := true } -- ' '
  else if ch = 0x23 then some { flags with hash := true } -- '#'
  else if ch = 0x30 then some { flags with zero := true } -- '0'
  else none

/-- A character between '0' and '9'. -/
def isDecimal (ch : UInt8) : Bool := 0x30 ≤ ch ∧ ch ≤ 0x39

/-- An `int` argument. -/
def intArg : List Arg → Option (Int × List Arg)
  | .word v :: ap => some (v.toInt32.toInt, ap)
  | _ => none

/-- A number as an `int` holds it. -/
def wrapInt (x : Int) : Int := x.bmod (2 ^ 32)

/-- A decimal number with one more digit. -/
def addDigit (x : Int) (ch : UInt8) : Int := x * 10 + (ch.toNat - 0x30 : Nat)

/-- The width of an asterisk. -/
def Directive.setWidth (d : Directive) (width : Int) : Directive :=
  if width < 0 then { d with width := wrapInt (-width), flags := { d.flags with minus := true } }
  else { d with width := width }

/-- `st_width` at a digit or an asterisk. -/
def addWidth (s : Directive × List Arg) (ch : UInt8) : Option (Directive × List Arg) :=
  if isDecimal ch then some ({ s.1 with width := wrapInt (addDigit s.1.width ch) }, s.2)
  else (intArg s.2).map fun r => (s.1.setWidth r.1, r.2)

/-- The precision of an asterisk. -/
def Directive.setPrec (d : Directive) (prec : Int) : Directive :=
  { d with prec := if prec < 0 then -1 else prec }

/-- `st_prec` at a digit or an asterisk. -/
def addPrec (s : Directive × List Arg) (ch : UInt8) : Option (Directive × List Arg) :=
  if isDecimal ch then some ({ s.1 with prec := wrapInt (addDigit s.1.prec ch) }, s.2)
  else (intArg s.2).map fun r => (s.1.setPrec r.1, r.2)

/-- A digit or an asterisk. -/
def isCount (ch : UInt8) : Bool := isDecimal ch || ch = 0x2A

/-- Length modifiers. -/
def addRank (rank : Int) (ch : UInt8) : Option Int :=
  if ch = 0x68 then some (wrapInt (rank - 1)) -- 'h': shorter rank
  else if ch = 0x6C then some (wrapInt (rank + 1)) -- 'l': longer rank
  else if ch = 0x6A then some 2 -- 'j'
  else if ch = 0x7A then some 1 -- 'z'
  else if ch = 0x74 then some 1 -- 't'
  else if ch = 0x4C ∨ ch = 0x71 then some (wrapInt (rank + 2)) -- 'L', 'q'
  else none

/-- `is_string`. -/
def printString (n : UInt32) (sarg : List UInt8) (flags : Flags) (width prec : Int) (out : Out) :
    Out :=
  let slen := if prec ≠ -1 ∧ sarg.length > prec then prec else sarg.length
  let early := decide (width > slen) && !flags.minus
  let out := if early then out.pad n (if flags.zero then 0x30 else 0x20) width slen else out
  let width := if early then slen else width
  let out := out.emitAll n (sarg.take slen.toNat)
  if decide (width > slen) && flags.minus then out.pad n 0x20 width slen else out

/-- `is_integer`. -/
def printInteger (n : UInt32) (val : UInt64) (flags : Flags) (base : Nat) (width prec : Int)
    (out : Out) : Out :=
  let sz := formatInt out.q (if out.o < n then n - out.o else 0) val flags base width prec out.mem
  { mem := sz.mem, q := out.q + sz.o.toNat, o := out.o + sz.o }

/-- What an output modifier does, its argument taken. -/
def Vs.print (n : UInt32) (s : Vs) : Item → Vs
  | .integer val flags base prec =>
    { s with out := printInteger n val flags base s.width prec s.out }
  | .string sarg prec => { s with out := printString n sarg s.flags s.width prec s.out }
  | .count rank => { s with counts := s.counts ++ [(rank, s.out.o)] }
  | .other ch => { s with out := s.out.emit n ch }

/-- `st_modifiers` at an output modifier. -/
def Vs.convert (n : UInt32) (ch : UInt8) (s : Vs) : Option Vs :=
  (outputModifier ch s.flags (canonicalRank s.rank) s.prec s.ap).map fun r =>
    Vs.print n { s with state := .normal, ap := r.2 } r.1

/-- `st_modifiers`. -/
def Vs.inModifiers (n : UInt32) (ch : UInt8) (s : Vs) : Option Vs :=
  match addRank s.rank ch with
  | some rank => some { s with rank := rank }
  | none => s.convert n ch

/-- `st_width`. Another character is processed again, in the next state. -/
def Vs.inWidth (n : UInt32) (ch : UInt8) (s : Vs) : Option Vs :=
  if isCount ch then
    (addWidth (s.toDirective, s.ap) ch).map fun r => { s with toDirective := r.1, ap := r.2 }
  else if ch = 0x2E then some { s with prec := 0, state := .prec }
  else { s with state := .modifiers }.inModifiers n ch

/-- `st_prec`. -/
def Vs.inPrec (n : UInt32) (ch : UInt8) (s : Vs) : Option Vs :=
  if isCount ch then
    (addPrec (s.toDirective, s.ap) ch).map fun r => { s with toDirective := r.1, ap := r.2 }
  else { s with state := .modifiers }.inModifiers n ch

/-- `st_flags`. -/
def Vs.inFlags (n : UInt32) (ch : UInt8) (s : Vs) : Option Vs :=
  match s.flags.add ch with
  | some flags => some { s with flags := flags }
  | none => { s with state := .width }.inWidth n ch

/-- A character of the format. -/
def Vs.step (n : UInt32) (s : Vs) (ch : UInt8) : Option Vs :=
  match s.state with
  | .normal =>
    if ch = 0x25 then some { s with toDirective := .start, state := .flags }
    else some { s with out := s.out.emit n ch }
  | .flags => s.inFlags n ch
  | .width => s.inWidth n ch
  | .prec => s.inPrec n ch
  | .modifiers => s.inModifiers n ch

/-- What is printed, the arguments that are left, and what `%n` stores. -/
structure Rendered where
  text : List UInt8
  ap : List Arg
  counts : List (Rank × UInt32)
  deriving DecidableEq, Repr

/-- The characters of a string that are shown. -/
def shown (sarg : List UInt8) (prec : Int) : List UInt8 :=
  if prec = -1 then sarg else sarg.take prec.toNat

/-- A string as it is to be printed: the padding is on the right, or on the left. -/
def stringText (sarg : List UInt8) (flags : Flags) (width prec : Int) : List UInt8 :=
  let padding := fun x : UInt8 => List.replicate (width - (shown sarg prec).length).toNat x
  if flags.minus then shown sarg prec ++ padding 0x20
  else padding (if flags.zero then 0x30 else 0x20) ++ shown sarg prec

/-- What an output modifier prints. -/
def Item.render (d : Directive) (r : Rendered) : Item → Rendered
  | .integer val flags base prec => { r with text := r.text ++ intText val flags base d.width prec }
  | .string sarg prec => { r with text := r.text ++ stringText sarg d.flags d.width prec }
  | .count rank => { r with counts := r.counts ++ [(rank, UInt32.ofNat r.text.length)] }
  | .other ch => { r with text := r.text ++ [ch] }

def isFlag (ch : UInt8) : Bool := (noFlags.add ch).isSome

def isModifier (ch : UInt8) : Bool := (addRank 0 ch).isSome

/-- The flags that are there. -/
def Flags.ofChars (fs : List UInt8) : Flags where
  zero := fs.contains 0x30
  minus := fs.contains 0x2D
  plus := fs.contains 0x2B
  tick := fs.contains 0x27
  space := fs.contains 0x20
  hash := fs.contains 0x23
  signed := false
  upper := false

/-- Length modifiers and an output modifier. A directive that the format ends in prints nothing. -/
def renderModifiers (cs : List UInt8) (d : Directive) (r : Rendered) :
    Option (Rendered × List UInt8) :=
  let rank := (cs.takeWhile isModifier).foldl (fun rank ch => (addRank rank ch).getD rank) d.rank
  match cs.dropWhile isModifier with
  | [] => some (r, [])
  | ch :: rest =>
    (outputModifier ch d.flags (canonicalRank rank) d.prec r.ap).map fun s =>
      (s.1.render d { r with ap := s.2 }, rest)

/-- A number that an `int` has room for. -/
def fitsInt (x : Int) : Bool := -2 ^ 31 ≤ x ∧ x < 2 ^ 31

/-- A field width with one more digit, or that of an argument. -/
def widthOf (s : Directive × List Arg) (ch : UInt8) : Option (Directive × List Arg) :=
  if isDecimal ch then
    if fitsInt (addDigit s.1.width ch) then
      some ({ s.1 with width := addDigit s.1.width ch }, s.2)
    else none
  else (intArg s.2).bind fun r => if fitsInt (-r.1) then some (s.1.setWidth r.1, r.2) else none

/-- A precision with one more digit, or that of an argument. -/
def precOf (s : Directive × List Arg) (ch : UInt8) : Option (Directive × List Arg) :=
  if isDecimal ch then
    if fitsInt (addDigit s.1.prec ch) then
      some ({ s.1 with prec := addDigit s.1.prec ch }, s.2)
    else none
  else (intArg s.2).map fun r => (s.1.setPrec r.1, r.2)

/-- The field precision, behind a period: digits, or an asterisk for an argument. -/
def renderPrec (cs : List UInt8) (d : Directive) (r : Rendered) : Option (Rendered × List UInt8) :=
  if cs.head? = some 0x2E then
    ((cs.tail.takeWhile isCount).foldlM precOf ({ d with prec := 0 }, r.ap)).bind fun s =>
      renderModifiers (cs.tail.dropWhile isCount) s.1 { r with ap := s.2 }
  else renderModifiers cs d r

/-- The field width: digits, or an asterisk for an argument. -/
def renderWidth (cs : List UInt8) (d : Directive) (r : Rendered) :
    Option (Rendered × List UInt8) :=
  ((cs.takeWhile isCount).foldlM widthOf (d, r.ap)).bind fun s =>
    renderPrec (cs.dropWhile isCount) s.1 { r with ap := s.2 }

/-- A directive behind its `%`: flags, field width, precision and modifiers. -/
def renderDirective (cs : List UInt8) (r : Rendered) : Option (Rendered × List UInt8) :=
  renderWidth (cs.dropWhile isFlag) { Directive.start with flags := .ofChars (cs.takeWhile isFlag) }
    r

theorem length_dropWhile_le (p : UInt8 → Bool) (cs : List UInt8) :
    (cs.dropWhile p).length ≤ cs.length :=
  (List.dropWhile_sublist p).length_le

theorem renderModifiers_length {cs rest : List UInt8} {d : Directive} {r r' : Rendered}
    (h : renderModifiers cs d r = some (r', rest)) : rest.length ≤ cs.length := by
  have hdrop := length_dropWhile_le isModifier cs
  unfold renderModifiers at h
  split at h
  next heq =>
    cases h
    exact Nat.zero_le _
  next ch rest' heq =>
    rw [heq, List.length_cons] at hdrop
    obtain ⟨⟨item, ap⟩, -, hitem⟩ := Option.map_eq_some_iff.mp h
    cases hitem
    omega

theorem renderPrec_length {cs rest : List UInt8} {d : Directive} {r r' : Rendered}
    (h : renderPrec cs d r = some (r', rest)) : rest.length ≤ cs.length := by
  have hprec := length_dropWhile_le isCount cs.tail
  unfold renderPrec at h
  split at h
  · obtain ⟨⟨d, ap⟩, -, h⟩ := Option.bind_eq_some_iff.mp h
    have hrest := renderModifiers_length h
    rw [List.length_tail] at hprec
    omega
  · exact renderModifiers_length h

theorem renderDirective_length {cs rest : List UInt8} {r r' : Rendered}
    (h : renderDirective cs r = some (r', rest)) : rest.length ≤ cs.length := by
  have hflags := length_dropWhile_le isFlag cs
  have hwidth := length_dropWhile_le isCount (cs.dropWhile isFlag)
  unfold renderDirective renderWidth at h
  obtain ⟨⟨d, ap⟩, -, h⟩ := Option.bind_eq_some_iff.mp h
  have hrest := renderPrec_length h
  omega

/-- What a format prints: its characters, and in place of its directives what those print. -/
def render (cs : List UInt8) (r : Rendered) : Option Rendered :=
  match cs with
  | [] => some r
  | ch :: cs =>
    if ch = 0x25 then
      match _h : renderDirective cs r with
      | none => none
      | some (r, rest) => render rest r
    else render cs { r with text := r.text ++ [ch] }
termination_by cs.length
decreasing_by
  · exact Nat.lt_succ_of_le (renderDirective_length _h)
  · exact Nat.lt_succ_self _

end Liigboot.Comcore
