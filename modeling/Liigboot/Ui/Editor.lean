import Liigboot.Ui.Prompt

/-!
# The prompt as a line editor

What the prompt is for: a line is typed, and loaded with Enter or when the time is over. The line
carries its bounds. Every run of `ui.inc` is a run of this editor, with the line at `command_line`,
and no store leaves that buffer.
-/

namespace Liigboot.Ui

open Liigboot.Config
open Liigboot.Boot (repeCmpsb)

/-! ## The editor -/

/-- A character that can be typed. -/
def Printable (c : UInt8) : Prop := 0x20 ≤ c ∧ c ≠ 0x7F

instance (c : UInt8) : Decidable (Printable c) := inferInstanceAs (Decidable (_ ∧ _))

/-- A line that fits, of characters that can be typed. -/
structure Line where
  chars : List UInt8
  length_le : chars.length ≤ maxCmdLen
  printable : ∀ c ∈ chars, Printable c

def Line.empty : Line := ⟨[], Nat.zero_le _, by simp⟩

/-- A character more, if there is space. -/
def Line.insert (line : Line) (c : UInt8) (h : Printable c) : Line :=
  if hroom : line.chars.length < maxCmdLen then
    { chars := line.chars ++ [c]
      length_le := by
        rw [List.length_append]
        exact hroom
      printable := by
        intro d hd
        rcases List.mem_append.mp hd with hd | hd
        · exact line.printable d hd
        · rwa [List.mem_singleton.mp hd] }
  else line

/-- The last character is erased. -/
def Line.erase (line : Line) : Line where
  chars := line.chars.dropLast
  length_le := by
    have := line.length_le
    simp
    omega
  printable := fun c hc => line.printable c (List.dropLast_subset _ hc)

/-- What a key does to the line, when it does not end it. -/
def Line.press (line : Line) (func : Bool) (al : UInt8) : Line :=
  if al = 0x08 ∨ al = 0x7F then line.erase
  else if h : Printable al then
    if func ∨ (al = 0x20 ∧ line.chars = []) then line else line.insert al h
  else line

/-- A line while it is typed: whether the next character chooses a function key, and how many ticks
are left of either timeout. -/
structure Typing where
  line : Line
  func : Bool
  kbd : Nat
  total : Nat

/-- Where the prompt is: at its line, at a text to load, at the report of a missing kernel, or at
the end. -/
inductive Session
  | typing (t : Typing)
  | loading (text : List UInt8)
  | failing
  | stuck

/-- How many ticks a timeout lasts. -/
def ticks (timeout : UInt32) : Nat := if timeout = 0 then 2 ^ 32 else timeout.toNat

variable (cfg : Settings)

def Session.fresh : Session :=
  .typing ⟨.empty, false, ticks cfg.kbdTimeout, ticks cfg.totalTimeout⟩

/-- The default command, if there is one. -/
def Session.boot : Session :=
  if cfg.defaultLevel ≠ 0 then .loading cfg.defaultCmd
  else if cfg.noEscape = 0 then .fresh cfg
  else .stuck

def Session.enter : Session := if cfg.noEscape = 0 then .fresh cfg else .boot cfg

def Session.start (kbdFlags : UInt8) : Session :=
  if kbdFlags &&& 0x5B = 0 ∧ (cfg.forcePrompt = 0 ∨ 1 < cfg.defaultLevel) then .boot cfg
  else .enter cfg

/-- A text is complete. -/
def Session.done (text : List UInt8) : Session :=
  if text = [] then .boot cfg else .loading (text ++ [0])

def Typing.tick (t : Typing) : Session :=
  if t.kbd = 1 ∨ t.total = 1 then .done cfg cfg.ontimeout
  else .typing { t with kbd := t.kbd - 1, total := t.total - 1 }

/-- Whether the next character chooses a function key. -/
def Typing.nextFunc (t : Typing) (al : UInt8) : Bool :=
  al = 0x06 || (!(Printable al && !(al = 0x20 && t.line.chars = [])) && t.func)

def Typing.press (t : Typing) (al : UInt8) : Session :=
  if al = 0x0D then .done cfg t.line.chars
  else if al = 0x15 ∨ al = 0x18 then .enter cfg
  else
    .typing { t with line := t.line.press t.func al, func := t.nextFunc al, kbd := 2 ^ 32 }

/-- The onerror text is there already. -/
def Settings.Begins (cfg : Settings) (commandLine : Nat → UInt8) : Prop :=
  (List.range cfg.onerror.length).map commandLine = cfg.onerror

instance (cfg : Settings) (commandLine : Nat → UInt8) : Decidable (cfg.Begins commandLine) :=
  inferInstanceAs (Decidable (_ = _))

/-- The onerror text in front of what there is, cut off behind the length of a line. -/
def Settings.retryText (cfg : Settings) (commandLine : Nat → UInt8) : List UInt8 :=
  cfg.onerror ++ (List.range (maxCmdLen - cfg.onerror.length)).map commandLine ++ [0]

/-- The onerror text is tried, unless it was. -/
def Session.retry (commandLine : Nat → UInt8) : Session :=
  if cfg.Begins commandLine then .failing else .loading (cfg.retryText commandLine)

def Session.step : Session → Event → Session
  | .typing t, .tick => t.tick cfg
  | .typing t, .key al _ => t.press cfg al
  | .loading _, .badKernel commandLine =>
    if cfg.onerror = [] then .failing else .retry cfg commandLine
  | .loading _, .abortLoad _ commandLine =>
    if cfg.onerror = [] then .enter cfg else .retry cfg commandLine
  | .loading _, .kill _ => .enter cfg
  | .failing, .report _ => if cfg.onerror = [] then .enter cfg else .failing
  | session, _ => session

def Session.run : Session → List Event → Session := List.foldl (Session.step cfg)

/-! ## The line in memory -/

/-- The bytes in front of `di`. -/
def State.typed (s : State) : List UInt8 := (List.range s.di).map s.commandLine

/-- All bytes behind `command_line` are those of another memory. -/
def Outside (old commandLine : Nat → UInt8) : Prop :=
  ∀ a, maxCmdLen + 2 ≤ a → commandLine a = old a

/-- A state of the prompt and one of the editor. -/
structure Editing (old : Nat → UInt8) (s : State) (t : Typing) : Prop where
  typed : s.typed = t.line.chars
  func : s.funcFlag = t.func
  kbd : ticks s.thisKbdTo = t.kbd
  total : ticks s.thisTotalTo = t.total
  outside : Outside old s.commandLine

/-- The prompt is where the editor is, and has stored nothing outside of `command_line`. -/
def Matches (old : Nat → UInt8) : Place → Session → Prop
  | .getChar s, .typing t => Editing old s t
  | .loadKernel s, .loading text => Holds s.commandLine 0 text ∧ Outside old s.commandLine
  | .really s, .failing => cfg.Begins s.commandLine ∧ Outside old s.commandLine
  | .kaboom s, .stuck => Outside old s.commandLine
  | _, _ => False

/-- Nothing of the line, the flag and the timeouts is changed, nor anything outside. -/
structure Keeps (s s' : State) : Prop where
  typed : s'.typed = s.typed
  func : s'.funcFlag = s.funcFlag
  kbd : s'.thisKbdTo = s.thisKbdTo
  total : s'.thisTotalTo = s.thisTotalTo
  outside : Outside s.commandLine s'.commandLine

variable {cfg} {s s' s'' : State} {old : Nat → UInt8} {t : Typing} {al : UInt8} {a : Nat}
  {cs text : List UInt8}

@[simp] theorem length_typed (s : State) : s.typed.length = s.di := by simp [State.typed]

theorem Outside.refl (old : Nat → UInt8) : Outside old old := fun _ _ => rfl

/-- What two changes leave alone outside of the command line, both together do. -/
theorem Outside.trans {mem mem' : Nat → UInt8} (h : Outside old mem) (h' : Outside mem mem') :
    Outside old mem' := fun a ha => (h' a ha).trans (h a ha)

/-- A store into the command line leaves what is behind it. -/
theorem outside_put {mem : Nat → UInt8} {b : UInt8} (h : a < maxCmdLen + 2) :
    Outside mem (put mem a b) := fun c hc => put_of_ne _ (by omega)

/-- A text that fits into the command line leaves what is behind it. -/
theorem outside_repMovsbFrom {mem : Nat → UInt8} (h : cs.length ≤ maxCmdLen + 2) :
    Outside mem (repMovsbFrom mem cs 0) := fun c hc => repMovsbFrom_of_ge (by omega)

theorem Keeps.refl (s : State) : Keeps s s := ⟨rfl, rfl, rfl, rfl, .refl _⟩

/-- Two steps that keep the line keep it together. -/
theorem Keeps.trans (h : Keeps s s') (h' : Keeps s' s'') : Keeps s s'' where
  typed := h'.typed.trans h.typed
  func := h'.func.trans h.func
  kbd := h'.kbd.trans h.kbd
  total := h'.total.trans h.total
  outside := h.outside.trans h'.outside

/-- The place for the next character is kept with the line. -/
theorem Keeps.di (h : Keeps s s') : s'.di = s.di := by
  rw [← length_typed, h.typed, length_typed]

/-- Writing to the screen keeps the line. -/
theorem keeps_write (s : State) (cs : List UInt8) : Keeps s (s.write cs) :=
  ⟨rfl, rfl, rfl, rfl, .refl _⟩

/-- A character behind the line is not a part of it. -/
theorem typed_put (s : State) (b : UInt8) :
    State.typed { s with commandLine := put s.commandLine s.di b } = s.typed := by
  refine List.map_congr_left fun i hi => put_of_ne _ (ne_of_lt ?_)
  exact List.mem_range.mp hi

/-- A character behind the line becomes its last one when `DI` goes on. -/
theorem typed_insert (s : State) (b : UInt8) :
    State.typed { s with commandLine := put s.commandLine s.di b, di := s.di + 1 } =
      s.typed ++ [b] := by
  have hfront := typed_put s b
  simp only [State.typed, List.range_succ, List.map_append] at *
  rw [hfront, List.map_singleton, put_self]

/-- When `DI` goes back the last character is gone. -/
theorem typed_erase (s : State) : State.typed { s with di := s.di - 1 } = s.typed.dropLast := by
  unfold State.typed
  cases s.di with
  | zero => rfl
  | succ n => simp [List.range_succ]

/-! ## Steps that keep the line -/

/-- Writing the prompt and the line again keeps the line. -/
theorem keeps_fkWrcmd (h : s.di ≤ maxCmdLen) : Keeps s (fkWrcmd s) where
  typed := typed_put s 0
  func := rfl
  kbd := rfl
  total := rfl
  outside := outside_put (by change s.di < _; omega)

/-- Displaying a message file keeps the line. -/
theorem keeps_showHelp {number : Option Nat} (h : s.di ≤ maxCmdLen) :
    Keeps s (showHelp cfg s number) := by
  unfold showHelp
  cases number.bind cfg.message with
  | none => exact Keeps.refl s
  | some m =>
    have hshown : Keeps s { s.write crlf with
      out := (s.write crlf).out ++ [.message m.row], usingVga := m.usingVga s.usingVga } :=
      ⟨rfl, rfl, rfl, rfl, .refl _⟩
    exact hshown.trans (keeps_fkWrcmd h)

/-- Displaying the version keeps the line. -/
theorem keeps_printVersion (h : s.di ≤ maxCmdLen) : Keeps s (printVersion cfg s) :=
  ((keeps_write s _).trans (keeps_write _ _)).trans (keeps_fkWrcmd h)

/-- Writing a list of names keeps the line. -/
theorem keeps_writeNames (names : List (List UInt8)) :
    Keeps s (names.foldl (fun s name => (s.write [0x20]).write name) s) := by
  induction names generalizing s with
  | nil => exact Keeps.refl s
  | cons name names ih =>
    exact ((keeps_write s _).trans (keeps_write _ name)).trans ih

/-- Listing the labels keeps the line. -/
theorem keeps_displayLabels (h : s.di ≤ maxCmdLen) : Keeps s (displayLabels cfg s) := by
  unfold displayLabels
  split_ifs with hcomplete
  · exact Keeps.refl s
  · have hlist := ((keeps_write s crlf).trans (keeps_writeNames ((cfg.store.displayLabels s.typed
      (cfg.labels.length + 1) cfg.highMemSize).getD []))).trans (keeps_write _ crlf)
    exact hlist.trans (keeps_fkWrcmd (by rwa [hlist.di]))

/-- Going back to the text mode keeps the line. -/
theorem keeps_vgaclearmode : Keeps s (vgaclearmode s) := by
  unfold vgaclearmode
  split_ifs with hvga
  · exact ⟨rfl, rfl, rfl, rfl, .refl _⟩
  · exact Keeps.refl s

/-- The editor is not touched by what keeps the line. -/
theorem Editing.of_keeps (h : Editing old s t) (hkeeps : Keeps s s') : Editing old s' t where
  typed := hkeeps.typed.trans h.typed
  func := hkeeps.func.trans h.func
  kbd := by rw [hkeeps.kbd, h.kbd]
  total := by rw [hkeeps.total, h.total]
  outside := h.outside.trans hkeeps.outside

/-! ## Ends of a line -/

/-- A prompt is a fresh session. -/
theorem matches_prompt (h : Outside old s.commandLine) : Matches cfg old (prompt cfg s) (.fresh cfg) :=
  ⟨rfl, rfl, rfl, rfl, h⟩

/-- The default command is loaded in both. -/
theorem matches_autoBoot (h : Outside old s.commandLine) :
    Matches cfg old (autoBoot cfg s) (.boot cfg) := by
  unfold autoBoot Session.boot
  by_cases hlevel : cfg.defaultLevel = 0
  · rw [if_pos hlevel, if_neg (not_not.mpr hlevel)]
    by_cases hescape : cfg.noEscape = 0
    · rw [if_pos hescape, if_pos hescape]
      exact matches_prompt h
    · rw [if_neg hescape, if_neg hescape]
      exact h
  · rw [if_neg hlevel, if_pos hlevel]
    have hlength := cfg.defaultCmd_length
    exact ⟨repMovsbFrom_holds _ _, h.trans (outside_repMovsbFrom (by omega))⟩

/-- Both start over, with a prompt or with the default command. -/
theorem matches_enterCommand (h : Outside old s.commandLine) :
    Matches cfg old (enterCommand cfg s) (.enter cfg) := by
  unfold enterCommand Session.enter
  split_ifs with hescape
  · exact matches_prompt h
  · exact matches_autoBoot h

/-- Both begin with a prompt or with the default command, by the state of the keys. -/
theorem matches_checkForKey {kbdFlags : UInt8} (h : Outside old s.commandLine) :
    Matches cfg old (checkForKey cfg kbdFlags s) (.start cfg kbdFlags) := by
  unfold checkForKey Session.start
  by_cases hflags : kbdFlags &&& 0x5B = 0
  · rw [if_neg (not_not.mpr hflags)]
    by_cases hforce : cfg.forcePrompt = 0
    · rw [if_pos hforce, if_pos ⟨hflags, .inl hforce⟩]
      exact matches_autoBoot h
    · by_cases hlevel : 1 < cfg.defaultLevel
      · rw [if_neg hforce, if_pos hlevel, if_pos ⟨hflags, .inr hlevel⟩]
        exact matches_autoBoot h
      · rw [if_neg hforce, if_neg hlevel, if_neg (by tauto)]
        exact matches_enterCommand h
  · rw [if_pos hflags, if_neg (by tauto)]
    exact matches_enterCommand h

/-- The typed characters are at the start of the command line. -/
theorem holds_typed (s : State) : Holds s.commandLine 0 s.typed := by
  intro i b hb
  have hi : i < s.di := by
    rw [← length_typed]
    exact (List.getElem?_eq_some_iff.mp hb).1
  rw [State.typed, List.getElem?_map, List.getElem?_range hi] at hb
  rw [Nat.zero_add]
  exact Option.some.inj hb

/-- A line that is entered is the text that the editor has chosen. -/
theorem matches_commandDone (hle : s.di ≤ maxCmdLen) (h : Outside old s.commandLine) :
    Matches cfg old (commandDone cfg s) (.done cfg s.typed) := by
  have hplace : commandDone cfg s =
      if s.di = 0 then autoBoot cfg (s.write crlf)
      else .loadKernel { s.write crlf with
        commandLine := put s.commandLine s.di 0, di := s.di + 1 } := rfl
  rw [hplace, Session.done]
  by_cases hdi : s.di = 0
  · rw [if_pos hdi, if_pos (List.eq_nil_of_length_eq_zero (by rwa [length_typed]))]
    exact matches_autoBoot h
  · rw [if_neg hdi, if_neg (fun hnil => hdi (by rw [← length_typed, hnil, List.length_nil]))]
    rw [← typed_insert s 0]
    exact ⟨holds_typed _, h.trans (outside_put (by omega))⟩

/-- A text that is copied to the command line is the line behind it. -/
theorem typed_repMovsbFrom : State.typed { s with
    commandLine := repMovsbFrom s.commandLine cs 0, di := cs.length } = cs := by
  have hholds := (@repMovsbFrom_holds _ s.commandLine cs 0).map_range
  simpa [State.typed] using hholds

/-- After a timeout both load the `ontimeout` text, or the default command. -/
theorem matches_timeout (hcfg : cfg.Fits) (h : Outside old s.commandLine) :
    Matches cfg old (timeout cfg s) (.done cfg cfg.ontimeout) := by
  have hle := hcfg.ontimeout_le
  rw [← @typed_repMovsbFrom s cfg.ontimeout]
  exact matches_commandDone hle (h.trans (outside_repMovsbFrom (by omega)))

/-! ## Steps -/

/-- A counter that reaches zero had one tick left; otherwise it has one less, and zero has all of
them. -/
theorem ticks_sub_one (timeout : UInt32) :
    (timeout - 1 = 0 ↔ ticks timeout = 1) ∧
      (timeout - 1 ≠ 0 → ticks (timeout - 1) = ticks timeout - 1) := by
  have hlt := timeout.toNat_lt
  have hsub : (timeout - 1).toNat = (2 ^ 32 - 1 + timeout.toNat) % 2 ^ 32 :=
    UInt32.toNat_sub timeout 1
  simp only [ticks, ne_eq, ← UInt32.toNat_inj, UInt32.toNat_zero] at *
  split_ifs
  · omega
  · omega
  · omega
  · omega

/-- A tick of the timer takes a tick from both timeouts of the editor. -/
theorem matches_tick (hcfg : cfg.Fits) (h : Editing old s t) :
    Matches cfg old (tick cfg s) (t.tick cfg) := by
  obtain ⟨hkbd, hkbd'⟩ := ticks_sub_one s.thisKbdTo
  obtain ⟨htotal, htotal'⟩ := ticks_sub_one s.thisTotalTo
  rw [h.kbd] at hkbd hkbd'
  rw [h.total] at htotal htotal'
  unfold tick Typing.tick
  by_cases h1 : s.thisKbdTo - 1 = 0
  · rw [if_pos h1, if_pos (.inl (hkbd.mp h1))]
    exact matches_timeout hcfg h.outside
  · rw [if_neg h1]
    by_cases h2 : s.thisTotalTo - 1 = 0
    · simp only [if_pos h2]
      rw [if_pos (.inr (htotal.mp h2))]
      exact matches_timeout hcfg h.outside
    · simp only [if_neg h2]
      rw [if_neg (by tauto)]
      exact ⟨h.typed, h.func, hkbd' h1, htotal' h2, h.outside⟩

/-- The line has room in its buffer. -/
theorem Editing.di_le (h : Editing old s t) : s.di ≤ maxCmdLen := by
  rw [← length_typed, h.typed]
  exact t.line.length_le

theorem Editing.di_eq_zero (h : Editing old s t) : s.di = 0 ↔ t.line.chars = [] := by
  rw [← length_typed, h.typed, List.length_eq_zero_iff]

/-- A backspace erases the last character of the line, if there is one. -/
theorem Editing.backspace (h : Editing old s t) :
    Editing old (backspace s) { t with line := t.line.erase } := by
  unfold Ui.backspace
  split_ifs with hdi
  · refine { h with typed := ?_ }
    change s.typed = t.line.chars.dropLast
    rw [h.typed, h.di_eq_zero.mp hdi]
    rfl
  · refine { h with typed := ?_ }
    change State.typed { s with di := s.di - 1 } = t.line.chars.dropLast
    rw [typed_erase, h.typed]

/-- A printable character comes behind the line, if there is room. -/
theorem Editing.insert (h : Editing old s t) (hal : Printable al) (hfunc : s.funcFlag = false) :
    Editing old (enterChar cfg s al) { t with line := t.line.insert al hal } := by
  have hlength : t.line.chars.length = s.di := by rw [← h.typed, length_typed]
  unfold enterChar
  rw [if_neg (by rw [hfunc]; exact Bool.false_ne_true), Line.insert]
  by_cases hroom : maxCmdLen ≤ s.di
  · rw [if_pos hroom, dif_neg (by omega)]
    exact h
  · rw [if_neg hroom, dif_pos (by omega)]
    refine { h with typed := ?_, outside := h.outside.trans (outside_put (by omega)) }
    change State.typed { s with commandLine := put s.commandLine s.di al, di := s.di + 1 } =
      t.line.chars ++ [al]
    rw [typed_insert, h.typed]

/-- A character behind Ctrl-F chooses a function key. -/
theorem Editing.choose (h : Editing old s t) (hfunc : s.funcFlag = true) :
    Editing old (enterChar cfg s al) { t with func := false } := by
  unfold enterChar
  rw [if_pos hfunc]
  have hcleared : Editing old { s with funcFlag := false } { t with func := false } :=
    { h with func := rfl }
  exact hcleared.of_keeps (keeps_showHelp h.di_le)

/-- A character that has no function and is not printable leaves the line. -/
theorem Typing.press_of_not_printable (hal : ¬Printable al) (henter : al ≠ 0x0D)
    (hkill : al ≠ 0x15) (htext : al ≠ 0x18) :
    t.press cfg al = .typing { t with
      line := if al = 0x08 ∨ al = 0x7F then t.line.erase else t.line
      func := al = 0x06 || t.func
      kbd := 2 ^ 32 } := by
  simp [Typing.press, Line.press, Typing.nextFunc, hal, henter, hkill, htext]

/-- A printable character is inserted, but for a blank in front. -/
theorem Typing.press_of_printable (hal : Printable al) (hfirst : ¬(al = 0x20 ∧ t.line.chars = [])) :
    t.press cfg al = .typing { t with
      line := if t.func then t.line else t.line.insert al hal
      func := false
      kbd := 2 ^ 32 } := by
  have hcontrol : ∀ c : UInt8, ¬Printable c → al ≠ c := fun c hc heq => hc (heq ▸ hal)
  simp [Typing.press, Line.press, Typing.nextFunc, hal, hfirst, hcontrol 0x0D (by decide),
    hcontrol 0x15 (by decide), hcontrol 0x18 (by decide), hcontrol 0x08 (by decide),
    hcontrol 0x7F (by decide), hcontrol 0x06 (by decide)]

/-- A control character. -/
theorem matches_notAscii (h : Editing old s t) (hal : al < 0x20)
    (hkbd : t.kbd = 2 ^ 32) : Matches cfg old (notAscii cfg s al) (t.press cfg al) := by
  have hprintable : ¬Printable al := fun hp => absurd hal (UInt8.not_lt.mpr hp.1)
  have hdel : al ≠ 0x7F := by
    rintro rfl
    exact absurd hal (by decide)
  have hsame : { t with kbd := 2 ^ 32 } = t := by rw [← hkbd]
  unfold notAscii
  by_cases henter : al = 0x0D
  · rw [if_pos henter, Typing.press, if_pos henter, ← h.typed]
    exact matches_commandDone h.di_le h.outside
  by_cases hkill : al = 0x15
  · subst hkill
    exact matches_enterCommand h.outside
  by_cases htext : al = 0x18
  · subst htext
    exact matches_enterCommand (h.of_keeps keeps_vgaclearmode).outside
  rw [Typing.press_of_not_printable hprintable henter hkill htext, if_neg henter, if_neg hkill,
    if_neg htext]
  simp only [hdel, or_false, ← hkbd]
  by_cases htab : al = 0x09
  · subst htab
    exact h.of_keeps (keeps_displayLabels h.di_le)
  by_cases hfunc : al = 0x06
  · subst hfunc
    exact { h with func := rfl }
  by_cases hversion : al = 0x16
  · subst hversion
    exact h.of_keeps (keeps_printVersion h.di_le)
  simp only [htab, hfunc, hversion, if_false, decide_false, Bool.false_or]
  by_cases hback : al = 0x08
  · rw [if_pos hback, if_pos hback]
    exact h.backspace
  · rw [if_neg hback, if_neg hback]
    exact h

/-- A key does to the prompt what it does to the editor. -/
theorem matches_gotChar (h : Editing old s t) (ah : UInt8) :
    Matches cfg old (gotChar cfg s al ah) (t.press cfg al) := by
  have hkey : Editing old { s with thisKbdTo := 0 } { t with kbd := 2 ^ 32 } := { h with kbd := rfl }
  have hpress : t.press cfg al = Typing.press cfg { t with kbd := 2 ^ 32 } al := rfl
  unfold gotChar
  by_cases hfunction : al = 0
  · subst hfunction
    exact hkey.of_keeps (keeps_showHelp hkey.di_le)
  by_cases hdel : al = 0x7F
  · subst hdel
    exact hkey.backspace
  by_cases hcontrol : al < 0x20
  · simp only [if_neg hfunction, if_neg hdel, if_pos hcontrol]
    rw [hpress]
    exact matches_notAscii hkey hcontrol rfl
  have hprintable : Printable al := ⟨UInt8.not_lt.mp hcontrol, hdel⟩
  simp only [if_neg hfunction, if_neg hdel, if_neg hcontrol]
  by_cases hfirst : al = 0x20 ∧ s.di = 0
  · rw [if_pos hfirst]
    obtain ⟨rfl, hdi⟩ := hfirst
    have hnil := h.di_eq_zero.mp hdi
    have hstays : t.press cfg 0x20 = .typing { t with kbd := 2 ^ 32 } := by
      simp [Typing.press, Line.press, Typing.nextFunc, hprintable, hnil]
    rw [hstays]
    exact hkey
  · rw [if_neg hfirst, Typing.press_of_printable hprintable (by rwa [← h.di_eq_zero])]
    cases hfunc : t.func with
    | true => exact hkey.choose (h.func.trans hfunc)
    | false =>
      have hinserted := @Editing.insert cfg _ _ _ _ hkey hprintable (h.func.trans hfunc)
      exact { hinserted with func := hinserted.func.trans hfunc }

/-! ## Loads that fail -/

/-- The comparison finds the `onerror` text when the command line begins with it. -/
theorem begins_iff {commandLine : Nat → UInt8} :
    cfg.Begins commandLine ↔ repeCmpsb commandLine cfg.onerror 0 = true := by
  rw [Boot.repeCmpsb_iff_holds]
  constructor
  · intro h i b hb
    have hi := (List.getElem?_eq_some_iff.mp hb).1
    rw [← h, List.getElem?_map, List.getElem?_range hi] at hb
    rw [Nat.zero_add]
    exact Option.some.inj hb
  · intro h
    simpa [Settings.Begins] using h.map_range

/-- A command line that begins with the `onerror` text is not tried once more. -/
theorem onError_of_begins (h : cfg.Begins s.commandLine) : onError cfg s = .really s :=
  if_pos (begins_iff.mp h)

/-- What a load leaves begins with the onerror text if what it was given does. -/
theorem begins_loaded (hcfg : cfg.Fits) (s : State) (commandLine : Nat → UInt8) :
    cfg.Begins (s.loaded commandLine).commandLine ↔ cfg.Begins commandLine := by
  have hle := hcfg.onerror_le
  have hsame : (List.range cfg.onerror.length).map (s.loaded commandLine).commandLine =
      (List.range cfg.onerror.length).map commandLine :=
    List.map_congr_left fun i hi => if_pos (by have := List.mem_range.mp hi; omega)
  rw [Settings.Begins, hsame, Settings.Begins]

/-- What a failed load leaves behind the command line is as before. -/
theorem outside_loaded (s : State) (commandLine : Nat → UInt8) :
    Outside s.commandLine (s.loaded commandLine).commandLine :=
  fun a ha => if_neg (by omega)

/-- Putting a text that fits in front of the command line leaves what is behind it. -/
theorem outside_onError {mem : Nat → UInt8} (hcfg : cfg.Fits) :
    Outside mem (Boot.onError cfg.onerror mem) := by
  have hle := hcfg.onerror_le
  intro a ha
  rw [Boot.onError_behind hle (by omega), if_neg (by omega), if_neg (by omega)]

/-- `on_error` leaves the text that is tried. -/
theorem holds_onError (hcfg : cfg.Fits) (s : State) (commandLine : Nat → UInt8) :
    Holds (Boot.onError cfg.onerror (s.loaded commandLine).commandLine) 0
      (cfg.retryText commandLine) := by
  have hle := hcfg.onerror_le
  rw [Settings.retryText, List.append_assoc, holds_append, holds_append, Nat.zero_add,
    List.length_map, List.length_range]
  refine ⟨repMovsbFrom_holds _ _, fun i b hb => ?_, ?_⟩
  · have hi : i < maxCmdLen - cfg.onerror.length := by
      simpa using (List.getElem?_eq_some_iff.mp hb).1
    rw [List.getElem?_map, List.getElem?_range hi] at hb
    rw [Boot.onError_behind hle (Nat.le_add_right _ _), if_pos (by omega), Nat.add_sub_cancel_left]
    exact (if_pos (by omega)).trans (Option.some.inj hb)
  · rw [holds_cons, Boot.onError_behind hle (by omega), if_neg (by omega), if_pos (by omega)]
    exact ⟨rfl, holds_nil _ _⟩

/-- The retry has the `onerror` text in front of the line that failed. -/
theorem matches_onError (hcfg : cfg.Fits) {commandLine : Nat → UInt8}
    (hline : s'.commandLine = (s.loaded commandLine).commandLine)
    (h : Outside old s.commandLine) :
    Matches cfg old (onError cfg s') (.retry cfg commandLine) := by
  have hloaded := h.trans (outside_loaded s commandLine)
  rw [← hline] at hloaded
  unfold Session.retry
  by_cases hbegins : cfg.Begins commandLine
  · have hbegins' := (begins_loaded hcfg s commandLine).mpr hbegins
    rw [← hline] at hbegins'
    rw [onError_of_begins hbegins', if_pos hbegins]
    exact ⟨hbegins', hloaded⟩
  · have hbegins' := mt (begins_loaded hcfg s commandLine).mp hbegins
    rw [← hline] at hbegins'
    rw [onError, if_neg (mt begins_iff.mpr hbegins'), if_neg hbegins, hline]
    exact ⟨holds_onError hcfg s commandLine, hline ▸ hloaded.trans (outside_onError hcfg)⟩

/-- A missing kernel leads to a retry in both if there is an `onerror` text. -/
theorem matches_badKernel (hcfg : cfg.Fits) (h : Outside old s.commandLine)
    (commandLine : Nat → UInt8) :
    Matches cfg old (badKernel cfg (s.loaded commandLine))
      (if cfg.onerror = [] then .failing else .retry cfg commandLine) := by
  unfold badKernel
  by_cases hnone : cfg.onerror = []
  · rw [if_pos hnone, if_pos (by rw [hnone]; rfl)]
    exact ⟨by rw [Settings.Begins, hnone]; rfl, h.trans (outside_loaded s commandLine)⟩
  · rw [if_neg hnone, if_neg (mt List.length_eq_zero_iff.mp hnone)]
    exact matches_onError hcfg rfl h

/-- A load that is given up leads to a retry or to a new prompt in both. -/
theorem matches_abortLoad (hcfg : cfg.Fits) (h : Outside old s.commandLine)
    (commandLine : Nat → UInt8) (msg : List UInt8) :
    Matches cfg old (abortLoad cfg (s.loaded commandLine) msg)
      (if cfg.onerror = [] then .enter cfg else .retry cfg commandLine) := by
  unfold abortLoad errorOrCommand
  by_cases hnone : cfg.onerror = []
  · rw [if_pos hnone, if_pos (by rw [hnone]; rfl)]
    exact matches_enterCommand (h.trans (outside_loaded s commandLine))
  · rw [if_neg hnone, if_neg (mt List.length_eq_zero_iff.mp hnone)]
    exact matches_onError hcfg rfl h

/-- The report of a missing kernel leads to the onerror text, which is there, so it is made again. -/
theorem matches_really (hbegins : cfg.Begins s.commandLine) (h : Outside old s.commandLine)
    (kernelName : List UInt8) :
    Matches cfg old (really cfg s kernelName)
      (if cfg.onerror = [] then .enter cfg else .failing) := by
  unfold really abortLoad errorOrCommand
  by_cases hnone : cfg.onerror = []
  · rw [if_pos hnone, if_pos (by rw [hnone]; rfl)]
    exact matches_enterCommand h
  · rw [if_neg hnone, if_neg (mt List.length_eq_zero_iff.mp hnone), onError_of_begins]
    · exact ⟨hbegins, h⟩
    · exact hbegins

/-! ## Runs -/

/-- One event does the same to the prompt and to the session. -/
theorem matches_step (hcfg : cfg.Fits) {place : Place} {session : Session}
    (h : Matches cfg old place session) (event : Event) :
    Matches cfg old (step cfg place event) (session.step cfg event) := by
  match place, session, h with
  | .getChar s, .typing t, h =>
    cases event with
    | tick => exact matches_tick hcfg h
    | key al ah => exact matches_gotChar h ah
    | badKernel commandLine => exact h
    | abortLoad msg commandLine => exact h
    | kill commandLine => exact h
    | report kernelName => exact h
  | .loadKernel s, .loading text, h =>
    cases event with
    | tick => exact h
    | key al ah => exact h
    | badKernel commandLine => exact matches_badKernel hcfg h.2 commandLine
    | abortLoad msg commandLine => exact matches_abortLoad hcfg h.2 commandLine msg
    | kill commandLine => exact matches_enterCommand (h.2.trans (outside_loaded s commandLine))
    | report kernelName => exact h
  | .really s, .failing, h =>
    cases event with
    | tick => exact h
    | key al ah => exact h
    | badKernel commandLine => exact h
    | abortLoad msg commandLine => exact h
    | kill commandLine => exact h
    | report kernelName => exact matches_really h.1 h.2 kernelName
  | .kaboom s, .stuck, h =>
    cases event with
    | tick => exact h
    | key al ah => exact h
    | badKernel commandLine => exact h
    | abortLoad msg commandLine => exact h
    | kill commandLine => exact h
    | report kernelName => exact h

/-- So does every sequence of events. -/
theorem matches_run (hcfg : cfg.Fits) {place : Place} {session : Session}
    (h : Matches cfg old place session) (events : List Event) :
    Matches cfg old (run cfg place events) (session.run cfg events) := by
  induction events generalizing place session with
  | nil => exact h
  | cons event events ih => exact ih (matches_step hcfg h event)

/-- From `check_for_key` on, whatever is typed, however long it takes and however loads fail, the
prompt is where the line editor is: `command_line` has the text of its line, or the text to load,
and no byte behind the buffer has been stored to, as long as the ontimeout and onerror texts fit. -/
theorem prompt_matches_editor (cfg : Settings) (hcfg : cfg.Fits) (kbdFlags : UInt8) (s : State)
    (events : List Event) :
    Matches cfg s.commandLine (run cfg (checkForKey cfg kbdFlags s) events)
      ((Session.start cfg kbdFlags).run cfg events) :=
  matches_run hcfg (matches_checkForKey (.refl _)) events

/-- Two ticks for the first key, three altogether, a text for the timeout, and one for errors. -/
def sampleSettings : Settings where
  totalTimeout := 3
  kbdTimeout := 2
  forcePrompt := 1
  noEscape := 0
  noComplete := 0
  defaultLevel := 0
  ontimeout := [0x78]
  onerror := [0x79, 0x20]
  defaultCmd := List.replicate (maxCmdLen + 1) 0
  store := Store.init 0x8000 0x100000 fun _ => 0
  highMemSize := 0x100000
  labels := []
  message := fun _ => none
  syslinuxBanner := []
  defaultCmd_length := List.length_replicate
  holds := rfl

/-- The texts of the sample fit. -/
theorem sampleSettings_fits : sampleSettings.Fits := ⟨by decide, by decide⟩

def sampleState : State := ⟨fun _ => 0, 0, false, 0, 0, false, []⟩

/-- The time is over, and there is no kernel, with the onerror text in front neither. -/
theorem prompt_matches_editor_sample :
    let events := [Event.tick, .tick, .badKernel fun _ => 0,
      .badKernel fun a => [0x79, 0x20].getD a 0, .report [0x79], .report [0x79]]
    Matches sampleSettings sampleState.commandLine
      (run sampleSettings (checkForKey sampleSettings 0 sampleState) events)
      ((Session.start sampleSettings 0).run sampleSettings events) :=
  prompt_matches_editor sampleSettings sampleSettings_fits 0 sampleState _

end Liigboot.Ui
