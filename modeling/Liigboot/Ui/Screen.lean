import Liigboot.Ui.Editor

/-!
# What the prompt shows

The trace of what was written gives the row of the cursor, on a row without a right end. While the
prompt waits for a key, it ends with the prompt and the line, whatever was erased, listed or
displayed in between.
-/

namespace Liigboot.Ui

open Liigboot.Config

/-- The row of the cursor after an output. -/
def Output.show (row : TextRow) : Output → TextRow
  | .text cs => row.writeAll cs
  | .message row => row
  | .textMode => ⟨[], []⟩

/-- The row of the cursor. -/
def State.row (s : State) : TextRow := s.out.foldl Output.show ⟨[], []⟩

/-- No file for a function key leaves anything behind the cursor. -/
def Settings.Clean (cfg : Settings) : Prop := ∀ number m, cfg.message number = some m → m.row.Blank

/-- The row of the cursor ends with the prompt and a line. With a clean start, nothing is behind. -/
structure Shows (clean : Prop) (s : State) (line : List UInt8) : Prop where
  left : ∃ before, s.row.left = before ++ (bootPrompt ++ line)
  blank : clean → s.row.Blank

/-- While the prompt waits for a key, it shows what was typed. -/
def Displayed (clean : Prop) : Place → Prop
  | .getChar s => Shows clean s s.typed
  | _ => True

variable {cfg : Settings} {clean : Prop} {s s' : State} {old : Nat → UInt8} {t : Typing}
  {al : UInt8} {cs line : List UInt8}

/-! ## The row -/

/-- Text that is written is written to the row of the cursor. -/
@[simp] theorem row_write (s : State) (cs : List UInt8) :
    (s.write cs).row = s.row.writeAll cs := by
  simp [State.row, State.write, Output.show]

/-- Printable characters are shown as they are. -/
theorem Printable.shown {c : UInt8} (h : Printable c) : Shown c := by
  have hge := h.1
  refine ⟨?_, ?_, ?_⟩
  · rintro rfl
    exact absurd hge (by decide)
  · rintro rfl
    exact absurd hge (by decide)
  · rintro rfl
    exact absurd hge (by decide)

/-- The prompt is shown as it is. -/
theorem shown_bootPrompt : ∀ c ∈ bootPrompt, Shown c := by
  simp [bootPrompt, Shown]

/-- The line consists of printable characters. -/
theorem Editing.printable (h : Editing old s t) : ∀ c ∈ s.typed, Printable c := by
  rw [h.typed]
  exact t.line.printable

theorem blank_nil : TextRow.Blank ⟨[], []⟩ := by simp [TextRow.Blank]

/-- Behind CR and LF, the row is blank. -/
theorem blank_crlf (s : State) (cs : List UInt8) : (s.write (cs ++ crlf)).row.Blank := by
  rw [row_write, TextRow.writeAll_append]
  exact blank_nil

/-! ## The prompt is written -/

/-- Up to the NUL that is stored behind it, the line is what was typed. -/
theorem line_put (h : Editing old s t) :
    State.line { s with commandLine := put s.commandLine s.di 0 } = s.typed := by
  have hdi := h.di_le
  have hsplit : maxCmdLen + 2 = s.di + 1 + (maxCmdLen + 1 - s.di) := by omega
  have hne : ∀ c ∈ s.typed, (c != 0) = true := by
    intro c hc
    have hge := (h.printable c hc).1
    rw [bne_iff_ne]
    rintro rfl
    exact absurd hge (by decide)
  have hfront : (List.range (s.di + 1)).map (put s.commandLine s.di 0) = s.typed ++ [0] :=
    typed_insert s 0
  change cString ((List.range (maxCmdLen + 2)).map (put s.commandLine s.di 0)) = s.typed
  rw [cString, hsplit, List.range_add, List.map_append, hfront, List.append_assoc,
    List.takeWhile_append_of_pos hne]
  simp

/-- A new prompt shows the empty line. -/
theorem displayed_prompt (hblank : clean → s.row.Blank) : Displayed clean (prompt cfg s) := by
  have hrow : State.row { s.write bootPrompt with
      funcFlag := false
      di := 0
      thisTotalTo := cfg.totalTimeout
      thisKbdTo := cfg.kbdTimeout } = s.row.writeAll bootPrompt := row_write s bootPrompt
  refine ⟨⟨s.row.left, ?_⟩, fun h => ?_⟩
  · rw [hrow, TextRow.writeAll_shown shown_bootPrompt]
    simp [State.typed]
  · rw [hrow]
    exact (hblank h).writeAll shown_bootPrompt

/-- The prompt and the line are shown after they were written again. -/
theorem shows_fkWrcmd (h : Editing old s t) (hblank : clean → s.row.Blank) :
    Shows clean (fkWrcmd s) s.typed := by
  have hshown : ∀ c ∈ s.typed, Shown c := fun c hc => (h.printable c hc).shown
  have hrow : (fkWrcmd s).row = (s.row.writeAll bootPrompt).writeAll s.typed := by
    have hline := line_put (h.of_keeps (keeps_write s bootPrompt))
    rw [fkWrcmd, row_write]
    change ((s.write bootPrompt).row.writeAll _) = _
    rw [row_write]
    exact congrArg _ hline
  refine ⟨⟨s.row.left, ?_⟩, fun hclean => ?_⟩
  · rw [hrow, TextRow.writeAll_shown hshown, TextRow.writeAll_shown shown_bootPrompt,
      List.append_assoc]
  · rw [hrow]
    exact ((hblank hclean).writeAll shown_bootPrompt).writeAll hshown

/-! ## Steps -/

/-- The line is shown behind a message file. -/
theorem shows_showHelp {number : Option Nat} (hclean : clean → cfg.Clean) (h : Editing old s t)
    (hs : Shows clean s s.typed) : Shows clean (showHelp cfg s number) s.typed := by
  unfold showHelp
  cases hmessage : number.bind cfg.message with
  | none => exact hs
  | some m =>
    obtain ⟨i, -, hm⟩ := Option.bind_eq_some_iff.mp hmessage
    have hshown : Keeps s { s.write crlf with
      out := (s.write crlf).out ++ [.message m.row], usingVga := m.usingVga s.usingVga } :=
      ⟨rfl, rfl, rfl, rfl, .refl _⟩
    refine shows_fkWrcmd (h.of_keeps hshown) fun hclean' => ?_
    simpa [State.row, Output.show] using hclean hclean' i m hm

/-- The line is shown behind the version. -/
theorem shows_printVersion (h : Editing old s t) : Shows clean (printVersion cfg s) s.typed :=
  shows_fkWrcmd ((h.of_keeps (keeps_write s _)).of_keeps (keeps_write _ _))
    fun _ => blank_crlf _ _

/-- The line is shown behind the labels. -/
theorem shows_displayLabels (h : Editing old s t) (hs : Shows clean s s.typed) :
    Shows clean (displayLabels cfg s) s.typed := by
  unfold displayLabels
  split_ifs with hcomplete
  · exact hs
  · have hlist := (keeps_write s crlf).trans (keeps_writeNames ((cfg.store.displayLabels s.typed
      (cfg.labels.length + 1) cfg.highMemSize).getD []))
    rw [← hlist.typed]
    exact shows_fkWrcmd ((h.of_keeps hlist).of_keeps (keeps_write _ crlf)) fun _ => blank_crlf _ []

/-- The line without its last character is shown. -/
theorem shows_backspace (hs : Shows clean s s.typed) :
    Shows clean (backspace s) (backspace s).typed := by
  unfold backspace
  split_ifs with hdi
  · exact hs
  obtain ⟨before, hleft⟩ := hs.left
  obtain ⟨init, c, hline⟩ : ∃ init c, s.typed = init ++ [c] := by
    refine (List.eq_nil_or_concat' s.typed).resolve_left fun hnil => hdi ?_
    rw [← length_typed, hnil, List.length_nil]
  have htyped : State.typed { s with di := s.di - 1 } = init := by
    rw [typed_erase, hline, List.dropLast_concat]
  have hrow : State.row ({ s with di := s.di - 1 }.write wipeChar) =
      ⟨before ++ (bootPrompt ++ init), 0x20 :: s.row.right⟩ := by
    rw [row_write]
    change TextRow.writeAll ⟨s.row.left, s.row.right⟩ wipeChar = _
    rw [hleft, hline, ← List.append_assoc, ← List.append_assoc]
    rw [wipeChar, @TextRow.writeAll_wipe s.row, List.append_assoc]
  refine ⟨⟨before, ?_⟩, fun hclean => ?_⟩
  · rw [hrow]
    exact congrArg (fun line => before ++ (bootPrompt ++ line)) htyped.symm
  · rw [hrow]
    exact List.forall_mem_cons.mpr ⟨rfl, hs.blank hclean⟩

/-- The line with the new character is shown. -/
theorem shows_enterChar (hclean : clean → cfg.Clean) (h : Editing old s t) (hal : Printable al)
    (hs : Shows clean s s.typed) : Shows clean (enterChar cfg s al) (enterChar cfg s al).typed := by
  unfold enterChar
  split_ifs with hfunc hroom
  · have hcleared : Editing old { s with funcFlag := false } { t with func := false } :=
      { h with func := rfl }
    rw [(keeps_showHelp hcleared.di_le).typed]
    exact shows_showHelp hclean hcleared ⟨hs.left, hs.blank⟩
  · exact hs
  · obtain ⟨before, hleft⟩ := hs.left
    have htyped := typed_insert s al
    have hrow : State.row ({ s with
        commandLine := put s.commandLine s.di al, di := s.di + 1 }.write [al]) =
        s.row.writeAll [al] := row_write _ _
    have hal' : ∀ c ∈ [al], Shown c := by simpa using hal.shown
    refine ⟨⟨before, ?_⟩, fun hclean => ?_⟩
    · rw [hrow, TextRow.writeAll_shown hal', hleft, List.append_assoc, List.append_assoc]
      exact congrArg (fun line => before ++ (bootPrompt ++ line)) htyped.symm
    · rw [hrow]
      exact (hs.blank hclean).writeAll hal'

/-! ## Ends of a line -/

/-- There is nothing to show while a default command is loaded. -/
theorem displayed_autoBoot : Displayed clean (autoBoot cfg s) := by
  unfold autoBoot
  by_cases hlevel : cfg.defaultLevel = 0
  · rw [if_pos hlevel]
    by_cases hescape : cfg.noEscape = 0
    · simp only [if_pos hescape]
      exact displayed_prompt fun _ => blank_crlf s noDefaultText
    · simp only [if_neg hescape]
      exact trivial
  · rw [if_neg hlevel]
    exact trivial

/-- A new start shows the empty line, if it waits. -/
theorem displayed_enterCommand (hblank : clean → s.row.Blank) :
    Displayed clean (enterCommand cfg s) := by
  unfold enterCommand
  split_ifs with hescape
  · exact displayed_prompt hblank
  · exact displayed_autoBoot

/-- The first prompt shows the empty line. -/
theorem displayed_checkForKey {kbdFlags : UInt8} (hblank : clean → s.row.Blank) :
    Displayed clean (checkForKey cfg kbdFlags s) := by
  unfold checkForKey
  split_ifs with hflags hforce hlevel
  · exact displayed_enterCommand hblank
  · exact displayed_autoBoot
  · exact displayed_autoBoot
  · exact displayed_enterCommand hblank

/-- There is nothing to show while a line is loaded. -/
theorem displayed_commandDone : Displayed clean (commandDone cfg s) := by
  unfold commandDone
  by_cases hdi : (s.write crlf).di = 0
  · simp only [if_pos hdi]
    exact displayed_autoBoot
  · simp only [if_neg hdi]
    exact trivial

/-- A tick does not change what is shown. -/
theorem displayed_tick (hs : Shows clean s s.typed) : Displayed clean (tick cfg s) := by
  unfold tick
  by_cases hkbd : s.thisKbdTo - 1 = 0
  · simp only [if_pos hkbd]
    exact displayed_commandDone
  · simp only [if_neg hkbd]
    by_cases htotal : s.thisTotalTo - 1 = 0
    · simp only [if_pos htotal]
      exact displayed_commandDone
    · simp only [if_neg htotal]
      exact ⟨hs.left, hs.blank⟩

/-- The line is shown after a key without a character. -/
theorem displayed_notAscii (h : Editing old s t) (hs : Shows clean s s.typed) :
    Displayed clean (notAscii cfg s al) := by
  unfold notAscii
  split_ifs
  · exact displayed_commandDone
  · rw [Displayed, (keeps_displayLabels h.di_le).typed]
    exact shows_displayLabels h hs
  · exact ⟨hs.left, hs.blank⟩
  · exact displayed_enterCommand fun _ => blank_crlf s []
  · rw [Displayed, (keeps_printVersion h.di_le).typed]
    exact shows_printVersion h
  · refine displayed_enterCommand fun hclean => ?_
    unfold vgaclearmode
    split_ifs
    · simp [State.row, Output.show, blank_nil]
    · exact hs.blank hclean
  · exact shows_backspace hs
  · exact hs

/-- The line is shown after every key. -/
theorem displayed_gotChar (hclean : clean → cfg.Clean) (h : Editing old s t)
    (hs : Shows clean s s.typed) (ah : UInt8) : Displayed clean (gotChar cfg s al ah) := by
  have hkey : Editing old { s with thisKbdTo := 0 } { t with kbd := 2 ^ 32 } := { h with kbd := rfl }
  have hshows : Shows clean { s with thisKbdTo := 0 } (State.typed { s with thisKbdTo := 0 }) :=
    ⟨hs.left, hs.blank⟩
  unfold gotChar
  generalize { s with thisKbdTo := 0 } = s' at hkey hshows
  simp only
  split_ifs with hfunction hdel hcontrol hfirst
  · rw [Displayed, (keeps_showHelp hkey.di_le).typed]
    exact shows_showHelp hclean hkey hshows
  · exact shows_backspace hshows
  · exact displayed_notAscii hkey hshows
  · exact hshows
  · exact shows_enterChar hclean hkey ⟨UInt8.not_lt.mp hcontrol, hdel⟩ hshows

/-! ## Loads that fail -/

/-- There is nothing to show while the `onerror` text is loaded. -/
theorem displayed_onError : Displayed clean (onError cfg s) := by
  unfold onError
  split_ifs
  · exact trivial
  · exact trivial

/-- Nothing waits after a missing kernel. -/
theorem displayed_badKernel : Displayed clean (badKernel cfg s) := by
  unfold badKernel
  split_ifs
  · exact trivial
  · exact displayed_onError

/-- A prompt behind a load that was given up shows the empty line. -/
theorem displayed_abortLoad (msg : List UInt8) : Displayed clean (abortLoad cfg s msg) := by
  unfold abortLoad errorOrCommand
  split_ifs
  · exact displayed_enterCommand fun _ => blank_crlf s msg
  · exact displayed_onError

/-! ## Runs -/

/-- What is displayed stays right with one event. -/
theorem displayed_step (hclean : clean → cfg.Clean) {place : Place} {session : Session}
    (h : Matches cfg old place session) (hplace : Displayed clean place) (event : Event) :
    Displayed clean (step cfg place event) := by
  match place, session, h with
  | .getChar s, .typing t, h =>
    cases event with
    | tick => exact displayed_tick hplace
    | key al ah => exact displayed_gotChar hclean h hplace ah
    | badKernel commandLine => exact hplace
    | abortLoad msg commandLine => exact hplace
    | kill commandLine => exact hplace
    | report kernelName => exact hplace
  | .loadKernel s, .loading text, h =>
    cases event with
    | tick => exact trivial
    | key al ah => exact trivial
    | badKernel commandLine => exact displayed_badKernel
    | abortLoad msg commandLine => exact displayed_abortLoad msg
    | kill commandLine => exact displayed_enterCommand fun _ => blank_crlf _ abortedText
    | report kernelName => exact trivial
  | .really s, .failing, h =>
    cases event with
    | tick => exact trivial
    | key al ah => exact trivial
    | badKernel commandLine => exact trivial
    | abortLoad msg commandLine => exact trivial
    | kill commandLine => exact trivial
    | report kernelName => exact displayed_abortLoad []
  | .kaboom s, .stuck, h =>
    cases event with
    | tick => exact trivial
    | key al ah => exact trivial
    | badKernel commandLine => exact trivial
    | abortLoad msg commandLine => exact trivial
    | kill commandLine => exact trivial
    | report kernelName => exact trivial

/-- It stays right with every sequence of events. -/
theorem displayed_run (hcfg : cfg.Fits) (hclean : clean → cfg.Clean) {place : Place}
    {session : Session} (h : Matches cfg old place session) (hplace : Displayed clean place)
    (events : List Event) : Displayed clean (run cfg place events) := by
  induction events generalizing place session with
  | nil => exact hplace
  | cons event events ih =>
    exact ih (matches_step hcfg h event) (displayed_step hclean h hplace event)

/-- Whenever the prompt waits for a key, whatever was typed, erased, listed or displayed before, the
row of the cursor ends with the prompt and the line at `command_line`. If the row was blank from
the cursor on at the start, and is behind each file for a function key, then it is blank. -/
theorem prompt_displays_line (cfg : Settings) (hcfg : cfg.Fits) (kbdFlags : UInt8) (s : State)
    (events : List Event) :
    Displayed (s.row.Blank ∧ cfg.Clean) (run cfg (checkForKey cfg kbdFlags s) events) :=
  displayed_run hcfg And.right (matches_checkForKey (.refl s.commandLine))
    (displayed_checkForKey And.left) events

/-- Two characters, of which one is erased, and a help key without a file. -/
theorem prompt_displays_line_sample :
    Displayed (sampleState.row.Blank ∧ sampleSettings.Clean)
      (run sampleSettings (checkForKey sampleSettings 0 sampleState)
        [.key 0x61 0, .key 0x62 0, .key 0x08 0, .key 0 0x3B]) :=
  prompt_displays_line sampleSettings sampleSettings_fits 0 sampleState _

/-! ## Labels -/

/-- What Tab writes: the names of all labels that begin with the line, and the line again. -/
def labelList (cfg : Settings) (line : List UInt8) : List (List UInt8) :=
  [crlf] ++ (cfg.labels.filter fun vk => line.isPrefixOf vk.vname).flatMap
    (fun vk => [[0x20], vk.vname]) ++ [crlf, bootPrompt, line]

/-- Tab lists labels and leaves the line alone. -/
def ListsLabels (cfg : Settings) : Place → Prop
  | .getChar s => ∀ ah, ∃ s', step cfg (.getChar s) (.key 0x09 ah) = .getChar s' ∧
      s'.typed = s.typed ∧ s'.funcFlag = s.funcFlag ∧
      s'.out = s.out ++
        if cfg.noComplete = 0 then (labelList cfg s.typed).map Output.text else []
  | _ => True

/-- A text without a NUL begins a buffer if it begins the string there. -/
theorem isPrefixOf_cString {bytes : List UInt8} (h : ∀ c ∈ cs, c ≠ 0) :
    cs.isPrefixOf (cString bytes) = cs.isPrefixOf bytes := by
  induction cs generalizing bytes with
  | nil => rfl
  | cons c cs ih =>
    rw [List.forall_mem_cons] at h
    cases bytes with
    | nil => rfl
    | cons b bytes =>
      by_cases hb : b = 0
      · subst hb
        have hne : (c == 0) = false := by simpa using h.1
        rw [List.isPrefixOf_cons_cons, hne]
        rfl
      · have hnext : cString (b :: bytes) = b :: cString bytes := by simp [cString, hb]
        rw [hnext, List.isPrefixOf_cons_cons, List.isPrefixOf_cons_cons, ih h.2]

/-- The output gets the text that is written. -/
theorem out_write (s : State) (cs : List UInt8) : (s.write cs).out = s.out ++ [.text cs] := rfl

/-- The output gets each name with a space in front. -/
theorem out_writeNames (names : List (List UInt8)) :
    (names.foldl (fun s name => (s.write [0x20]).write name) s).out =
      s.out ++ (names.flatMap fun name => [[0x20], name]).map Output.text := by
  induction names generalizing s with
  | nil => simp
  | cons name names ih =>
    rw [List.foldl_cons, ih]
    simp [State.write]

/-- The output gets the prompt and the line. -/
theorem out_fkWrcmd (h : Editing old s t) :
    (fkWrcmd s).out = s.out ++ [.text bootPrompt, .text s.typed] := by
  have hline := line_put (h.of_keeps (keeps_write s bootPrompt))
  have hout : (fkWrcmd s).out = (s.out ++ [.text bootPrompt]) ++ [.text s.typed] :=
    congrArg (fun line => (s.out ++ [.text bootPrompt]) ++ [Output.text line]) hline
  rw [hout, List.append_assoc]
  rfl

/-- The output gets the labels that begin with the line, and the line again. -/
theorem out_displayLabels (h : Editing old s t) (hcomplete : cfg.noComplete = 0) :
    (displayLabels cfg s).out = s.out ++ (labelList cfg s.typed).map Output.text := by
  have hne : ∀ c ∈ s.typed, c ≠ 0 := by
    rintro c hc rfl
    exact absurd (h.printable 0 hc).1 (by decide)
  have hnames := cfg.holds.displayLabels s.typed (cfg.labels.length + 1) (Nat.lt_succ_self _)
  have hnames_of : (fun vk : VKernel => s.typed.isPrefixOf vk.bytes) =
      fun vk => s.typed.isPrefixOf vk.vname := funext fun vk => (isPrefixOf_cString hne).symm
  rw [hnames_of] at hnames
  have hkeeps := (keeps_write s crlf).trans (keeps_writeNames
    (((cfg.labels.filter fun vk => s.typed.isPrefixOf vk.vname).map VKernel.vname)))
  have hout := out_fkWrcmd ((h.of_keeps hkeeps).of_keeps (keeps_write _ crlf))
  have htyped := (hkeeps.trans (keeps_write _ crlf)).typed
  unfold displayLabels
  rw [if_neg (not_not.mpr hcomplete)]
  change (fkWrcmd (State.write (((cfg.store.displayLabels s.typed (cfg.labels.length + 1)
    cfg.highMemSize).getD []).foldl _ (s.write crlf)) crlf)).out = _
  rw [hnames, Option.getD_some, hout, htyped, out_write, out_writeNames, out_write]
  simp [labelList, List.flatMap_map]

/-- Whenever the prompt waits for a key, Tab lists, in their order, exactly the labels that begin
with the line. -/
theorem tab_lists_labels (cfg : Settings) (hcfg : cfg.Fits) (kbdFlags : UInt8) (s : State)
    (events : List Event) : ListsLabels cfg (run cfg (checkForKey cfg kbdFlags s) events) := by
  have hmatches : Matches cfg s.commandLine (run cfg (checkForKey cfg kbdFlags s) events)
      ((Session.start cfg kbdFlags).run cfg events) :=
    matches_run hcfg (matches_checkForKey (.refl _)) events
  generalize run cfg (checkForKey cfg kbdFlags s) events = place at hmatches
  generalize (Session.start cfg kbdFlags).run cfg events = session at hmatches
  match place, session, hmatches with
  | .getChar s, .typing t, h =>
    intro ah
    have hkey : Editing _ { s with thisKbdTo := 0 } { t with kbd := 2 ^ 32 } :=
      { h with kbd := rfl }
    have hkeeps := @keeps_displayLabels cfg _ hkey.di_le
    refine ⟨_, rfl, hkeeps.typed, hkeeps.func, ?_⟩
    by_cases hcomplete : cfg.noComplete = 0
    · rw [if_pos hcomplete, out_displayLabels hkey hcomplete]
      rfl
    · rw [if_neg hcomplete, displayLabels, if_pos hcomplete, List.append_nil]
  | .loadKernel s, .loading text, h => exact trivial
  | .really s, .failing, h => exact trivial
  | .kaboom s, .stuck, h => exact trivial

/-- The sample settings with three labels. -/
def labelledSettings : Settings :=
  { sampleSettings with
    store := Config.sampleLabels.foldl Store.commit sampleSettings.store
    labels := Config.sampleLabels
    holds := Store.holds_foldl sampleSettings.holds
      ⟨by decide +kernel, by decide +kernel, by decide +kernel, trivial⟩ }

/-- The letter that two of the labels begin with is typed before Tab. -/
theorem tab_lists_labels_sample : ListsLabels labelledSettings
    (run labelledSettings (checkForKey labelledSettings 0 sampleState) [.key 0x6c 0, .tick]) :=
  tab_lists_labels labelledSettings ⟨by decide, by decide⟩ 0 sampleState _

end Liigboot.Ui
