import Liigboot.Ui.Editor
import Mathlib.Data.List.TakeWhile

/-!
# When the prompt gives up waiting

Both timeouts count ticks without a key: `KbdTimeout` up to the first key, `TotalTimeout` all of
them, and a timeout of zero lasts for 2³² ticks. With `NoEscape` there is no prompt to wait at, only
the default command and the onerror text.
-/

namespace Liigboot.Ui

open Liigboot.Config

/-- A tick, or a key that leaves the prompt at its line. -/
def Event.Plain : Event → Prop
  | .tick => True
  | .key al _ => al ≠ 0x0D ∧ al ≠ 0x15 ∧ al ≠ 0x18
  | _ => False

instance : (event : Event) → Decidable event.Plain
  | .tick => isTrue trivial
  | .key _ _ => inferInstanceAs (Decidable (_ ∧ _))
  | .badKernel _ => isFalse id
  | .abortLoad _ _ => isFalse id
  | .kill _ => isFalse id
  | .report _ => isFalse id

def Event.isTick : Event → Bool
  | .tick => true
  | _ => false

/-- The ticks in front of the first key. -/
def leadingTicks (events : List Event) : Nat := (events.takeWhile Event.isTick).length

/-- All ticks. -/
def tickCount (events : List Event) : Nat := events.countP Event.isTick

/-- What is loaded when the time is over. -/
def Settings.timeoutText (cfg : Settings) : List UInt8 :=
  if cfg.ontimeout = [] then cfg.defaultCmd else cfg.ontimeout ++ [0]

/-- The editor waits, or has gone on to the text for the timeout. -/
def Waits (cfg : Settings) (inTime : Prop) : Session → Prop
  | .typing _ => inTime
  | .loading text => ¬inTime ∧ text = cfg.timeoutText
  | .failing => False
  | .stuck => False

/-- The prompt waits for a key, or loads the text for the timeout. -/
def PromptWaits (cfg : Settings) (inTime : Prop) : Place → Prop
  | .getChar _ => inTime
  | .loadKernel s => ¬inTime ∧ Holds s.commandLine 0 cfg.timeoutText
  | .really _ => False
  | .kaboom _ => False

/-- There is no prompt, only the default command, if there is one, and the onerror text in front of
a command, if there is one, with a null that ends both in the buffer. -/
def Confined (cfg : Settings) : Place → Prop
  | .getChar _ => False
  | .loadKernel s => cfg.defaultLevel ≠ 0 ∧ (Holds s.commandLine 0 cfg.defaultCmd ∨
      cfg.onerror ≠ [] ∧ Holds s.commandLine 0 cfg.onerror ∧ s.commandLine maxCmdLen = 0)
  | .really _ => cfg.defaultLevel ≠ 0
  | .kaboom _ => cfg.defaultLevel = 0

variable {cfg : Settings} {s : State} {old : Nat → UInt8} {t : Typing} {al : UInt8}
  {events : List Event}

theorem ticks_pos (timeout : UInt32) : 1 ≤ ticks timeout := by
  unfold ticks
  split_ifs with hzero
  · decide
  · rw [← UInt32.toNat_inj] at hzero
    exact Nat.pos_of_ne_zero hzero

/-- It lasts 2^32 ticks at most. -/
theorem ticks_le (timeout : UInt32) : ticks timeout ≤ 2 ^ 32 := by
  unfold ticks
  split_ifs with hzero
  · exact Nat.le_refl _
  · exact timeout.toNat_lt.le

/-- The ticks in front are among all ticks. -/
theorem leadingTicks_le (events : List Event) : leadingTicks events ≤ tickCount events := by
  have hall : (events.takeWhile Event.isTick).countP Event.isTick = leadingTicks events :=
    List.countP_eq_length.mpr fun _ h => List.mem_takeWhile_imp h
  rw [← hall]
  exact (List.takeWhile_sublist _).countP_le

/-- With a text or a default command something is loaded after a timeout. -/
theorem done_ontimeout (htext : cfg.ontimeout ≠ [] ∨ cfg.defaultLevel ≠ 0) :
    Session.done cfg cfg.ontimeout = .loading cfg.timeoutText := by
  unfold Session.done Settings.timeoutText
  split_ifs with hnil
  · rw [Session.boot, if_pos (htext.resolve_left (not_not.mpr hnil))]
  · rfl

/-- What is loaded stays so with ticks and keys. -/
theorem run_loading {text : List UInt8} (h : ∀ event ∈ events, event.Plain) :
    (Session.loading text).run cfg events = .loading text := by
  induction events with
  | nil => rfl
  | cons event events ih =>
    rw [List.forall_mem_cons] at h
    cases event with
    | tick => exact ih h.2
    | key al ah => exact ih h.2
    | badKernel commandLine => exact h.1.elim
    | abortLoad msg commandLine => exact h.1.elim
    | kill commandLine => exact h.1.elim
    | report kernelName => exact h.1.elim

/-- A key that leaves the prompt at its line sets the first timeout aside. -/
theorem press_plain (h : (Event.key al 0).Plain) :
    ∃ line func, t.press cfg al = .typing { t with line := line, func := func, kbd := 2 ^ 32 } := by
  obtain ⟨henter, hkill, htext⟩ := h
  refine ⟨t.line.press t.func al, t.nextFunc al, ?_⟩
  rw [Typing.press, if_neg henter, if_neg (by simp [hkill, htext])]

/-- A session waits as long as both timeouts last. -/
theorem waits_run (htext : cfg.ontimeout ≠ [] ∨ cfg.defaultLevel ≠ 0)
    (h : ∀ event ∈ events, event.Plain) (hkbd : 1 ≤ t.kbd) (htotal : 1 ≤ t.total)
    (hle : t.total ≤ 2 ^ 32) :
    Waits cfg (leadingTicks events < t.kbd ∧ tickCount events < t.total)
      ((Session.typing t).run cfg events) := by
  induction events generalizing t with
  | nil => exact ⟨hkbd, htotal⟩
  | cons event events ih =>
    rw [List.forall_mem_cons] at h
    cases event with
    | tick =>
      have hleading : leadingTicks (.tick :: events) = leadingTicks events + 1 := rfl
      have hcount : tickCount (.tick :: events) = tickCount events + 1 :=
        List.countP_cons_of_pos rfl
      rw [hleading, hcount]
      change Waits cfg _ ((t.tick cfg).run cfg events)
      unfold Typing.tick
      split_ifs with hover
      · rw [done_ontimeout htext, run_loading h.2]
        exact ⟨by omega, rfl⟩
      · have hrest := @ih { t with kbd := t.kbd - 1, total := t.total - 1 } h.2 (by dsimp; omega)
          (by dsimp; omega) (by dsimp; omega)
        have hsame : (leadingTicks events < t.kbd - 1 ∧ tickCount events < t.total - 1) ↔
            (leadingTicks events + 1 < t.kbd ∧ tickCount events + 1 < t.total) := by omega
        rwa [← hsame]
    | key al ah =>
      have hleading : leadingTicks (.key al ah :: events) = 0 := rfl
      have hcount : tickCount (.key al ah :: events) = tickCount events :=
        List.countP_cons_of_neg Bool.false_ne_true
      rw [hleading, hcount]
      obtain ⟨line, func, hpress⟩ := @press_plain cfg t al h.1
      change Waits cfg _ ((t.press cfg al).run cfg events)
      rw [hpress]
      have hrest := @ih { t with line := line, func := func, kbd := 2 ^ 32 } h.2 (by dsimp; omega)
        htotal hle
      have hleading' := leadingTicks_le events
      have hsame : (leadingTicks events < 2 ^ 32 ∧ tickCount events < t.total) ↔
          (0 < t.kbd ∧ tickCount events < t.total) := by omega
      rwa [← hsame]
    | badKernel commandLine => exact h.1.elim
    | abortLoad msg commandLine => exact h.1.elim
    | kill commandLine => exact h.1.elim
    | report kernelName => exact h.1.elim

/-- From the prompt on, without Enter, Ctrl-U and Ctrl-X, when there is an ontimeout text or a
default command: it waits for keys exactly as long as the ticks in front of the first key are less
than `KbdTimeout` lasts, and all ticks are less than `TotalTimeout` lasts; then it loads the text
for the timeout. -/
theorem prompt_times_out (cfg : Settings) (hcfg : cfg.Fits) (s : State) (events : List Event)
    (htext : cfg.ontimeout ≠ [] ∨ cfg.defaultLevel ≠ 0) (hplain : ∀ event ∈ events, event.Plain) :
    PromptWaits cfg
      (leadingTicks events < ticks cfg.kbdTimeout ∧ tickCount events < ticks cfg.totalTimeout)
      (run cfg (prompt cfg s) events) := by
  have hmatches : Matches cfg s.commandLine (run cfg (prompt cfg s) events)
      ((Session.fresh cfg).run cfg events) := matches_run hcfg (matches_prompt (.refl _)) events
  have hwaits := @waits_run cfg ⟨.empty, false, ticks cfg.kbdTimeout, ticks cfg.totalTimeout⟩ events
    htext hplain (ticks_pos _) (ticks_pos _) (ticks_le _)
  change Waits cfg _ ((Session.fresh cfg).run cfg events) at hwaits
  generalize run cfg (prompt cfg s) events = place at hmatches
  generalize (Session.fresh cfg).run cfg events = session at hmatches hwaits
  match place, session, hmatches with
  | .getChar s, .typing t, _ => exact hwaits
  | .loadKernel s, .loading text, h =>
    obtain ⟨hover, rfl⟩ := hwaits
    exact ⟨hover, h.1⟩
  | .really s, .failing, _ => exact hwaits
  | .kaboom s, .stuck, _ => exact hwaits

/-- A character and two ticks. -/
theorem prompt_times_out_sample :
    let events := [Event.tick, .key 0x61 0, .tick, .tick]
    PromptWaits sampleSettings (leadingTicks events < ticks 2 ∧ tickCount events < ticks 3)
      (run sampleSettings (prompt sampleSettings sampleState) events) :=
  prompt_times_out sampleSettings sampleSettings_fits sampleState _ (by decide) (by decide)

/-- Without either, it starts again when the time is over, or stops. -/
theorem timeout_without_text (cfg : Settings) (s : State) (hnone : cfg.ontimeout = [])
    (hlevel : cfg.defaultLevel = 0) :
    timeout cfg s = if cfg.noEscape = 0 then
        prompt cfg (({ s with di := 0 }.write crlf).write noDefaultMsg)
      else .kaboom (({ s with di := 0 }.write crlf).write noDefaultMsg) := by
  have htimeout : timeout cfg s = autoBoot cfg ({ s with di := 0 }.write crlf) := by
    rw [timeout, hnone, commandDone]
    exact if_pos rfl
  rw [htimeout, autoBoot, if_pos hlevel]

/-! ## Without a prompt -/

/-- The default command does not lead to the prompt. -/
theorem confined_autoBoot (h : cfg.noEscape ≠ 0) : Confined cfg (autoBoot cfg s) := by
  unfold autoBoot
  by_cases hlevel : cfg.defaultLevel = 0
  · rw [if_pos hlevel]
    simp only [if_neg h]
    exact hlevel
  · rw [if_neg hlevel]
    exact ⟨hlevel, .inl (repMovsbFrom_holds _ _)⟩

/-- With `noescape` a new start loads the default command. -/
theorem confined_enterCommand (h : cfg.noEscape ≠ 0) : Confined cfg (enterCommand cfg s) := by
  rw [enterCommand, if_neg h]
  exact confined_autoBoot h

/-- So does the first one. -/
theorem confined_checkForKey {kbdFlags : UInt8} (h : cfg.noEscape ≠ 0) :
    Confined cfg (checkForKey cfg kbdFlags s) := by
  unfold checkForKey
  split_ifs
  · exact confined_enterCommand h
  · exact confined_autoBoot h
  · exact confined_autoBoot h
  · exact confined_enterCommand h

/-- The `onerror` text is tried with the default command. -/
theorem confined_onError (hcfg : cfg.Fits) (h : cfg.defaultLevel ≠ 0)
    (hnone : ¬cfg.onerror.length = 0) : Confined cfg (onError cfg s) := by
  unfold onError
  split_ifs
  · exact h
  · have hnull : Boot.onError cfg.onerror s.commandLine maxCmdLen = 0 := by
      rw [Boot.onError_behind hcfg.onerror_le hcfg.onerror_le, if_neg (Nat.lt_irrefl _),
        if_pos rfl]
    exact ⟨h, .inr ⟨mt List.length_eq_zero_iff.mpr hnone, repMovsbFrom_holds _ _, hnull⟩⟩

/-- A missing kernel does not lead to the prompt. -/
theorem confined_badKernel (hcfg : cfg.Fits) (h : cfg.defaultLevel ≠ 0) :
    Confined cfg (badKernel cfg s) := by
  unfold badKernel
  split_ifs with hnone
  · exact h
  · exact confined_onError hcfg h hnone

/-- Nor does a load that is given up. -/
theorem confined_abortLoad (hcfg : cfg.Fits) (hescape : cfg.noEscape ≠ 0)
    (h : cfg.defaultLevel ≠ 0) (msg : List UInt8) : Confined cfg (abortLoad cfg s msg) := by
  unfold abortLoad errorOrCommand
  split_ifs with hnone
  · exact confined_enterCommand hescape
  · exact confined_onError hcfg h hnone

/-- Nor does any event. -/
theorem confined_step (hcfg : cfg.Fits) (h : cfg.noEscape ≠ 0) {place : Place}
    (hplace : Confined cfg place) (event : Event) : Confined cfg (step cfg place event) := by
  cases place with
  | getChar s => exact hplace.elim
  | loadKernel s =>
    cases event with
    | tick => exact hplace
    | key al ah => exact hplace
    | badKernel commandLine => exact confined_badKernel hcfg hplace.1
    | abortLoad msg commandLine => exact confined_abortLoad hcfg h hplace.1 msg
    | kill commandLine => exact confined_enterCommand h
    | report kernelName => exact hplace
  | really s =>
    cases event with
    | tick => exact hplace
    | key al ah => exact hplace
    | badKernel commandLine => exact hplace
    | abortLoad msg commandLine => exact hplace
    | kill commandLine => exact hplace
    | report kernelName => exact confined_abortLoad hcfg h hplace []
  | kaboom s =>
    cases event with
    | tick => exact hplace
    | key al ah => exact hplace
    | badKernel commandLine => exact hplace
    | abortLoad msg commandLine => exact hplace
    | kill commandLine => exact hplace
    | report kernelName => exact hplace

/-- With `NoEscape`, whatever keys are held at the start, and whatever is pressed or fails later,
the prompt is never reached, and nothing is loaded but the default command, or a command line that
begins with the onerror text. -/
theorem no_escape_confines (cfg : Settings) (hcfg : cfg.Fits) (kbdFlags : UInt8) (s : State)
    (events : List Event) (hescape : cfg.noEscape ≠ 0) :
    Confined cfg (run cfg (checkForKey cfg kbdFlags s) events) := by
  have hrun : ∀ place, Confined cfg place → Confined cfg (run cfg place events) := by
    induction events with
    | nil => exact fun place hplace => hplace
    | cons event events ih => exact fun place hplace => ih _ (confined_step hcfg hescape hplace event)
  exact hrun _ (confined_checkForKey hescape)

/-- The kernel of the default command is missing, and so is that of the onerror text. -/
theorem no_escape_confines_sample :
    let cfg := { sampleSettings with noEscape := 1, defaultLevel := 1 }
    Confined cfg (run cfg (checkForKey cfg 0x08 sampleState)
      [.key 0x61 0, .badKernel fun _ => 0, .badKernel fun a => [0x79, 0x20].getD a 0]) :=
  no_escape_confines _ ⟨by decide, by decide⟩ 0x08 sampleState _ (by decide)

end Liigboot.Ui
