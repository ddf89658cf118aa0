import Liigboot.Boot.OnError
import Liigboot.Lib.TextRow

/-!
# The boot prompt

`ui.inc` from `check_for_key` to `load_kernel`: the line that is typed, the keys with a meaning of
their own, and the two timeouts. A run goes from one return of `getchar_timeout`'s loop to the next:
a tick of the timer without a key, or a key. It goes on when a load fails, by way of the onerror
text if there is one. What is written to the screen is kept as a trace; a file for a function key
is left to `get_msg_file`, with the row of the cursor behind it.
-/

namespace Liigboot.Ui

open Liigboot.Config
open Liigboot.Boot (repeCmpsb)

/-! ## Settings and state -/

/-- What `get_msg_file` makes of the screen: the row of the cursor, and `UsingVGA` from what it was
before. -/
structure Message where
  row : TextRow
  usingVga : Bool → Bool

/-- The settings of a configuration, and the labels that are stored. -/
structure Settings where
  totalTimeout : UInt32
  kbdTimeout : UInt32
  forcePrompt : UInt16
  noEscape : UInt16
  noComplete : UInt16
  defaultLevel : UInt16
  /-- The `OntimeoutLen` bytes at `Ontimeout`. -/
  ontimeout : List UInt8
  /-- The `OnerrorLen` bytes at `Onerror`. -/
  onerror : List UInt8
  /-- All bytes of `default_cmd`. -/
  defaultCmd : List UInt8
  store : Store
  highMemSize : UInt32
  labels : List VKernel
  /-- The entries of `FKeyName` with a file that is found, by number. -/
  message : Nat → Option Message
  syslinuxBanner : List UInt8
  defaultCmd_length : defaultCmd.length = maxCmdLen + 1
  holds : store.Holds highMemSize labels

/-- The texts that are copied to `command_line` fit there, and where they are kept. Nothing in
`pc_ontimeout`, `pc_onerror` or `getline` ensures it: a longer line is stored as a whole. -/
structure Settings.Fits (cfg : Settings) : Prop where
  ontimeout_le : cfg.ontimeout.length ≤ maxCmdLen
  onerror_le : cfg.onerror.length ≤ maxCmdLen

/-- Something written to the screen. -/
inductive Output
  | text (cs : List UInt8)
  | message (row : TextRow)
  /-- The text mode is set, which clears the screen. -/
  | textMode
  deriving DecidableEq, Repr

/-- The variables of the prompt, with `command_line` by offsets and `di` as one. -/
structure State where
  commandLine : Nat → UInt8
  di : Nat
  funcFlag : Bool
  thisKbdTo : UInt32
  thisTotalTo : UInt32
  usingVga : Bool
  out : List Output

/-- Where the prompt goes on. -/
inductive Place
  | getChar (s : State)
  | loadKernel (s : State)
  /-- `bad_kernel.really`. -/
  | really (s : State)
  | kaboom (s : State)

/-! ## Texts -/

/-- `'liigboot: '`. -/
def bootPrompt : List UInt8 := [0x6C, 0x69, 0x69, 0x67, 0x62, 0x6F, 0x6F, 0x74, 0x3A, 0x20]

/-- `BS, ' ', BS`. -/
def wipeChar : List UInt8 := [0x08, 0x20, 0x08]

def crlf : List UInt8 := [0x0D, 0x0A]

/-- `'No DEFAULT or UI configuration directive found!'`. -/
def noDefaultText : List UInt8 :=
  [0x4E, 0x6F, 0x20, 0x44, 0x45, 0x46, 0x41, 0x55, 0x4C, 0x54, 0x20, 0x6F, 0x72, 0x20, 0x55, 0x49,
    0x20, 0x63, 0x6F, 0x6E, 0x66, 0x69, 0x67, 0x75, 0x72, 0x61, 0x74, 0x69, 0x6F, 0x6E, 0x20, 0x64,
    0x69, 0x72, 0x65, 0x63, 0x74, 0x69, 0x76, 0x65, 0x20, 0x66, 0x6F, 0x75, 0x6E, 0x64, 0x21]

def noDefaultMsg : List UInt8 := noDefaultText ++ crlf

/-- `'. Press <Enter> for help, <Tab> for optoins.'`. -/
def copyrightText : List UInt8 :=
  [0x2E, 0x20, 0x50, 0x72, 0x65, 0x73, 0x73, 0x20, 0x3C, 0x45, 0x6E, 0x74, 0x65, 0x72, 0x3E, 0x20,
    0x66, 0x6F, 0x72, 0x20, 0x68, 0x65, 0x6C, 0x70, 0x2C, 0x20, 0x3C, 0x54, 0x61, 0x62, 0x3E, 0x20,
    0x66, 0x6F, 0x72, 0x20, 0x6F, 0x70, 0x74, 0x6F, 0x69, 0x6E, 0x73, 0x2E]

def copyrightStr : List UInt8 := copyrightText ++ crlf

/-- `'Could not find kernel image: '`. -/
def errNotfound : List UInt8 :=
  [0x43, 0x6F, 0x75, 0x6C, 0x64, 0x20, 0x6E, 0x6F, 0x74, 0x20, 0x66, 0x69, 0x6E, 0x64, 0x20, 0x6B,
    0x65, 0x72, 0x6E, 0x65, 0x6C, 0x20, 0x69, 0x6D, 0x61, 0x67, 0x65, 0x3A, 0x20]

/-- `' aborted.'`. -/
def abortedText : List UInt8 := [0x20, 0x61, 0x62, 0x6F, 0x72, 0x74, 0x65, 0x64, 0x2E]

def abortedMsg : List UInt8 := abortedText ++ crlf

/-! ## The source -/

/-- `writestr` of a text, `crlf` and `writechr`. -/
def State.write (s : State) (cs : List UInt8) : State := { s with out := s.out ++ [.text cs] }

/-- The text at `command_line`, up to the first NUL. -/
def State.line (s : State) : List UInt8 :=
  cString ((List.range (maxCmdLen + 2)).map s.commandLine)

variable (cfg : Settings)

/-- `enter_command` behind the test of `NoEscape`, up to `get_char`. -/
def prompt (s : State) : Place :=
  .getChar { s.write bootPrompt with
    funcFlag := false
    di := 0
    thisTotalTo := cfg.totalTimeout
    thisKbdTo := cfg.kbdTimeout }

/-- `auto_boot`. -/
def autoBoot (s : State) : Place :=
  if cfg.defaultLevel = 0 then
    let s := s.write noDefaultMsg
    if cfg.noEscape = 0 then prompt cfg s else .kaboom s
  else .loadKernel { s with commandLine := repMovsbFrom s.commandLine cfg.defaultCmd 0 }

/-- `enter_command`. -/
def enterCommand (s : State) : Place := if cfg.noEscape = 0 then prompt cfg s else autoBoot cfg s

/-- `check_for_key`, with `KbdFlags`. -/
def checkForKey (kbdFlags : UInt8) (s : State) : Place :=
  if kbdFlags &&& 0x5B ≠ 0 then enterCommand cfg s -- Shift Alt Caps Scroll
  else if cfg.forcePrompt = 0 then autoBoot cfg s
  else if 1 < cfg.defaultLevel then autoBoot cfg s
  else enterCommand cfg s

/-- `command_done`. -/
def commandDone (s : State) : Place :=
  let s := s.write crlf
  if s.di = 0 then autoBoot cfg s
  else .loadKernel { s with commandLine := put s.commandLine s.di 0, di := s.di + 1 }

/-- `getchar_timeout` at `.timeout`. -/
def timeout (s : State) : Place :=
  commandDone cfg { s with
    commandLine := repMovsbFrom s.commandLine cfg.ontimeout 0
    di := cfg.ontimeout.length }

/-- `getchar_timeout` when the timer has advanced. -/
def tick (s : State) : Place :=
  let s := { s with thisKbdTo := s.thisKbdTo - 1 }
  if s.thisKbdTo = 0 then timeout cfg s
  else
    let s := { s with thisTotalTo := s.thisTotalTo - 1 }
    if s.thisTotalTo = 0 then timeout cfg s else .getChar s

/-- `fk_wrcmd`. -/
def fkWrcmd (s : State) : State :=
  let s := s.write bootPrompt
  let s := { s with commandLine := put s.commandLine s.di 0 } -- Null-terminate command line
  s.write s.line

/-- `ctrl_f`, with the number of the function key. -/
def ctrlF (al : UInt8) : Option Nat :=
  if al < 0x30 then none
  else if al = 0x30 then some 10
  else
    let al := al ||| 0x20 -- Lower case
    if al ≤ 0x39 then some (al - 0x31).toNat
    else if al < 0x61 then none
    else if 0x63 < al then none
    else some (al - (0x61 - 10)).toNat

/-- `func_key`, with the number of the function key. -/
def funcKey (ah : UInt8) : Option Nat :=
  if 0x44 < ah then
    if ah < 0x85 then none
    else if 0x86 < ah then none
    else some (ah - (0x85 - 10)).toNat
  else if ah < 0x3B then none
  else some (ah - 0x3B).toNat

/-- `show_help`. -/
def showHelp (s : State) (number : Option Nat) : State :=
  match number.bind cfg.message with
  | none => s
  | some m =>
    let s := s.write crlf
    fkWrcmd { s with out := s.out ++ [.message m.row], usingVga := m.usingVga s.usingVga }

/-- `print_version`. -/
def printVersion (s : State) : State := fkWrcmd ((s.write cfg.syslinuxBanner).write copyrightStr)

/-- `display_labels`. -/
def displayLabels (s : State) : State :=
  if cfg.noComplete ≠ 0 then s
  else
    let typed := (List.range s.di).map s.commandLine
    let names := cfg.store.displayLabels typed (cfg.labels.length + 1) cfg.highMemSize
    let s := s.write crlf
    let s := (names.getD []).foldl (fun s name => (s.write [0x20]).write name) s
    fkWrcmd (s.write crlf)

/-- `vgaclearmode`. -/
def vgaclearmode (s : State) : State :=
  if s.usingVga then { s with usingVga := false, out := s.out ++ [.textMode] } else s

/-- `backspace`. -/
def backspace (s : State) : State :=
  if s.di = 0 then s else { s with di := s.di - 1 }.write wipeChar

/-- `enter_char`. -/
def enterChar (s : State) (al : UInt8) : State :=
  if s.funcFlag then showHelp cfg { s with funcFlag := false } (ctrlF al)
  else if maxCmdLen ≤ s.di then s
  else { s with commandLine := put s.commandLine s.di al, di := s.di + 1 }.write [al]

/-- `not_ascii`. -/
def notAscii (s : State) (al : UInt8) : Place :=
  if al = 0x0D then commandDone cfg s
  else if al = 0x09 then .getChar (displayLabels cfg s)
  else if al = 0x06 then .getChar { s with funcFlag := true }
  else if al = 0x15 then enterCommand cfg (s.write crlf)
  else if al = 0x16 then .getChar (printVersion cfg s)
  else if al = 0x18 then enterCommand cfg (vgaclearmode s)
  else if al = 0x08 then .getChar (backspace s)
  else .getChar s

/-- `get_char` behind `getchar_timeout`, with `AX`. -/
def gotChar (s : State) (al ah : UInt8) : Place :=
  let s := { s with thisKbdTo := 0 } -- For the next time...
  if al = 0 then .getChar (showHelp cfg s (funcKey ah))
  else if al = 0x7F then .getChar (backspace s)
  else if al < 0x20 then notAscii cfg s al
  else if al = 0x20 ∧ s.di = 0 then .getChar s -- Space must not be first
  else .getChar (enterChar cfg s al)

/-! ## Loads that fail -/

/-- `on_error`. -/
def onError (s : State) : Place :=
  if repeCmpsb s.commandLine cfg.onerror 0 then .really s
  else .loadKernel { s with commandLine := Boot.onError cfg.onerror s.commandLine }

/-- `bad_kernel`. -/
def badKernel (s : State) : Place := if cfg.onerror.length = 0 then .really s else onError cfg s

/-- `error_or_command`. -/
def errorOrCommand (s : State) : Place :=
  if cfg.onerror.length = 0 then enterCommand cfg s else onError cfg s

/-- `abort_load`, with a message that ends its line. -/
def abortLoad (s : State) (msg : List UInt8) : Place := errorOrCommand cfg (s.write (msg ++ crlf))

/-- `bad_kernel.really`, with the text at `KernelName`. -/
def really (s : State) (kernelName : List UInt8) : Place :=
  abortLoad cfg ((s.write errNotfound).write kernelName) []

/-- `abort_check` at `.kill`. -/
def kill (s : State) : Place := enterCommand cfg (s.write abortedMsg)

/-! ## Runs -/

/-- What happens: the timer advances, or a key is pressed; and with a load, which may have changed
`command_line`: there is no kernel, it is given up with a message, or the user ends it. A kernel that
is missing is reported with the name that is kept then. -/
inductive Event
  | tick
  | key (al ah : UInt8)
  | badKernel (commandLine : Nat → UInt8)
  | abortLoad (msg : List UInt8) (commandLine : Nat → UInt8)
  | kill (commandLine : Nat → UInt8)
  | report (kernelName : List UInt8)

/-- The bytes of `command_line` from one memory, and all others from another. -/
def rewritten (commandLine old : Nat → UInt8) : Nat → UInt8 := fun a =>
  if a < maxCmdLen + 2 then commandLine a else old a

/-- The state that a load leaves. -/
def State.loaded (s : State) (commandLine : Nat → UInt8) : State :=
  { s with commandLine := rewritten commandLine s.commandLine }

/-- One event. -/
def step : Place → Event → Place
  | .getChar s, .tick => tick cfg s
  | .getChar s, .key al ah => gotChar cfg s al ah
  | .loadKernel s, .badKernel commandLine => badKernel cfg (s.loaded commandLine)
  | .loadKernel s, .abortLoad msg commandLine => abortLoad cfg (s.loaded commandLine) msg
  | .loadKernel s, .kill commandLine => kill cfg (s.loaded commandLine)
  | .really s, .report kernelName => really cfg s kernelName
  | place, _ => place

def run : Place → List Event → Place := List.foldl (step cfg)

end Liigboot.Ui
