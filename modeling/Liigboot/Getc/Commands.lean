import Liigboot.Config.Keyword
import Liigboot.Config.ParseConfig
import Liigboot.Getc.Display

/-!
# The commands of a configuration

The handlers of the keyword table, over the stack of open files. Each is entered with a character
that is pushed back, if any, and leaves at most one. `include` leaves its file open and counts it.
-/

namespace Liigboot.Getc.Parser

open Liigboot.Config (Argument Entrypoint Keyword cString filenameMax initrdArg labelName
  length_labelName maxCmdLen tableSearch vkAppend vkAppendlen vkRname vkSize vkType)

/-! ## The source -/

/-- `VKernelBuf` is cleared. -/
def clearVKernel : Parser Unit :=
  set .vKernelBuf 0 (List.replicate vkSize 0) (by rw [List.length_replicate, Nat.zero_add]; rfl)

section source

variable (L : Layout) (fuel : Nat)

/-- `commit_vk` -/
def commitVk : Parser Unit := do
  let seg ← look
  if seg (L.addr .vKernel) = 0 then return ()
  else
    let append := L.addr .vKernelBuf + vkAppend
    let di := append + memLe seg (L.addr .vKernelBuf + vkAppendlen) 2
    let arg := initrdArg (cString (bytesAt seg (L.addr .initRD) 0x10000))
    stosb di arg
    let ax := (di + arg.length - append) % 0x10000
    setWord .vKernelBuf vkAppendlen ax (by decide)
    let cx := (maxCmdLen + 1 + 0x10000 - ax) % 0x10000
    stosb (di + arg.length) (List.replicate cx 0)
    let _ ← routine .rllpack

/-- `pc_getline`, with the carry flag. -/
def pcGetline : Parser Bool := do
  let l ← getline fuel (L.addr .trackbuf)
  stosb l.di [0]
  return l.cf

/-- `pc_comment` -/
def pcComment : Parser Unit := do
  let _ ← pcGetline L fuel

/-- `pc_default`, with the level in `AX`. -/
def pcDefault (ax : Nat) : Parser Unit := do
  let seg ← look
  if ax < memLe seg (L.addr .defaultLevel) 2 then skipline fuel (UInt8.ofNat ax)
  else
    setWord .defaultLevel 0 ax (by decide)
    let l ← getline fuel (L.addr .defaultCmd)
    -- `[di-1]`
    stosb (l.di + 0xffff) [0]

/-- `pc_ontimeout` -/
def pcOntimeout : Parser Unit := do
  let l ← getline fuel (L.addr .ontimeout)
  setWord .ontimeoutLen 0 (l.di + 0xffff - L.addr .ontimeout) (by decide)

/-- `pc_onerror` -/
def pcOnerror : Parser Unit := do
  let l ← getline fuel (L.addr .onerror)
  setWord .onerrorLen 0 (l.di - L.addr .onerror) (by decide)

/-- `pc_append` -/
def pcAppend : Parser Unit := do
  let seg ← look
  if seg (L.addr .vKernel) = 0 then
    let l ← getline fuel (L.addr .appendBuf)
    setWord .appendLen 0 (l.di - L.addr .appendBuf) (by decide)
  else
    let append := L.addr .vKernelBuf + vkAppend
    let l ← getline fuel append
    let seg ← look
    let di := (l.di - append) % 0x10000
    -- If "append -" -> null string
    let di := if di = 2 ∧ seg append = 0x2d then 0 else di
    setWord .vKernelBuf vkAppendlen di (by decide)

/-- `pc_localboot` -/
def pcLocalboot : Parser Unit := do
  let bx ← getint L
  let seg ← look
  if seg (L.addr .vKernel) = 0 then return ()
  else
    setWord .vKernelBuf vkRname (bx.getD 0).toNat (by decide)
    setByte .vKernelBuf vkType 0xff (by decide)

/-- `pc_kernel`, with the type in `AL`. -/
def pcKernel (al : UInt8) : Parser Unit := do
  let seg ← look
  if seg (L.addr .vKernel) = 0 then return ()
  else
    setByte .vKernelBuf vkType al (by decide)
    let _ ← pcGetline L fuel
    let _ ← routine (.mangleName (L.addr .trackbuf) (L.addr .vKernelBuf + vkRname))

/-- `pc_timeout`, with the variable in `SI`. -/
def pcTimeout (si : Var) (hsi : 4 ≤ si.size) : Parser Unit := do
  match ← getint L with
  | none => return ()
  | some ebx =>
    let eax := 0xd2162aab * ebx.toNat
    -- the high half of the product is added
    set si 0 (leBytes (ebx.toNat + eax / 2 ^ 32) 4) (by rwa [length_leBytes, Nat.zero_add])

/-- `pc_setint16`, with the variable in `SI`. -/
def pcSetint16 (si : Var) (hsi : 2 ≤ si.size) : Parser Unit := do
  match ← getint L with
  | none => return ()
  | some ebx => setWord si 0 ebx.toNat (by rwa [Nat.zero_add])

/-- `pc_opencmd`, with the function to tail-call. -/
def pcOpencmd (ax : Parser Unit) : Parser Unit := do
  let _ ← pcGetline L fuel
  let _ ← routine (.mangleName (L.addr .trackbuf) (L.addr .mNameBuf))
  if ← coreOpen (L.addr .mNameBuf) then ax
  else return ()

/-- `pc_include` -/
def pcInclude : Parser Unit := incLevel

/-- `pc_serial` at `.parse_baud` -/
def parseBaud (port : Nat) (ebx : UInt32) : Parser Unit := do
  if ebx < 75 then setWord .serialPort 0 0 (by decide)
  else
    setWord .baudDivisor 0 (115200 / ebx.toNat) (by decide)
    let seg ← look
    -- If port > 3 then port is I/O addr, else `serial_base` has it
    let di := if 3 < port then port else memLe seg (0x400 + 2 * port) 2
    setWord .serialPort 0 di (by decide)
    if (← routine (.setupSerial di)) = 0 then setWord .serialPort 0 0 (by decide)
    else return ()

/-- `pc_serial` at `.valid_flow` -/
def validFlow (bx : Nat) : Parser Unit := do
  -- `FlowIgnore` is behind `FlowOutput` and `FlowInput`
  setByte .flowControl 2 (UInt8.ofNat (bx / 2 ^ 8 % 2 ^ 4 * 2 ^ 4)) (by decide)
  setWord .flowControl 0 ((bx % 2 ^ 8 * 0x101) &&& 0xf00b) (by decide)

/-- `pc_serial` -/
def pcSerial : Parser Unit := do
  match ← getint L with
  | none => setWord .serialPort 0 0 (by decide)
  | some port =>
    let port := port.toNat % 0x10000
    -- Default to no flow control
    set .flowControl 0 [0, 0, 0, 0] (by decide)
    match ← skipspace fuel with
    | .eof | .eoln => parseBaud port 9600
    | .char al =>
      ungetc al
      match ← getint L with
      | none => parseBaud port 9600
      | some baud =>
        match ← skipspace fuel with
        | .eof | .eoln => validFlow 0
        | .char al =>
          ungetc al
          -- Hardware flow control?
          let flow ← getint L
          validFlow ((flow.getD 0).toNat % 0x10000)
        parseBaud port baud

/-- `pc_filename`, with the address for the name in `DI`. -/
def pcFilename (di : Nat) : Parser Unit := do
  let _ ← pcGetline L fuel
  let _ ← routine (.mangleName (L.addr .trackbuf) di)

/-- `pc_label` -/
def pcLabel : Parser Unit := do
  commitVk L
  setByte .initRD 0 0 (by decide)
  clearVKernel
  let _ ← pcGetline L fuel
  let seg ← look
  let name := labelName (bytesAt seg (L.addr .trackbuf) filenameMax)
  set .vKernelBuf 0 name (by
    rw [Nat.zero_add]
    exact (length_labelName _).le.trans (by decide))
  setByte .vKernel 0 1 (by decide)
  let _ ← routine (.mangleName (L.addr .vKernelBuf) (L.addr .vKernelBuf + vkRname))
  let seg ← look
  let cx := memLe seg (L.addr .appendLen) 2
  setWord .vKernelBuf vkAppendlen cx (by decide)
  -- Default append==global append
  stosb (L.addr .vKernelBuf + vkAppend) (bytesAt seg (L.addr .appendBuf) cx)

/-- `pc_say` -/
def pcSay : Parser Unit := do
  let _ ← pcGetline L fuel
  let seg ← look
  let _ ← routine (.writestr (cString (bytesAt seg (L.addr .trackbuf) 0x10000)))
  let _ ← routine .crlf

/-- Whether a line begins with `ENDTEXT`, in any case. -/
def isEndtext (line : List UInt8) : Bool :=
  (line.take 7).map (· &&& 0xdf) = [0x45, 0x4e, 0x44, 0x54, 0x45, 0x58, 0x54]

/-- `pc_text` -/
def pcText : Parser Unit := do
  -- Ignore rest of line
  skipline fuel 0
  .loop (fun _ : Unit => do
    if ← pcGetline L fuel then return .inr ()
    else
      let seg ← look
      if isEndtext (bytesAt seg (L.addr .trackbuf) 8) then return .inr () else return .inl ())
    fuel ()

/-- The types of `pc_kernel`. -/
def vkNumber : Argument → UInt8
  | .vkLinux => 1
  | .vkBoot => 2
  | .vkBss => 3
  | .vkPxe => 4
  | .vkFdimage => 5
  | .vkComboot => 6
  | .vkCom32 => 7
  | .vkConfig => 8
  | _ => 0

/-- The entry point of a keyword, with its argument. Other arguments are not in the table. -/
def handler (k : Keyword) : Parser Unit :=
  match k.entrypoint, k.argument with
  | .pcComment, _ => pcComment L fuel
  | .pcText, _ => pcText L fuel
  | .pcOpencmd, .pcInclude => pcOpencmd L fuel pcInclude
  | .pcOpencmd, .getMsgFile => pcOpencmd L fuel (getMsgFile L fuel)
  | .pcOpencmd, .loadfont => pcOpencmd L fuel (loadfont L)
  | .pcOpencmd, .loadkeys => pcOpencmd L fuel (loadkeys L)
  | .pcAppend, _ => pcAppend L fuel
  | .pcFilename, .initRD => pcFilename L fuel (L.addr .initRD)
  | .pcFilename, .fKey n => pcFilename L fuel (L.addr .fKeyName + (n - 1) * filenameMax)
  | .pcDefault, .num ax => pcDefault L fuel ax
  | .pcSetint16, .allowImplicit => pcSetint16 L .allowImplicit (by decide)
  | .pcSetint16, .forcePrompt => pcSetint16 L .forcePrompt (by decide)
  | .pcSetint16, .displayCon => pcSetint16 L .displayCon (by decide)
  | .pcSetint16, .allowOptions => pcSetint16 L .allowOptions (by decide)
  | .pcSetint16, .noEscape => pcSetint16 L .noEscape (by decide)
  | .pcSetint16, .noComplete => pcSetint16 L .noComplete (by decide)
  | .pcSetint16, .noHalt => pcSetint16 L .noHalt (by decide)
  | .pcSetint16, .pxeRetry => pcSetint16 L .pxeRetry (by decide)
  | .pcKernel, argument => pcKernel L fuel (vkNumber argument)
  | .pcLabel, _ => pcLabel L fuel
  | .pcSay, _ => pcSay L fuel
  | .pcSerial, _ => pcSerial L fuel
  | .pcTimeout, .kbdTimeout => pcTimeout L .kbdTimeout (by decide)
  | .pcTimeout, .totalTimeout => pcTimeout L .totalTimeout (by decide)
  | .pcOntimeout, _ => pcOntimeout L fuel
  | .pcOnerror, _ => pcOnerror L fuel
  | .pcLocalboot, _ => pcLocalboot L
  | _, _ => return ()

end source

/-! ## What they leave -/

variable {φ : Type} {L : Layout} {env : Env L.toPlaces φ} {s : State φ} {files level top : Nat}

/-- A commit leaves the stack. -/
theorem upholds_commitVk (h : Stacked L s files level top) (htop : top ≤ 1) :
    Upholds L env (commitVk L) (fun _ s => Stacked L s files level top) s := by
  refine (upholds_look h htop).bind fun seg s h => ?_
  refine upholds_ite (fun _ => h) fun _ => ?_
  refine (upholds_stosb h htop).bind fun _ s h => ?_
  refine (upholds_setWord h htop).bind fun _ s h => ?_
  refine (upholds_stosb h htop).bind fun _ s h => ?_
  exact (upholds_routine h htop).bind fun _ _ h => h

/-- Reading a line takes the character that is pushed back. -/
theorem upholds_pcGetline {fuel : Nat} (h : Stacked L s (files + 1) level 1) :
    Upholds L env (pcGetline L fuel) (fun _ s => Stacked L s (files + 1) level 0) s := by
  refine (upholds_getline fuel _ h).bind fun l s h => ?_
  exact (upholds_stosb h (Nat.zero_le 1)).bind fun _ _ h => h

/-- The records of the open files, when as many are open as the level says, and how much may be
pushed back between two commands. -/
def Ready (L : Layout) (top : Nat) (s : State φ) : Prop :=
  ∃ n, Stacked L s (n + 1) (n + 1) top

/-- A parser with nothing pushed back is ready for a character. -/
theorem Ready.mono (h : Ready L 0 s) : Ready L 1 s := by
  obtain ⟨n, h⟩ := h
  exact ⟨n, h.mono (Nat.zero_le 1)⟩

/-- A routine that keeps all files keeps the level. -/
theorem upholds_ready {α : Type} {p : Parser α} (h : Ready L 1 s)
    (hp : ∀ n, Stacked L s (n + 1) (n + 1) 1 →
      Upholds L env p (fun _ s => Stacked L s (n + 1) (n + 1) 1) s) :
    Upholds L env p (fun _ => Ready L 1) s := by
  obtain ⟨n, h⟩ := h
  exact (hp n h).mono fun _ _ h => ⟨n, h⟩

/-- The commands for the default and the levels leave the stack behind their line. -/
theorem upholds_pcDefault {fuel ax : Nat} (h : Stacked L s (files + 1) level 1) :
    Upholds L env (pcDefault L fuel ax) (fun _ s => Stacked L s (files + 1) level 1) s := by
  refine (upholds_look h le_rfl).bind fun seg s h => ?_
  refine upholds_ite (fun _ => upholds_skipline fuel _ h) fun _ => ?_
  refine (upholds_setWord h le_rfl).bind fun _ s h => ?_
  refine (upholds_getline fuel _ h).bind fun l s h => ?_
  exact upholds_stosb (h.mono (Nat.zero_le 1)) le_rfl

/-- So does `ontimeout`. -/
theorem upholds_pcOntimeout {fuel : Nat} (h : Stacked L s (files + 1) level 1) :
    Upholds L env (pcOntimeout L fuel) (fun _ s => Stacked L s (files + 1) level 1) s :=
  (upholds_getline fuel _ h).bind fun _ _ h => upholds_setWord (h.mono (Nat.zero_le 1)) le_rfl

/-- So does `onerror`. -/
theorem upholds_pcOnerror {fuel : Nat} (h : Stacked L s (files + 1) level 1) :
    Upholds L env (pcOnerror L fuel) (fun _ s => Stacked L s (files + 1) level 1) s :=
  (upholds_getline fuel _ h).bind fun _ _ h => upholds_setWord (h.mono (Nat.zero_le 1)) le_rfl

/-- So does `append`. -/
theorem upholds_pcAppend {fuel : Nat} (h : Stacked L s (files + 1) level 1) :
    Upholds L env (pcAppend L fuel) (fun _ s => Stacked L s (files + 1) level 1) s := by
  refine (upholds_look h le_rfl).bind fun seg s h => ?_
  refine upholds_ite (fun _ => ?_) fun _ => ?_
  · refine (upholds_getline fuel _ h).bind fun l s h => ?_
    exact upholds_setWord (h.mono (Nat.zero_le 1)) le_rfl
  · refine (upholds_getline fuel _ h).bind fun l s h => ?_
    refine (upholds_look (h.mono (Nat.zero_le 1)) le_rfl).bind fun seg s h => ?_
    exact upholds_setWord h le_rfl

/-- So does `localboot`. -/
theorem upholds_pcLocalboot (h : Stacked L s (files + 1) level 1) :
    Upholds L env (pcLocalboot L) (fun _ s => Stacked L s (files + 1) level 1) s := by
  refine (upholds_getint h).bind fun bx s h => ?_
  refine (upholds_look h le_rfl).bind fun seg s h => ?_
  refine upholds_ite (fun _ => h) fun _ => ?_
  exact (upholds_setWord h le_rfl).bind fun _ _ h => upholds_setByte h le_rfl

/-- Outside a label the parameter is not read, and its first character stays pushed back. -/
theorem upholds_pcKernel {fuel : Nat} {al : UInt8} (h : Stacked L s (files + 1) level 1) :
    Upholds L env (pcKernel L fuel al) (fun _ s => Stacked L s (files + 1) level 1) s := by
  refine (upholds_look h le_rfl).bind fun seg s h => ?_
  refine upholds_ite (fun _ => h) fun _ => ?_
  refine (upholds_setByte h le_rfl).bind fun _ s h => ?_
  refine (upholds_pcGetline h).bind fun _ s h => ?_
  exact (upholds_routine (h.mono (Nat.zero_le 1)) le_rfl).bind fun _ _ h => h

/-- So do the timeouts. -/
theorem upholds_pcTimeout {si : Var} {hsi : 4 ≤ si.size} (h : Stacked L s (files + 1) level 1) :
    Upholds L env (pcTimeout L si hsi) (fun _ s => Stacked L s (files + 1) level 1) s := by
  refine (upholds_getint h).bind fun ebx s h => ?_
  cases ebx with
  | none => exact h
  | some ebx => exact upholds_set h le_rfl

/-- So do the flags. -/
theorem upholds_pcSetint16 {si : Var} {hsi : 2 ≤ si.size} (h : Stacked L s (files + 1) level 1) :
    Upholds L env (pcSetint16 L si hsi) (fun _ s => Stacked L s (files + 1) level 1) s := by
  refine (upholds_getint h).bind fun ebx s h => ?_
  cases ebx with
  | none => exact h
  | some ebx => exact upholds_setWord h le_rfl

/-- So does the speed of the serial port. -/
theorem upholds_parseBaud {port : Nat} {ebx : UInt32} (h : Stacked L s files level 1) :
    Upholds L env (parseBaud port ebx) (fun _ s => Stacked L s files level 1) s := by
  refine upholds_ite (fun _ => upholds_setWord h le_rfl) fun _ => ?_
  refine (upholds_setWord h le_rfl).bind fun _ s h => ?_
  refine (upholds_look h le_rfl).bind fun seg s h => ?_
  refine (upholds_setWord h le_rfl).bind fun _ s h => ?_
  refine (upholds_routine h le_rfl).bind fun _ s h => ?_
  exact upholds_ite (fun _ => upholds_setWord h le_rfl) fun _ => h

/-- So does its handshake. -/
theorem upholds_validFlow {bx : Nat} (h : Stacked L s files level 1) :
    Upholds L env (validFlow bx) (fun _ s => Stacked L s files level 1) s :=
  (upholds_setByte h le_rfl).bind fun _ _ h => upholds_setWord h le_rfl

/-- Each number is looked for with its first character pushed back, which leaves room. -/
theorem upholds_pcSerial {fuel : Nat} (h : Stacked L s (files + 1) level 1) :
    Upholds L env (pcSerial L fuel) (fun _ s => Stacked L s (files + 1) level 1) s := by
  refine (upholds_getint h).bind fun port s h => ?_
  cases port with
  | none => exact upholds_setWord h le_rfl
  | some port =>
    refine (upholds_set h le_rfl).bind fun _ s h => ?_
    refine (upholds_skipspace fuel h).bind fun c s h => ?_
    cases c with
    | eof => exact upholds_parseBaud (h.mono (Nat.zero_le 1))
    | eoln => exact upholds_parseBaud (h.mono (Nat.zero_le 1))
    | char al =>
      refine (upholds_ungetc h).bind fun _ s h => ?_
      refine (upholds_getint h).bind fun baud s h => ?_
      cases baud with
      | none => exact upholds_parseBaud h
      | some baud =>
        refine (upholds_skipspace fuel h).bind fun c s h => ?_
        cases c with
        | eof =>
          exact (upholds_validFlow (h.mono (Nat.zero_le 1))).bind fun _ _ h => upholds_parseBaud h
        | eoln =>
          exact (upholds_validFlow (h.mono (Nat.zero_le 1))).bind fun _ _ h => upholds_parseBaud h
        | char al =>
          refine (upholds_ungetc h).bind fun _ s h => ?_
          refine (upholds_getint h).bind fun flow s h => ?_
          exact (upholds_validFlow h).bind fun _ _ h => upholds_parseBaud h

/-- So do the commands with a file name. -/
theorem upholds_pcFilename {fuel di : Nat} (h : Stacked L s (files + 1) level 1) :
    Upholds L env (pcFilename L fuel di) (fun _ s => Stacked L s (files + 1) level 1) s := by
  refine (upholds_pcGetline h).bind fun _ s h => ?_
  exact (upholds_routine (h.mono (Nat.zero_le 1)) le_rfl).bind fun _ _ h => h

/-- So does `label`. -/
theorem upholds_pcLabel {fuel : Nat} (h : Stacked L s (files + 1) level 1) :
    Upholds L env (pcLabel L fuel) (fun _ s => Stacked L s (files + 1) level 1) s := by
  refine (upholds_commitVk h le_rfl).bind fun _ s h => ?_
  refine (upholds_setByte h le_rfl).bind fun _ s h => ?_
  refine (upholds_set h le_rfl).bind fun _ s h => ?_
  refine (upholds_pcGetline h).bind fun _ s h => ?_
  refine (upholds_look (h.mono (Nat.zero_le 1)) le_rfl).bind fun seg s h => ?_
  refine (upholds_set h le_rfl).bind fun _ s h => ?_
  refine (upholds_setByte h le_rfl).bind fun _ s h => ?_
  refine (upholds_routine h le_rfl).bind fun _ s h => ?_
  refine (upholds_look h le_rfl).bind fun seg s h => ?_
  exact (upholds_setWord h le_rfl).bind fun _ _ h => upholds_stosb h le_rfl

/-- So does `say`. -/
theorem upholds_pcSay {fuel : Nat} (h : Stacked L s (files + 1) level 1) :
    Upholds L env (pcSay L fuel) (fun _ s => Stacked L s (files + 1) level 1) s := by
  refine (upholds_pcGetline h).bind fun _ s h => ?_
  refine (upholds_look (h.mono (Nat.zero_le 1)) le_rfl).bind fun seg s h => ?_
  refine (upholds_routine h le_rfl).bind fun _ s h => ?_
  exact (upholds_routine h le_rfl).bind fun _ _ h => h

/-- So does a help text. -/
theorem upholds_pcText {fuel : Nat} (h : Stacked L s (files + 1) level 1) :
    Upholds L env (pcText L fuel) (fun _ s => Stacked L s (files + 1) level 1) s := by
  refine (upholds_skipline fuel 0 h).bind fun _ s h => ?_
  refine upholds_loop (fun _ s => Stacked L s (files + 1) level 1) (fun _ s h => ?_) fuel h
  refine (upholds_pcGetline h).bind fun cf s h => ?_
  refine upholds_ite (fun _ => h.mono (Nat.zero_le 1)) fun _ => ?_
  refine (upholds_look (h.mono (Nat.zero_le 1)) le_rfl).bind fun seg s h => ?_
  exact upholds_ite (fun _ => h) fun _ => h

/-- A file is opened behind a whole line, with nothing pushed back. -/
theorem upholds_pcOpencmd {fuel : Nat} {ax : Parser Unit} (h : Ready L 1 s)
    (hax : ∀ n s, Stacked L s (n + 1 + 1) (n + 1) 0 → Upholds L env ax (fun _ => Ready L 1) s) :
    Upholds L env (pcOpencmd L fuel ax) (fun _ => Ready L 1) s := by
  obtain ⟨n, h⟩ := h
  refine (upholds_pcGetline h).bind fun _ s h => ?_
  refine (upholds_routine h (Nat.zero_le 1)).bind fun _ s h => ?_
  refine (upholds_coreOpen h).bind fun ok s h => ?_
  cases ok with
  | true => exact hax n s h
  | false => exact Ready.mono ⟨n, h⟩

end Liigboot.Getc.Parser
