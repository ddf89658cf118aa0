import Liigboot.Boot.ParseInt
import Liigboot.Config.Store
import Liigboot.Lib.StringOps

/-!
# Message files

`get_msg_file` of `conio.inc` writes a file to the screen and to the serial port, one byte after the
other. Control characters choose colors and the modes in which text is displayed, clear the screen,
and name a picture to be displayed. The screen is the BIOS's, with its own cursor.
-/

namespace Liigboot.Message

open Liigboot.Config Liigboot.Boot

/-! ## The screen -/

/-- A character with its attribute. -/
structure Cell where
  char : UInt8
  attr : UInt8
  deriving DecidableEq, Repr

/-- The screen by rows and columns, and its cursor. -/
structure Bios where
  cell : Nat → Nat → Cell
  row : UInt8
  col : UInt8

/-- `int 10h` with `AH = 09h`: a character is written at the cursor, once. -/
def Bios.writeCell (b : Bios) (c : Cell) : Bios :=
  { b with cell := fun r k => if r = b.row.toNat ∧ k = b.col.toNat then c else b.cell r k }

/-- `int 10h` with `AH = 02h`. -/
def Bios.setCursor (b : Bios) (row col : UInt8) : Bios := { b with row := row, col := col }

/-- `int 10h` with `AH = 06h`, from the upper left corner: the region goes up by some lines, or is
cleared with none. -/
def Bios.scrollUp (b : Bios) (lines : Nat) (attr bottom right : UInt8) : Bios :=
  { b with cell := fun r k =>
      if r ≤ bottom.toNat ∧ k ≤ right.toNat then
        if lines = 0 ∨ bottom.toNat < r + lines then ⟨0x20, attr⟩ else b.cell (r + lines) k
      else b.cell r k }

/-- The screen, and what the loader knows of it. -/
structure Display where
  bios : Bios
  cursorCol : UInt8
  cursorRow : UInt8
  vidCols : UInt8
  vidRows : UInt8
  scrollAttribute : UInt8
  usingVga : UInt8

/-- The cursor is on the screen, where the loader takes it to be. -/
structure Display.OnScreen (d : Display) : Prop where
  row_eq : d.bios.row = d.cursorRow
  col_eq : d.bios.col = d.cursorCol
  row_le : d.cursorRow ≤ d.vidRows
  col_le : d.cursorCol ≤ d.vidCols

/-- `int 10h` with `AH = 03h`, as `msg_initvars` does it. -/
def Display.readCursor (d : Display) : Display :=
  { d with cursorRow := d.bios.row, cursorCol := d.bios.col }

/-- The video modes: what setting the text mode makes of a screen, and displaying a picture, by the
name in the message file, if it is found. Either leaves a cursor that is on the screen on it. -/
structure Video where
  textMode : Display → Display
  picture : List UInt8 → Option (Display → Display)
  textMode_onScreen : ∀ d : Display, d.OnScreen → (textMode d).readCursor.OnScreen
  picture_onScreen : ∀ name f, picture name = some f →
    ∀ d : Display, d.OnScreen → (f d).readCursor.OnScreen

/-- `msg_gotoxy`. -/
def Display.gotoxy (d : Display) : Display :=
  { d with bios := d.bios.setCursor d.cursorRow d.cursorCol }

/-- `msg_scroll`. -/
def Display.scroll (d : Display) : Display :=
  { d with
    cursorRow := d.vidRows -- New cursor at the bottom
    bios := d.bios.scrollUp 1 d.scrollAttribute d.vidRows d.vidCols }.gotoxy

/-- `msg_line_wrap`, when the text is displayed. -/
def Display.lineWrap (d : Display) : Display :=
  let d := { d with cursorCol := 0 }
  let al := d.cursorRow + 1
  if d.vidRows < al then d.scroll else { d with cursorRow := al }.gotoxy

/-! ## The interpreter -/

/-- `NextCharJump`. -/
inductive NextChar
  | putchar
  | setbg
  | setfg
  | filename
  deriving DecidableEq, Repr

/-- The size of `VGAFileBuf`. -/
def vgaFileBufSize : Nat := filenameMax + 2

/-- The variables of the interpreter, with `VGAFilePtr` as an offset, and what was written to the
serial port. -/
structure State where
  display : Display
  nextCharJump : NextChar
  displayMask : UInt8
  textAttribute : UInt8
  vgaFilePtr : Nat
  vgaFileBuf : Nat → UInt8
  serial : List UInt8

variable (video : Video) (displayCon : Bool)

/-- `write_serial_displaymask`. -/
def State.writeSerial (s : State) (bytes : List UInt8) : State :=
  if s.displayMask &&& 0x04 = 0 then s else { s with serial := s.serial ++ bytes }

/-- `msg_line_wrap`, with `CL`. -/
def lineWrap (cl : UInt8) (s : State) : State :=
  if s.displayMask &&& cl = 0 then s else { s with display := s.display.lineWrap }

/-- `msg_normal`. -/
def normal (cl : UInt8) (s : State) (al : UInt8) : State :=
  let s := s.writeSerial [al]
  if s.displayMask &&& cl = 0 then s
  else if displayCon then
    let d := s.display
    let d := { d with bios := d.bios.writeCell ⟨al, s.textAttribute⟩ }
    let col := d.cursorCol + 1
    -- `CL` is 1 from here on, for one character
    if d.vidCols < col then lineWrap 1 { s with display := d }
    else { s with display := { d with cursorCol := col }.gotoxy }
  else s

/-- `msg_newline`. -/
def newline (cl : UInt8) (s : State) : State := lineWrap cl (s.writeSerial [0x0D, 0x0A])

/-- `msg_formfeed`. -/
def formfeed (cl : UInt8) (s : State) : State :=
  let s := s.writeSerial [0x0D, 0x0C]
  if s.displayMask &&& cl = 0 then s
  else
    let d := { s.display with cursorCol := 0, cursorRow := 0 }
    let d := { d with bios := d.bios.scrollUp 0 s.textAttribute d.vidRows d.vidCols }
    { s with display := d.gotoxy }

/-- `msg_putcharnext`. -/
def putcharnext (s : State) : State := { s with nextCharJump := .putchar }

/-- `msg_color_bad`. -/
def colorBad (s : State) : State := putcharnext { s with textAttribute := 0x07 }

/-- `msg_setbg`. -/
def setbg (cl : UInt8) (s : State) (al : UInt8) : State :=
  match unhexchar al with
  | none => colorBad s
  | some al =>
    let s := if s.displayMask &&& cl = 0 then s else { s with textAttribute := al <<< 4 }
    { s with nextCharJump := .setfg }

/-- `msg_setfg`. -/
def setfg (cl : UInt8) (s : State) (al : UInt8) : State :=
  match unhexchar al with
  | none => colorBad s
  | some al =>
    -- setbg set foreground to 0
    putcharnext (if s.displayMask &&& cl = 0 then s
      else { s with textAttribute := s.textAttribute ||| al })

/-- `msg_initvars`. -/
def initvars (s : State) : State := putcharnext { s with display := s.display.readCursor }

/-- `msg_novga`. -/
def novga (s : State) : State :=
  -- `vgaclearmode`
  initvars (if s.display.usingVga = 0 then s else { s with display := video.textMode s.display })

/-- `msg_viewimage`. -/
def viewimage (s : State) : State :=
  let s := { s with vgaFileBuf := put s.vgaFileBuf s.vgaFilePtr 0 } -- Zero-terminate filename
  let name := cString ((List.range (vgaFileBufSize + 1)).map s.vgaFileBuf)
  match video.picture name with
  | none => putcharnext s -- Not there
  | some vgadisplayfile => initvars { s with display := vgadisplayfile s.display }

/-- `msg_filename`. -/
def filename (s : State) (al : UInt8) : State :=
  if al = 0x0A then viewimage video s
  else if al ≤ 0x20 then s -- Ignore space/control char
  else if vgaFileBufSize ≤ s.vgaFilePtr then s
  else
    { s with vgaFileBuf := put s.vgaFileBuf s.vgaFilePtr al, vgaFilePtr := s.vgaFilePtr + 1 }

/-- `msg_putchar`. -/
def putchar (cl : UInt8) (s : State) (al : UInt8) : State :=
  if al = 0x0F then { s with nextCharJump := .setbg }
  else if al = 0x0D then s
  else if al = 0x0A then newline cl s
  else if al = 0x0C then formfeed cl s
  else if al = 0x07 then s -- beep
  else if al = 0x19 then novga video s
  else if al = 0x18 then { s with nextCharJump := .filename, vgaFilePtr := 0 }
  else if al < 0x18 ∧ 0x10 ≤ al then putcharnext { s with displayMask := al &&& 0x07 }
  else normal displayCon cl s al

/-- `call [NextCharJump]`, with `CL` by `UsingVGA`. -/
def nextChar (s : State) (al : UInt8) : State :=
  let cl := (s.display.usingVga &&& 1) + 1
  match s.nextCharJump with
  | .putchar => putchar video displayCon cl s al
  | .setbg => setbg cl s al
  | .setfg => setfg cl s al
  | .filename => filename video s al

/-- `print_msg_file`. -/
def printMsgFile : List UInt8 → State → State
  | [], s => s
  | al :: file, s => if al = 0x1A then s else printMsgFile file (nextChar video displayCon s al)

/-- `get_msg_file`. -/
def getMsgFile (file : List UInt8) (s : State) : State :=
  printMsgFile video displayCon file
    (initvars { s with textAttribute := 0x07, displayMask := 0x07 })

/-! ## The cursor and the buffer -/

/-- The cursor is on the screen, and no store has left `VGAFileBuf` by more than one byte. -/
structure Safe (buf : Nat → UInt8) (s : State) : Prop where
  onScreen : s.display.OnScreen
  ptr_le : s.nextCharJump = .filename → s.vgaFilePtr ≤ vgaFileBufSize
  outside : ∀ a, vgaFileBufSize < a → s.vgaFileBuf a = buf a

variable {video} {displayCon} {d : Display} {s : State} {buf : Nat → UInt8} {cl al : UInt8}

/-- A cursor in the rows and columns is on the screen. -/
theorem Display.gotoxy_onScreen (hrow : d.cursorRow ≤ d.vidRows) (hcol : d.cursorCol ≤ d.vidCols) :
    d.gotoxy.OnScreen := ⟨rfl, rfl, hrow, hcol⟩

/-- A new row is on the screen. -/
theorem Display.lineWrap_onScreen (d : Display) : d.lineWrap.OnScreen := by
  unfold Display.lineWrap
  by_cases hlast : d.vidRows < d.cursorRow + 1
  · simp only [if_pos hlast]
    exact Display.gotoxy_onScreen (UInt8.le_refl _) (UInt8.zero_le)
  · simp only [if_neg hlast]
    exact Display.gotoxy_onScreen (UInt8.not_lt.mp hlast) (UInt8.zero_le)

/-- Bytes on the serial port are safe. -/
theorem Safe.writeSerial (h : Safe buf s) (bytes : List UInt8) : Safe buf (s.writeSerial bytes) := by
  unfold State.writeSerial
  split_ifs
  · exact h
  · exact ⟨h.onScreen, h.ptr_le, h.outside⟩

/-- So is a wrap. -/
theorem Safe.lineWrap (h : Safe buf s) : Safe buf (lineWrap cl s) := by
  unfold Message.lineWrap
  split_ifs
  · exact h
  · exact ⟨s.display.lineWrap_onScreen, h.ptr_le, h.outside⟩

/-- So is the end of a code. -/
theorem Safe.putcharnext (h : Safe buf s) : Safe buf (putcharnext s) :=
  ⟨h.onScreen, fun hname => (nomatch hname), h.outside⟩

/-- So is a character that is displayed. -/
theorem Safe.normal (h : Safe buf s) : Safe buf (normal displayCon cl s al) := by
  have hserial := h.writeSerial [al]
  unfold Message.normal
  generalize s.writeSerial [al] = s at hserial
  simp only
  have hon := hserial.onScreen
  split_ifs with hmask hcon hlast
  · exact hserial
  · exact Safe.lineWrap ⟨⟨hon.row_eq, hon.col_eq, hon.row_le, hon.col_le⟩, hserial.ptr_le,
      hserial.outside⟩
  · exact ⟨Display.gotoxy_onScreen hon.row_le (UInt8.not_lt.mp hlast), hserial.ptr_le,
      hserial.outside⟩
  · exact hserial

/-- So is a form feed. -/
theorem Safe.formfeed (h : Safe buf s) : Safe buf (formfeed cl s) := by
  have hserial := h.writeSerial [0x0D, 0x0C]
  unfold Message.formfeed
  generalize s.writeSerial [0x0D, 0x0C] = s at hserial
  simp only
  split_ifs with hmask
  · exact hserial
  · exact ⟨Display.gotoxy_onScreen UInt8.zero_le UInt8.zero_le, hserial.ptr_le, hserial.outside⟩

/-- So is a color. -/
theorem Safe.color (h : Safe buf s) (attr : UInt8) (p : Prop) [Decidable p] :
    Safe buf (if p then s else { s with textAttribute := attr }) := by
  split_ifs
  · exact h
  · exact ⟨h.onScreen, h.ptr_le, h.outside⟩

/-- So is that of the background. -/
theorem Safe.setbg (h : Safe buf s) : Safe buf (setbg cl s al) := by
  unfold Message.setbg
  cases unhexchar al with
  | none => exact Safe.putcharnext ⟨h.onScreen, h.ptr_le, h.outside⟩
  | some al =>
    have hcolor := h.color (al <<< 4) (s.displayMask &&& cl = 0)
    exact ⟨hcolor.onScreen, fun hname => (nomatch hname), hcolor.outside⟩

/-- So is that of the foreground. -/
theorem Safe.setfg (h : Safe buf s) : Safe buf (setfg cl s al) := by
  unfold Message.setfg
  cases unhexchar al with
  | none => exact Safe.putcharnext ⟨h.onScreen, h.ptr_le, h.outside⟩
  | some al => exact (h.color _ _).putcharnext

/-- So is the way back to the text mode. -/
theorem Safe.novga (h : Safe buf s) : Safe buf (novga video s) := by
  unfold Message.novga
  split_ifs
  · have hread : s.display.readCursor.OnScreen := by
      refine ⟨rfl, rfl, ?_, ?_⟩
      · change s.display.bios.row ≤ s.display.vidRows
        rw [h.onScreen.row_eq]
        exact h.onScreen.row_le
      · change s.display.bios.col ≤ s.display.vidCols
        rw [h.onScreen.col_eq]
        exact h.onScreen.col_le
    exact Safe.putcharnext ⟨hread, h.ptr_le, h.outside⟩
  · exact Safe.putcharnext ⟨video.textMode_onScreen _ h.onScreen, h.ptr_le, h.outside⟩

/-- So is a character of the picture's name. -/
theorem Safe.filename (h : Safe buf s) (hname : s.nextCharJump = .filename) :
    Safe buf (filename video s al) := by
  have hptr := h.ptr_le hname
  have hstore : ∀ b, ∀ a, vgaFileBufSize < a → put s.vgaFileBuf s.vgaFilePtr b a = buf a :=
    fun b a ha => (put_of_ne b (by omega)).trans (h.outside a ha)
  unfold Message.filename
  split_ifs with hend hblank hfull
  · unfold viewimage
    simp only
    split
    · exact Safe.putcharnext ⟨h.onScreen, h.ptr_le, hstore 0⟩
    · next f hf =>
      exact Safe.putcharnext ⟨video.picture_onScreen _ f hf _ h.onScreen, h.ptr_le, hstore 0⟩
  · exact h
  · exact h
  · refine ⟨h.onScreen, fun _ => ?_, hstore al⟩
    exact Nat.not_le.mp hfull

/-- So is every first character of a code. -/
theorem Safe.putchar (h : Safe buf s) : Safe buf (putchar video displayCon cl s al) := by
  have hother : ∀ next, next ≠ .filename → Safe buf { s with nextCharJump := next } :=
    fun next hne => ⟨h.onScreen, fun hname => absurd hname hne, h.outside⟩
  unfold Message.putchar
  split_ifs
  · exact hother .setbg (by decide)
  · exact h
  · exact (h.writeSerial _).lineWrap
  · exact h.formfeed
  · exact h
  · exact h.novga
  · exact ⟨h.onScreen, fun _ => Nat.zero_le _, h.outside⟩
  · exact Safe.putcharnext ⟨h.onScreen, h.ptr_le, h.outside⟩
  · exact h.normal

/-- Every character of a file is safe where it stands. -/
theorem Safe.nextChar (h : Safe buf s) : Safe buf (nextChar video displayCon s al) := by
  unfold Message.nextChar
  simp only
  cases hnext : s.nextCharJump with
  | putchar => exact h.putchar
  | setbg => exact h.setbg
  | setfg => exact h.setfg
  | filename => exact h.filename hnext

/-- So are all of them. -/
theorem Safe.printMsgFile (h : Safe buf s) (file : List UInt8) :
    Safe buf (printMsgFile video displayCon file s) := by
  induction file generalizing s with
  | nil => exact h
  | cons al file ih =>
    unfold Message.printMsgFile
    split_ifs
    · exact h
    · exact ih h.nextChar

/-- Whatever a message file holds, the cursor is on the screen behind each of its bytes, where the
BIOS has it, and the name of a picture runs over `VGAFileBuf` by its final NUL at most. -/
theorem message_file_safe (video : Video) (displayCon : Bool) (file : List UInt8) (s : State)
    (hcursor : s.display.readCursor.OnScreen) :
    Safe s.vgaFileBuf (getMsgFile video displayCon file s) := by
  have hstart : Safe s.vgaFileBuf
      (initvars { s with textAttribute := 0x07, displayMask := 0x07 }) :=
    ⟨hcursor, fun hname => (nomatch hname), fun _ _ => rfl⟩
  exact hstart.printMsgFile file

/-- A blank screen of 80 columns and 25 rows. -/
def sampleDisplay : Display where
  bios := ⟨fun _ _ => ⟨0x20, 0x07⟩, 24, 79⟩
  cursorCol := 0
  cursorRow := 0
  vidCols := 79
  vidRows := 24
  scrollAttribute := 0x07
  usingVga := 0

/-- A screen with the cursor in its corner. -/
def clearedDisplay (usingVga : UInt8) : Display :=
  { sampleDisplay with bios := ⟨fun _ _ => ⟨0x20, 0x07⟩, 0, 0⟩, usingVga := usingVga }

/-- Setting a mode clears the screen; the only picture is called `a`. -/
def sampleVideo : Video where
  textMode _ := clearedDisplay 0
  picture name := if name = [0x61] then some fun _ => clearedDisplay 1 else none
  textMode_onScreen _ _ := ⟨rfl, rfl, by decide, by decide⟩
  picture_onScreen name f h d hd := by
    split_ifs at h
    cases h
    exact ⟨rfl, rfl, UInt8.zero_le, UInt8.zero_le⟩

def sampleState : State := ⟨sampleDisplay, .putchar, 0, 0, 0, fun _ => 0, []⟩

/-- Text, a picture, text in graphics mode, and the text mode again. -/
theorem message_file_safe_sample :
    Safe sampleState.vgaFileBuf (getMsgFile sampleVideo true
      [0x41, 0x0A, 0x18, 0x61, 0x0A, 0x42, 0x19, 0x0C] sampleState) :=
  message_file_safe sampleVideo true _ sampleState ⟨rfl, rfl, by decide, by decide⟩

end Liigboot.Message
