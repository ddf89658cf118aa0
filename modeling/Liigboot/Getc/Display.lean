import Liigboot.Getc.Reader

/-!
# Files that are shown or installed

The commands `display`, `font` and `kbdmap` open a file, and a message file can open a picture. Each
of their routines closes its file on all paths, and leaves nothing pushed back.
-/

namespace Liigboot.Getc.Parser

/-! ## The source -/

/-- The loop of `vgadisplayfile` at `.gethdr`, with the carry flag. -/
def gethdr : (cx : Nat) → cx ≤ Var.lssHeader.size → Bool → Parser Bool
  | 0, _, cf => return cf
  | cx + 1, hcx, _ => do
    let al ← getc
    set .lssHeader (Var.lssHeader.size - (cx + 1)) [al.getD 0] (by
      rw [List.length_singleton]
      omega)
    gethdr cx (Nat.le_of_succ_le hcx) al.isNone

/-- What `.getnybble` returns. -/
structure Nybble where
  al : UInt8
  dh : UInt8

/-- `.getnybble` -/
def getnybble (dh : UInt8) : Parser Nybble := do
  if dh &&& 0x10 ≠ 0 then return ⟨dh &&& 0x0f, dh &&& 0x0f⟩
  else
    let al ← getc
    return ⟨al.getD 0 &&& 0x0f, al.getD 0 >>> 4 ||| 0x10⟩

/-- `dec cx` -/
@[irreducible] def decCx (cx : Nat) : Nat := (cx + 0xffff) % 0x10000

/-- The registers of `rledecode` at `.loop`. -/
structure Rle where
  cx : Nat
  di : Nat
  dl : UInt8
  dh : UInt8

/-- `rledecode` at `.dorun`. -/
def dorun (bx : Nat) (r : Rle) : Parser (Rle ⊕ Unit) := do
  stosb r.di (List.replicate bx r.dl)
  if bx < r.cx then return .inl { r with cx := r.cx - bx, di := r.di + bx }
  else return .inr ()

/-- A pass of the loop of `rledecode`. -/
def rleStep (r : Rle) : Parser (Rle ⊕ Unit) := do
  let first ← getnybble r.dh
  if first.al = r.dl then
    let run ← getnybble first.dh
    if run.al = 0 then
      -- `.longrun`
      let low ← getnybble run.dh
      let high ← getnybble low.dh
      dorun ((low.al ||| high.al <<< 4).toNat + 16) { r with dh := high.dh }
    else dorun run.al.toNat { r with dh := run.dh }
  else
    stosb r.di [first.al]
    let cx := decCx r.cx
    if cx ≠ 0 then return .inl { cx, di := r.di + 1, dl := first.al, dh := first.dh }
    else return .inr ()

/-- `rledecode` -/
def rledecode (fuel cx di : Nat) : Parser Unit := .loop rleStep fuel ⟨cx, di, 0, 0⟩

section places

variable (L : Layout) (fuel : Nat)

/-- A pass of the loop at `.drawpixelrow`. -/
def drawStep (cx : Nat) : Parser (Nat ⊕ Unit) := do
  set .vgaRowBuffer 0 (List.replicate 640 0) (by
    rw [List.length_replicate]
    decide)
  let seg ← look
  rledecode fuel (memLe seg (L.addr .lssHeader + 4) 2) (L.addr .vgaRowBuffer)
  let _ ← routine .outputRow
  let seg ← look
  setWord .vgaPos 0 (memLe seg (L.addr .vgaPos) 2 + 640 / 8) (by decide)
  if decCx cx ≠ 0 then return .inl (decCx cx) else return .inr ()

/-- `vgadisplayfile` from `.gethdr` on, up to `.error`. -/
def drawfile : Parser Unit := do
  if ← gethdr Var.lssHeader.size (Nat.le_refl _) false then return ()
  else
    let seg ← look
    if memLe seg (L.addr .lssHeader) 4 ≠ 0x1413f33d then return ()
    else
      let _ ← routine .setPalette
      setWord .vgaPos 0 0 (by decide)
      .loop (drawStep L fuel) fuel (memLe seg (L.addr .lssHeader + 6) 2)

/-- `vgadisplayfile` -/
def vgadisplayfile : Parser Unit := do
  let _ ← routine .vgaclearmode
  if (← routine .vgasetmode) ≠ 0 then close
  else
    drawfile L fuel
    close

/-- The routines in `NextCharJump`. A store over this variable is not followed. -/
inductive MsgJump
  | msgPutchar
  | msgSetbg
  | msgSetfg
  | msgFilename

/-- `msg_initvars` -/
def msgInitvars : Parser MsgJump := do
  let _ ← routine .readCursor
  return .msgPutchar

/-- `msg_putchar`, with the display mask of the mode in `CL`. -/
def msgPutchar (cl al : UInt8) : Parser MsgJump := do
  if al = 0x0f then return .msgSetbg
  else if al = 0x0d then return .msgPutchar
  else if al = 0x0a then
    let _ ← routine (.msgNewline cl)
    return .msgPutchar
  else if al = 0x0c then
    let _ ← routine (.msgFormfeed cl)
    return .msgPutchar
  else if al = 0x07 then
    let _ ← routine .msgBeep
    return .msgPutchar
  else if al = 0x19 then
    -- `msg_novga`
    let _ ← routine .vgaclearmode
    msgInitvars
  else if al = 0x18 then
    -- `msg_vga`
    setWord .vgaFilePtr 0 (L.addr .vgaFileBuf) (by decide)
    return .msgFilename
  else if al < 0x18 ∧ 0x10 ≤ al then
    -- `msg_modectl`
    setByte .displayMask 0 (al &&& 0x07) (by decide)
    return .msgPutchar
  else
    let _ ← routine (.msgNormal al cl)
    return .msgPutchar

/-- `msg_setbg` and `msg_setfg`, which set one half of the attribute and go on differently. -/
def msgColor (cl al : UInt8) (mix : UInt8 → UInt8 → UInt8) (next : MsgJump) :
    Parser MsgJump := do
  match Boot.unhexchar al with
  | none =>
    -- `msg_color_bad`
    setByte .textAttribute 0 0x07 (by decide)
    return .msgPutchar
  | some al =>
    let seg ← look
    if seg (L.addr .displayMask) &&& cl = 0 then return next
    else
      setByte .textAttribute 0 (mix (seg (L.addr .textAttribute)) al) (by decide)
      return next

/-- `msg_viewimage` -/
def msgViewimage : Parser MsgJump := do
  let seg ← look
  stosb (memLe seg (L.addr .vgaFilePtr) 2) [0]
  let _ ← routine (.mangleName (L.addr .vgaFileBuf) (L.addr .vgaFileMBuf))
  if ← coreOpen (L.addr .vgaFileMBuf) then
    vgadisplayfile L fuel
    msgInitvars
  else return .msgPutchar

/-- `msg_filename` -/
def msgFilename (al : UInt8) : Parser MsgJump := do
  if al = 0x0a then msgViewimage L fuel
  else if al ≤ 0x20 then return .msgFilename
  else
    let seg ← look
    let di := memLe seg (L.addr .vgaFilePtr) 2
    if L.addr .vgaFileBuf + Var.vgaFileBuf.size ≤ di then return .msgFilename
    else
      stosb di [al]
      setWord .vgaFilePtr 0 (di + 1) (by decide)
      return .msgFilename

/-- `call [NextCharJump]` -/
def msgChar (cl al : UInt8) : MsgJump → Parser MsgJump
  | .msgPutchar => msgPutchar L cl al
  | .msgSetbg => msgColor L cl al (fun _ al => al <<< 4) .msgSetfg
  | .msgSetfg => msgColor L cl al (fun old al => old ||| al) .msgPutchar
  | .msgFilename => msgFilename L fuel al

/-- `print_msg_file`, up to `.done`. -/
def printMsgFile (jump : MsgJump) : Parser Unit :=
  .loop (fun jump => do
    match ← getc with
    | none => return .inr ()
    | some al =>
      if al = 0x1a then return .inr ()
      else
        let seg ← look
        let jump ← msgChar L fuel ((seg (L.addr .usingVGA) &&& 0x01) + 1) al jump
        return .inl jump) fuel jump

/-- `get_msg_file` -/
def getMsgFile : Parser Unit := do
  setByte .textAttribute 0 0x07 (by decide)
  setByte .displayMask 0 0x07 (by decide)
  let jump ← msgInitvars
  printMsgFile L fuel jump
  close

/-- `loadfont`. The copy of the font to its own segment is not modelled. -/
def loadfont : Parser Unit := do
  if ← readc 4 (L.addr .trackbuf) then close
  else
    let seg ← look
    let bh := seg (L.addr .trackbuf + 3)
    if memLe seg (L.addr .trackbuf) 2 ≠ 0x0436 then close
    else if 5 < seg (L.addr .trackbuf + 2) then close
    else if bh < 2 ∨ 32 < bh then close
    else if ← readc (bh.toNat * 256) (L.addr .trackbuf) then close
    else
      close
      setByte .vgaFontSize 0 bh (by decide)
      setByte .userFont 0 1 (by decide)
      let _ ← routine .useFont

/-- `loadkeys` -/
def loadkeys : Parser Unit := do
  if ← readc 256 (L.addr .trackbuf) then close
  else
    match ← getc with
    | some _ => close
    | none =>
      let seg ← look
      set .kbdMap 0 (bytesAt seg (L.addr .trackbuf) 256) (by
        rw [length_bytesAt]
        decide)
      close

end places

/-! ## What they leave -/

variable {φ : Type} {L : Layout} {env : Env L.toPlaces φ} {s : State φ} {files level : Nat}

/-- Reading the header of a picture keeps the open files. -/
theorem upholds_gethdr {cx : Nat} {hcx : cx ≤ Var.lssHeader.size} {cf : Bool}
    (h : Stacked L s (files + 1) level 0) :
    Upholds L env (gethdr cx hcx cf) (fun _ s => Stacked L s (files + 1) level 0) s := by
  induction cx generalizing s cf with
  | zero => exact h
  | succ cx ih =>
    refine (upholds_getc (h.mono (Nat.zero_le 1))).bind fun al s h => ?_
    exact (upholds_set h (Nat.zero_le 1)).bind fun _ s h => ih h

/-- Reading a nybble keeps the open files. -/
theorem upholds_getnybble {dh : UInt8} (h : Stacked L s (files + 1) level 0) :
    Upholds L env (getnybble dh) (fun _ s => Stacked L s (files + 1) level 0) s := by
  unfold getnybble
  split
  · exact h
  · exact (upholds_getc (h.mono (Nat.zero_le 1))).bind fun _ s h => h

/-- Both ways out of a pass. -/
theorem upholds_dorun {bx : Nat} {r : Rle} (h : Stacked L s (files + 1) level 0) :
    Upholds L env (dorun bx r) (fun r s =>
      r.elim (fun _ s => Stacked L s (files + 1) level 0)
        (fun _ s => Stacked L s (files + 1) level 0) s) s := by
  refine (upholds_stosb h (Nat.zero_le 1)).bind fun _ s h => ?_
  split
  · exact h
  · exact h

/-- Decoding a row of pixels keeps the open files. -/
theorem upholds_rledecode (fuel cx di : Nat) (h : Stacked L s (files + 1) level 0) :
    Upholds L env (rledecode fuel cx di) (fun _ s => Stacked L s (files + 1) level 0) s := by
  refine upholds_loop (fun _ s => Stacked L s (files + 1) level 0) (fun r s h => ?_) fuel h
  refine (upholds_getnybble h).bind fun al s h => ?_
  split
  · refine (upholds_getnybble h).bind fun bl s h => ?_
    split
    · refine (upholds_getnybble h).bind fun bl s h => ?_
      exact (upholds_getnybble h).bind fun al s h => upholds_dorun h
    · exact upholds_dorun h
  · refine (upholds_stosb h (Nat.zero_le 1)).bind fun _ s h => ?_
    exact upholds_ite (fun _ => h) (fun _ => h)

/-- Drawing one row keeps the open files. -/
theorem upholds_drawStep {fuel cx : Nat} (h : Stacked L s (files + 1) level 0) :
    Upholds L env (drawStep L fuel cx) (fun r s =>
      r.elim (fun _ s => Stacked L s (files + 1) level 0)
        (fun _ s => Stacked L s (files + 1) level 0) s) s := by
  unfold drawStep
  refine (upholds_set h (Nat.zero_le 1)).bind fun _ s h => ?_
  refine (upholds_look h (Nat.zero_le 1)).bind fun seg s h => ?_
  refine (upholds_rledecode fuel _ _ h).bind fun _ s h => ?_
  refine (upholds_routine h (Nat.zero_le 1)).bind fun _ s h => ?_
  refine (upholds_look h (Nat.zero_le 1)).bind fun seg s h => ?_
  refine (upholds_setWord h (Nat.zero_le 1)).bind fun _ s h => ?_
  exact upholds_ite (fun _ => h) (fun _ => h)

/-- Drawing a picture keeps the open files. -/
theorem upholds_drawfile (fuel : Nat) (h : Stacked L s (files + 1) level 0) :
    Upholds L env (drawfile L fuel) (fun _ s => Stacked L s (files + 1) level 0) s := by
  refine (upholds_gethdr h).bind fun cf s h => ?_
  split
  · exact h
  refine (upholds_look h (Nat.zero_le 1)).bind fun seg s h => ?_
  split
  · exact h
  refine (upholds_routine h (Nat.zero_le 1)).bind fun _ s h => ?_
  refine (upholds_setWord h (Nat.zero_le 1)).bind fun _ s h => ?_
  exact upholds_loop (fun _ s => Stacked L s (files + 1) level 0)
    (fun _ _ h => upholds_drawStep h) fuel h

/-- The picture is closed, and the file below it is on top again. -/
theorem upholds_vgadisplayfile (fuel : Nat) (h : Stacked L s (files + 1) level 0) :
    Upholds L env (vgadisplayfile L fuel) (fun _ s => Stacked L s files level 0) s := by
  refine (upholds_routine h (Nat.zero_le 1)).bind fun _ s h => ?_
  refine (upholds_routine h (Nat.zero_le 1)).bind fun zf s h => ?_
  split
  · exact upholds_close h
  · exact (upholds_drawfile fuel h).bind fun _ s h => upholds_close h

/-- Setting the variables of a message up keeps the open files. -/
theorem upholds_msgInitvars (h : Stacked L s files level 0) :
    Upholds L env msgInitvars (fun _ s => Stacked L s files level 0) s :=
  (upholds_routine h (Nat.zero_le 1)).bind fun _ _ h => h

/-- Writing a character of a message keeps the open files. -/
theorem upholds_msgPutchar {cl al : UInt8} (h : Stacked L s files level 0) :
    Upholds L env (msgPutchar L cl al) (fun _ s => Stacked L s files level 0) s := by
  unfold msgPutchar
  split
  · exact h
  split
  · exact h
  split
  · exact (upholds_routine h (Nat.zero_le 1)).bind fun _ _ h => h
  split
  · exact (upholds_routine h (Nat.zero_le 1)).bind fun _ _ h => h
  split
  · exact (upholds_routine h (Nat.zero_le 1)).bind fun _ _ h => h
  split
  · exact (upholds_routine h (Nat.zero_le 1)).bind fun _ _ h => upholds_msgInitvars h
  split
  · exact (upholds_setWord h (Nat.zero_le 1)).bind fun _ _ h => h
  split
  · exact (upholds_setByte h (Nat.zero_le 1)).bind fun _ _ h => h
  · exact (upholds_routine h (Nat.zero_le 1)).bind fun _ _ h => h

/-- Either digit of a colour keeps the open files. -/
theorem upholds_msgColor {cl al : UInt8} {mix : UInt8 → UInt8 → UInt8} {next : MsgJump}
    (h : Stacked L s files level 0) :
    Upholds L env (msgColor L cl al mix next) (fun _ s => Stacked L s files level 0) s := by
  unfold msgColor
  split
  · exact (upholds_setByte h (Nat.zero_le 1)).bind fun _ _ h => h
  · refine (upholds_look h (Nat.zero_le 1)).bind fun seg s h => ?_
    split
    · exact h
    · exact (upholds_setByte h (Nat.zero_le 1)).bind fun _ _ h => h

/-- The picture is opened on top of the message. -/
theorem upholds_msgViewimage (fuel : Nat) (h : Stacked L s files level 0) :
    Upholds L env (msgViewimage L fuel) (fun _ s => Stacked L s files level 0) s := by
  refine (upholds_look h (Nat.zero_le 1)).bind fun seg s h => ?_
  refine (upholds_stosb h (Nat.zero_le 1)).bind fun _ s h => ?_
  refine (upholds_routine h (Nat.zero_le 1)).bind fun _ s h => ?_
  refine (upholds_coreOpen h).bind fun ok s h => ?_
  cases ok with
  | true => exact (upholds_vgadisplayfile fuel h).bind fun _ _ h => upholds_msgInitvars h
  | false => exact h

/-- A picture named in a message is closed again when it has been drawn. -/
theorem upholds_msgFilename {fuel : Nat} {al : UInt8} (h : Stacked L s files level 0) :
    Upholds L env (msgFilename L fuel al) (fun _ s => Stacked L s files level 0) s := by
  unfold msgFilename
  split
  · exact upholds_msgViewimage fuel h
  split
  · exact h
  refine (upholds_look h (Nat.zero_le 1)).bind fun seg s h => ?_
  refine upholds_ite (fun _ => h) fun _ => ?_
  refine (upholds_stosb h (Nat.zero_le 1)).bind fun _ s h => ?_
  exact (upholds_setWord h (Nat.zero_le 1)).bind fun _ _ h => h

/-- One character of a message keeps the open files. -/
theorem upholds_msgChar {fuel : Nat} {cl al : UInt8} {jump : MsgJump}
    (h : Stacked L s files level 0) :
    Upholds L env (msgChar L fuel cl al jump) (fun _ s => Stacked L s files level 0) s := by
  unfold msgChar
  cases jump with
  | msgPutchar => exact upholds_msgPutchar h
  | msgSetbg => exact upholds_msgColor h
  | msgSetfg => exact upholds_msgColor h
  | msgFilename => exact upholds_msgFilename h

/-- Printing a message file to its end keeps the files that were open. -/
theorem upholds_printMsgFile {fuel : Nat} {jump : MsgJump} (h : Stacked L s (files + 1) level 0) :
    Upholds L env (printMsgFile L fuel jump) (fun _ s => Stacked L s (files + 1) level 0) s := by
  refine upholds_loop (fun _ s => Stacked L s (files + 1) level 0) (fun jump s h => ?_) fuel h
  refine (upholds_getc (h.mono (Nat.zero_le 1))).bind fun c s h => ?_
  cases c with
  | none => exact h
  | some al =>
    dsimp only
    split
    · exact h
    · refine (upholds_look h (Nat.zero_le 1)).bind fun seg s h => ?_
      exact (upholds_msgChar h).bind fun _ _ h => h

/-- The message is closed. -/
theorem upholds_getMsgFile (fuel : Nat) (h : Stacked L s (files + 1) level 0) :
    Upholds L env (getMsgFile L fuel) (fun _ s => Stacked L s files level 0) s := by
  refine (upholds_setByte h (Nat.zero_le 1)).bind fun _ s h => ?_
  refine (upholds_setByte h (Nat.zero_le 1)).bind fun _ s h => ?_
  refine (upholds_msgInitvars h).bind fun jump s h => ?_
  exact (upholds_printMsgFile h).bind fun _ _ h => upholds_close h

/-- The font is closed on all paths. -/
theorem upholds_loadfont (h : Stacked L s (files + 1) level 0) :
    Upholds L env (loadfont L) (fun _ s => Stacked L s files level 0) s := by
  refine (upholds_readc (Nat.succ_pos 3) (h.mono (Nat.zero_le 1))).bind fun cf s h => ?_
  split
  · exact upholds_close h
  refine (upholds_look h (Nat.zero_le 1)).bind fun seg s h => ?_
  dsimp only
  split
  · exact upholds_close h
  split
  · exact upholds_close h
  split
  · exact upholds_close h
  next hheight =>
  have hpos : 0 < (seg (L.addr .trackbuf + 3)).toNat * 256 := by
    have htwo := UInt8.le_iff_toNat_le.mp (UInt8.not_lt.mp fun hlt => hheight (Or.inl hlt))
    exact Nat.mul_pos (Nat.lt_of_lt_of_le Nat.two_pos htwo) (by decide)
  refine (upholds_readc hpos (h.mono (Nat.zero_le 1))).bind fun cf s h => ?_
  split
  · exact upholds_close h
  refine (upholds_close h).bind fun _ s h => ?_
  refine (upholds_setByte h (Nat.zero_le 1)).bind fun _ s h => ?_
  refine (upholds_setByte h (Nat.zero_le 1)).bind fun _ s h => ?_
  exact (upholds_routine h (Nat.zero_le 1)).bind fun _ _ h => h

/-- Loading a keyboard map closes the file of the map. -/
theorem upholds_loadkeys (h : Stacked L s (files + 1) level 0) :
    Upholds L env (loadkeys L) (fun _ s => Stacked L s files level 0) s := by
  refine (upholds_readc (Nat.succ_pos 255) (h.mono (Nat.zero_le 1))).bind fun cf s h => ?_
  split
  · exact upholds_close h
  refine (upholds_getc (h.mono (Nat.zero_le 1))).bind fun c s h => ?_
  cases c with
  | some al => exact upholds_close h
  | none =>
    refine (upholds_look h (Nat.zero_le 1)).bind fun seg s h => ?_
    exact (upholds_set h (Nat.zero_le 1)).bind fun _ _ h => upholds_close h

end Liigboot.Getc.Parser
