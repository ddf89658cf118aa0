import Liigboot.Boot.ParseCmdline
import Liigboot.Boot.RunKernel
import Liigboot.Lib.StringOps

/-!
# The command line of an old kernel

A zImage kernel, or one of an old protocol, wants its command line in the 9xxxxh range, so
`setup_command_line` of `runkernel.inc` copies it down to `old_cmd_line_here`. A line that is too
long is cut there. The byte that is to end it comes from a register that still holds the limit.
-/

namespace Liigboot.Boot

/-! ## The source -/

/-- A store of two bytes. -/
def putWord (mem : Memory) (a : Nat) (x : UInt16) : Memory :=
  put (put mem a x.toUInt8) (a + 1) (x >>> 8).toUInt8

/-- A store of four bytes. -/
def putDword (mem : Memory) (a : Nat) (x : UInt32) : Memory :=
  putWord (putWord mem a x.toUInt16) (a + 2) (x >>> 16).toUInt16

/-- `kern_cmd_magic`. -/
def kernCmdMagic : Nat := 0x20

/-- `kern_cmd_offset`. -/
def kernCmdOffset : Nat := 0x22

/-- `su_movesize`. -/
def suMovesize : Nat := 0x212

/-- `su_heapend`. -/
def suHeapend : Nat := 0x224

/-- `su_cmd_line_ptr`. -/
def suCmdLinePtr : Nat := 0x228

/-- `linux_stack`. -/
def linuxStack : UInt16 := 0xF7F4

/-- `CMD_MAGIC`. -/
def cmdMagic : UInt16 := 0xA33F

/-- `old_cmd_line_here`. -/
def oldCmdLineHere : UInt16 := 0x9800

/-- `old_max_cmd_len`. -/
def oldMaxCmdLen : UInt16 := 2047

/-- `old_linux_stack`. -/
def oldLinuxStack : UInt16 := oldCmdLineHere - 12

/-- The real-mode segment, and the variables that `setup_command_line` uses. -/
structure CommandLine where
  seg : Memory
  kernelVersion : UInt16
  loadFlags : UInt8
  cmdLineLen : UInt16
  heapEnd : UInt16
  cmdLineEnd : UInt16

/-- The stores for a protocol version up to `.adjusted`, and the limit in `ax`. -/
def adjusted (dx : UInt16) (seg : Memory) : Memory × UInt16 :=
  if dx < 0x0201 then (seg, 255)
  else
    -- Protocol 2.01+
    let seg := putWord seg suHeapend (oldLinuxStack - 512)
    if dx ≤ 0x0201 then (seg, 255)
    else (putDword seg suCmdLinePtr (0x90000 + oldCmdLineHere.toUInt32), oldMaxCmdLen)

/-- The copy behind `.adjusted`, and the byte behind it. -/
def copyDown (seg : Memory) (cx ax : UInt16) : Memory :=
  put (repMovsb seg cx.toNat cmdLineHere oldCmdLineHere.toNat) (oldCmdLineHere + cx).toNat
    ax.toUInt8 -- the source's comment: AL=0 already

/-- `.need_high_cmdline`. -/
def needHighCmdline (s : CommandLine) : CommandLine :=
  let seg := putWord s.seg kernCmdMagic cmdMagic
  let seg := putWord seg kernCmdOffset oldCmdLineHere
  let (seg, ax) := adjusted s.kernelVersion seg
  let cx := if s.cmdLineLen ≤ ax then s.cmdLineLen else ax
  let seg := copyDown seg cx ax
  let di := oldCmdLineHere + cx + 1
  { s with
    seg := if s.kernelVersion < 0x0200 then seg else putWord seg suMovesize di
    heapEnd := oldLinuxStack
    cmdLineEnd := di }

/-- The old area is used: a zImage kernel, or a protocol below 2.02. -/
def UsesOldArea (s : CommandLine) : Prop :=
  s.loadFlags &&& loadHighFlag = 0 ∨ s.kernelVersion < 0x0202

instance decidableUsesOldArea (s : CommandLine) : Decidable (UsesOldArea s) :=
  inferInstanceAs (Decidable (_ ∨ _))

/-- `setup_command_line`. -/
def setupCommandLine (sym : Symbols) (s : CommandLine) : CommandLine :=
  if UsesOldArea s then needHighCmdline s
  else
    let seg := putDword s.seg suCmdLinePtr (sym.coreRealMode + UInt32.ofNat cmdLineHere)
    { s with
      seg := putWord seg suHeapend (linuxStack - 512)
      heapEnd := linuxStack }

/-! ## What is copied -/

/-- A text without zero bytes and its final NUL, `len` bytes together, at an address of a
segment. -/
structure IsText (seg : Memory) (a len : Nat) : Prop where
  text : ∀ i, i + 1 < len → seg ((a + i) % 0x10000) ≠ 0
  nul : ∃ i, i + 1 = len ∧ seg ((a + i) % 0x10000) = 0

/-- The limit of a protocol version. -/
def cmdlineLimit (version : UInt16) : UInt16 := if version < 0x0202 then 255 else oldMaxCmdLen

/-- The old area has the line up to the limit, and it ends there. -/
structure CopiedDown (seg seg' : Memory) (len limit : Nat) : Prop where
  copied : ∀ i < min len limit, seg' (oldCmdLineHere.toNat + i) = seg (cmdLineHere + i)
  ended : ∃ k < limit, seg' (oldCmdLineHere.toNat + k) = 0

variable {seg : Memory} {a c : Nat}

theorem putWord_of_lt (x : UInt16) (h : a + 1 < c) : putWord seg a x c = seg c := by
  rw [putWord, put_of_ne _ (by omega), put_of_ne _ (by omega)]

theorem putDword_of_lt (x : UInt32) (h : a + 3 < c) : putDword seg a x c = seg c := by
  rw [putDword, putWord_of_lt _ h, putWord_of_lt _ (by omega)]

theorem adjusted_limit (dx : UInt16) : (adjusted dx seg).2 = cmdlineLimit dx := by
  rw [adjusted, cmdlineLimit]
  by_cases hold : dx < 0x0201
  · rw [if_pos hold, if_pos (UInt16.lt_trans hold (by decide))]
  · rw [if_neg hold]
    by_cases hsame : dx ≤ 0x0201
    · rw [if_pos (UInt16.lt_of_le_of_lt hsame (by decide)), if_pos hsame]
    · have hnew : ¬dx < 0x0202 := by
        rw [UInt16.lt_iff_toNat_lt, UInt16.le_iff_toNat_le] at *
        exact fun h => hsame (Nat.le_of_lt_succ h)
      rw [if_neg hnew, if_neg hsame]

/-- All these stores are to the header. -/
theorem adjusted_seg (dx : UInt16) (h : 0x22C ≤ c) : (adjusted dx seg).1 c = seg c := by
  rw [adjusted]
  split
  · rfl
  · dsimp only
    split
    · exact putWord_of_lt _ (by rw [suHeapend]; omega)
    · exact (putDword_of_lt _ (by rw [suCmdLinePtr]; omega)).trans
        (putWord_of_lt _ (by rw [suHeapend]; omega))

theorem cmdlineLimit_le (version : UInt16) : (cmdlineLimit version).toNat ≤ 2047 := by
  rw [cmdlineLimit]
  split <;> decide

/-- Its low byte is not zero. -/
theorem cmdlineLimit_low (version : UInt16) : (cmdlineLimit version).toUInt8 = 0xFF := by
  rw [cmdlineLimit]
  split <;> rfl

/-- The old area behind the copy. -/
theorem copyDown_eq {cx ax : UInt16} {i : Nat} (hcx : cx.toNat ≤ 2047) (hi : i ≤ cx.toNat) :
    copyDown seg cx ax (oldCmdLineHere.toNat + i) =
      if i = cx.toNat then ax.toUInt8 else seg (cmdLineHere + i) := by
  have hold : oldCmdLineHere.toNat = 0x9800 := rfl
  have hdi : (oldCmdLineHere + cx).toNat = oldCmdLineHere.toNat + cx.toNat := by
    rw [UInt16.toNat_add]
    omega
  rw [copyDown, hdi]
  by_cases hend : i = cx.toNat
  · rw [if_pos hend, hend, put_self]
  · rw [if_neg hend, put_of_ne _ (by omega), repMovsb_eq (Or.inl (by rw [cmdLineHere]; omega)),
      if_pos (by omega), Nat.add_sub_cancel_left]

/-- What `.need_high_cmdline` leaves in the old area: the line up to the limit, and 0FFh. -/
theorem needHighCmdline_seg (s : CommandLine) {i : Nat}
    (hi : i ≤ min s.cmdLineLen.toNat (cmdlineLimit s.kernelVersion).toNat) :
    (needHighCmdline s).seg (oldCmdLineHere.toNat + i) =
      if i = min s.cmdLineLen.toNat (cmdlineLimit s.kernelVersion).toNat then 0xFF
      else s.seg (cmdLineHere + i) := by
  have hold : oldCmdLineHere.toNat = 0x9800 := rfl
  have hlimit := cmdlineLimit_le s.kernelVersion
  set limit := cmdlineLimit s.kernelVersion with hdef
  have hcx : (if s.cmdLineLen ≤ limit then s.cmdLineLen else limit).toNat =
      min s.cmdLineLen.toNat limit.toNat := by
    split
    next h => exact (Nat.min_eq_left (UInt16.le_iff_toNat_le.mp h)).symm
    next h => exact (Nat.min_eq_right (Nat.le_of_not_le (mt UInt16.le_iff_toNat_le.mpr h))).symm
  have hmove (seg : Memory) (di : UInt16) :
      (if s.kernelVersion < 0x0200 then seg else putWord seg suMovesize di)
        (oldCmdLineHere.toNat + i) = seg (oldCmdLineHere.toNat + i) := by
    split
    · rfl
    · exact putWord_of_lt _ (by rw [suMovesize]; omega)
  rw [needHighCmdline]
  dsimp only
  rw [hmove, adjusted_limit, ← hdef, copyDown_eq (by omega) (by omega), hcx, cmdlineLimit_low,
    adjusted_seg _ (by rw [cmdLineHere]; omega),
    putWord_of_lt _ (by rw [cmdLineHere, kernCmdOffset]; omega),
    putWord_of_lt _ (by rw [cmdLineHere, kernCmdMagic]; omega)]

/-! ## When it ends in a NUL -/

/-- A line that is longer than the limit has no NUL behind the copy, nor in it. -/
theorem needHighCmdline_cut {s : CommandLine} (h : IsText s.seg cmdLineHere s.cmdLineLen.toNat)
    (hlong : cmdlineLimit s.kernelVersion < s.cmdLineLen) {k : Nat}
    (hk : k ≤ (cmdlineLimit s.kernelVersion).toNat) :
    (needHighCmdline s).seg (oldCmdLineHere.toNat + k) ≠ 0 := by
  have hlimit := cmdlineLimit_le s.kernelVersion
  rw [UInt16.lt_iff_toNat_lt] at hlong
  rw [needHighCmdline_seg s (by omega)]
  split
  · decide
  · have htext := h.text k (by omega)
    rwa [Nat.mod_eq_of_lt (by rw [cmdLineHere]; omega)] at htext

/-- The copy is the line up to the limit and ends within it: exactly when the line, with its NUL,
is within it. -/
theorem setup_command_line_ended_iff (sym : Symbols) (s : CommandLine) (hold : UsesOldArea s)
    (hline : IsText s.seg cmdLineHere s.cmdLineLen.toNat) :
    CopiedDown s.seg (setupCommandLine sym s).seg s.cmdLineLen.toNat
        (cmdlineLimit s.kernelVersion).toNat ↔
      s.cmdLineLen ≤ cmdlineLimit s.kernelVersion := by
  rw [setupCommandLine, if_pos hold]
  constructor
  · intro h
    by_contra hlong
    obtain ⟨k, hk, hnul⟩ := h.ended
    exact needHighCmdline_cut hline (UInt16.not_le.mp hlong) hk.le hnul
  · intro hle
    rw [UInt16.le_iff_toNat_le] at hle
    have hlimit := cmdlineLimit_le s.kernelVersion
    have hcopied : ∀ i < s.cmdLineLen.toNat,
        (needHighCmdline s).seg (oldCmdLineHere.toNat + i) = s.seg (cmdLineHere + i) := by
      intro i hi
      rw [needHighCmdline_seg s (by omega), if_neg (by omega)]
    refine ⟨fun i hi => hcopied i (by omega), ?_⟩
    obtain ⟨i, hi, hnul⟩ := hline.nul
    rw [Nat.mod_eq_of_lt (by rw [cmdLineHere]; omega)] at hnul
    exact ⟨i, by omega, (hcopied i (by omega)).trans hnul⟩

/-! ## Examples -/

/-- A kernel of protocol 2.01 with a line of some letters. -/
def lettersLine (n : UInt16) : CommandLine where
  seg := fun a => if a < cmdLineHere + n.toNat - 1 then 0x61 else 0
  kernelVersion := 0x0201
  loadFlags := 1
  cmdLineLen := n
  heapEnd := 0
  cmdLineEnd := 0

theorem lettersLine_text {n : UInt16} (hpos : 0 < n.toNat) (hn : n.toNat ≤ 2048) :
    IsText (lettersLine n).seg cmdLineHere n.toNat := by
  constructor
  · intro i hi
    rw [Nat.mod_eq_of_lt (by rw [cmdLineHere]; omega), lettersLine]
    dsimp only
    rw [if_pos (by omega)]
    decide
  · refine ⟨n.toNat - 1, by omega, ?_⟩
    rw [Nat.mod_eq_of_lt (by rw [cmdLineHere]; omega), lettersLine]
    dsimp only
    rw [if_neg (by omega)]

theorem setup_command_line_ended_iff_sample :
    CopiedDown (lettersLine 20).seg (setupCommandLine sampleSymbols (lettersLine 20)).seg
        (UInt16.toNat 20) (cmdlineLimit 0x0201).toNat ↔
      (20 : UInt16) ≤ cmdlineLimit 0x0201 :=
  setup_command_line_ended_iff sampleSymbols (lettersLine 20) (by decide)
    (lettersLine_text (by decide) (by decide))

/-- Of 255 letters and a NUL the letters are copied, and no NUL follows them. -/
theorem setup_command_line_cut_unended :
    IsText (lettersLine 256).seg cmdLineHere 256 ∧
      ¬CopiedDown (lettersLine 256).seg (setupCommandLine sampleSymbols (lettersLine 256)).seg
        256 255 ∧
      (setupCommandLine sampleSymbols (lettersLine 256)).seg (oldCmdLineHere.toNat + 255) =
        0xFF := by
  have htext : IsText (lettersLine 256).seg cmdLineHere 256 :=
    @lettersLine_text 256 (by decide) (by decide)
  have hsetup : setupCommandLine sampleSymbols (lettersLine 256) =
      needHighCmdline (lettersLine 256) := if_pos (by decide)
  rw [hsetup]
  refine ⟨htext, fun h => ?_, ?_⟩
  · obtain ⟨k, hk, hnul⟩ := h.ended
    exact needHighCmdline_cut htext (by decide) hk.le hnul
  · exact needHighCmdline_seg (lettersLine 256) (by decide)

end Liigboot.Boot
