import Liigboot.Boot.ParseCmdline
import Liigboot.Lib.Writer

/-!
# Putting the kernel's command line together

The append text is copied to `cmd_line_here` when the kernel is looked up, and `construct_cmdline`
of `runkernel.inc` adds the name of the kernel and the options of the user. Each part has a limit
of its own; none of the three copies looks at how much room is left in the segment.
-/

namespace Liigboot.Boot

/-! ## The source -/

/-- A text with its length in a word. -/
structure Counted where
  bytes : List UInt8
  length_lt : bytes.length < 2 ^ 16

/-- What is there when a command has been looked up. -/
structure Command where
  /-- `vk_append`, when the command names a virtual kernel. -/
  vkAppend : Option Counted
  /-- `AppendBuf`. -/
  appendBuf : Counted
  kernelName : CText
  /-- What `CmdOptPtr` points to. -/
  options : CText

/-- The append text that `.found` or `.not_vk` takes. -/
def Command.append (c : Command) : List UInt8 :=
  match c.vkAppend with
  | some vk => vk.bytes
  | none => c.appendBuf.bytes

/-- The copy of the append text, in `.found` and in `.not_vk`. -/
def vkCheck (c : Command) : Writer :=
  let w := (Writer.at (UInt16.ofNat cmdLineHere)).movsb c.append
  w.store w.di 0

/-- `boot_image`. -/
def bootImage : List UInt8 := "BOOT_IMAGE=".toUTF8.data.toList

/-- `construct_cmdline`. -/
def constructCmdline (w : Writer) (kernelName options : List UInt8) : Option Writer :=
  ((w.movsb bootImage).strcpy kernelName).bind fun w =>
    (w.store (w.di - 1) 0x20).strcpy options

/-- The whole command line of a command. -/
def commandLine (c : Command) : Option Writer :=
  constructCmdline (vkCheck c) c.kernelName.raw c.options.raw

/-! ## Where it is written -/

/-- No store is in front of `cmd_line_here`. -/
def InSegment (w : Writer) : Prop := Inside cmdLineHere (2 ^ 16) w.stores

/-- The bytes that the command line takes with its NUL. -/
def Command.size (c : Command) : Nat :=
  c.append.length + bootImage.length + c.kernelName.text.length + 1 + c.options.text.length + 1

variable {w : Writer}

theorem vkCheck_written (c : Command) :
    Written (UInt16.ofNat cmdLineHere) (vkCheck c) c.append.length (c.append.length + 1) := by
  have happend := Written.movsb_at (UInt16.ofNat cmdLineHere) c.append
  have hnul := happend.store c.append.length 0
  rw [← happend.di, Nat.max_eq_right (Nat.le_succ _)] at hnul
  exact hnul

/-- The command line is written byte by byte, the whole of it and nothing behind it. -/
theorem commandLine_written (c : Command) :
    ∃ w, commandLine c = some w ∧ Written (UInt16.ofNat cmdLineHere) w c.size c.size := by
  have himage : 0 < bootImage.length := by decide
  have hlen := CText.length_raw c.kernelName
  have hlen' := CText.length_raw c.options
  have hname := ((vkCheck_written c).movsb bootImage (Nat.le_succ _)).movsb c.kernelName.raw
    (Nat.le_max_right _ _)
  have hspace := hname.store
    (c.append.length + bootImage.length + c.kernelName.text.length) 0x20
  have hline := hspace.movsb c.options.raw (by omega)
  refine ⟨((((vkCheck c).movsb bootImage).movsb c.kernelName.raw).store (behind
    (UInt16.ofNat cmdLineHere)
      (c.append.length + bootImage.length + c.kernelName.text.length)) 0x20).movsb c.options.raw,
    ?_, ?_⟩
  · have hdi : (((vkCheck c).movsb bootImage).movsb c.kernelName.raw).di - 1 =
        behind (UInt16.ofNat cmdLineHere)
          (c.append.length + bootImage.length + c.kernelName.text.length) := by
      rw [hname.di, hlen, ← Nat.add_assoc, behind_succ, UInt16.add_sub_cancel]
    rw [commandLine, constructCmdline, Writer.strcpy_raw, Option.bind_some, Writer.strcpy_raw, hdi]
  · rw [Command.size]
    convert hline using 1
    · omega
    · omega

/-- No store wraps to the start of the segment: exactly when all the parts together, with the space
and the NUL, take 2048 bytes at most. -/
theorem commandLine_in_segment_iff (c : Command) :
    ∃ w, commandLine c = some w ∧ (InSegment w ↔ c.size ≤ 2048) := by
  obtain ⟨w, hline, hw⟩ := commandLine_written c
  have hbase : (UInt16.ofNat cmdLineHere).toNat = cmdLineHere := rfl
  refine ⟨w, hline, (hw.inside_iff le_rfl ?_ le_rfl ?_).trans ?_⟩
  · decide
  · exact Or.inr (by decide)
  · rw [hbase, cmdLineHere]
    omega

/-! ## What is written -/

/-- Where it fits, the segment has the append text, the image name, and the options: the command
line that the kernel is given. -/
theorem commandLine_holds (c : Command) (seg : Nat → UInt8) (hfits : c.size ≤ 2048) :
    ∃ w, commandLine c = some w ∧ Holds (putAll seg w.stores) cmdLineHere
      (c.append ++ bootImage ++ c.kernelName.text ++ [0x20] ++ c.options.raw) := by
  have hpos : 0 < (UInt16.ofNat cmdLineHere).toNat := by decide
  have happend := ((Built.at seg (UInt16.ofNat cmdLineHere)).movsb c.append).store_end hpos 0
  have hname := (happend.movsb bootImage).movsb c.kernelName.raw
  rw [CText.raw, ← List.append_assoc] at hname
  have hline := (hname.store_last 0x20).movsb c.options.raw
  rw [List.nil_append] at hline
  refine ⟨_, ?_, hline.holds ?_⟩
  · rw [commandLine, constructCmdline, Writer.strcpy_raw, Option.bind_some, Writer.strcpy_raw]
    rfl
  · have hlen := CText.length_raw c.options
    have hbase : (UInt16.ofNat cmdLineHere).toNat = 0xF800 := rfl
    rw [Command.size] at hfits
    simp only [List.length_append, List.length_singleton]
    omega

theorem longText_length : (List.replicate 2047 (0x61 : UInt8)).length < 2 ^ 16 := by
  rw [List.length_replicate]
  decide

theorem linuxName_ne_zero : ∀ b ∈ ([0x6C, 0x69, 0x6E, 0x75, 0x78] : List UInt8), b ≠ 0 := by decide

/-- An append text of 2047 bytes, and a plain `linux`. -/
def longAppend : Command where
  vkAppend := none
  appendBuf := ⟨List.replicate 2047 0x61, longText_length⟩
  kernelName := ⟨[0x6C, 0x69, 0x6E, 0x75, 0x78], linuxName_ne_zero⟩
  options := CText.empty

/-- Nothing checks the length: the line goes on at the start of the segment, over the kernel's own
boot sector. -/
theorem commandLine_wraps : ¬∀ c w, commandLine c = some w → InSegment w := by
  intro hall
  obtain ⟨w, hline, hw⟩ := commandLine_written longAppend
  have hbase : (UInt16.ofNat cmdLineHere).toNat = 0xF800 := rfl
  have hlen : longAppend.append.length = 2047 := List.length_replicate
  have hsize : longAppend.size = 2065 := by rw [Command.size, hlen]; rfl
  have hin := (hw.inside_iff le_rfl (by decide) le_rfl (Or.inr (by decide))).mp
    (hall longAppend w hline)
  omega

end Liigboot.Boot
