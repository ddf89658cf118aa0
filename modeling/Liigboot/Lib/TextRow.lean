import Mathlib.Data.List.Basic
import Mathlib.Tactic.Common

/-!
# The row of the cursor

What a terminal shows in the row of its cursor, as characters are written one after the other. A
row has no right end, and a new row is blank.
-/

namespace Liigboot

/-- What is left of the cursor, and what is from it on. -/
structure TextRow where
  left : List UInt8
  right : List UInt8
  deriving DecidableEq, Repr

/-- A character is written: CR, LF and BS move the cursor. -/
def TextRow.write (row : TextRow) (c : UInt8) : TextRow :=
  if c = 0x0D then ⟨[], row.left ++ row.right⟩
  else if c = 0x0A then ⟨List.replicate row.left.length 0x20, []⟩
  else if c = 0x08 then ⟨row.left.dropLast, row.left.getLast?.toList ++ row.right⟩
  else ⟨row.left ++ [c], row.right.tail⟩

/-- Some characters are written. -/
def TextRow.writeAll (row : TextRow) (cs : List UInt8) : TextRow := cs.foldl TextRow.write row

/-- Nothing is seen from the cursor on. -/
def TextRow.Blank (row : TextRow) : Prop := ∀ c ∈ row.right, c = 0x20

/-- A character that does not move the cursor back. -/
def Shown (c : UInt8) : Prop := c ≠ 0x0D ∧ c ≠ 0x0A ∧ c ≠ 0x08

variable {row : TextRow} {c : UInt8} {cs ds : List UInt8}

@[simp] theorem TextRow.writeAll_nil : row.writeAll [] = row := rfl

theorem TextRow.writeAll_append : row.writeAll (cs ++ ds) = (row.writeAll cs).writeAll ds :=
  List.foldl_append

theorem TextRow.write_shown (h : Shown c) : row.write c = ⟨row.left ++ [c], row.right.tail⟩ := by
  simp [TextRow.write, h.1, h.2.1, h.2.2]

theorem TextRow.writeAll_shown (h : ∀ c ∈ cs, Shown c) :
    (row.writeAll cs).left = row.left ++ cs := by
  induction cs generalizing row with
  | nil => simp
  | cons c cs ih =>
    rw [List.forall_mem_cons] at h
    change ((row.write c).writeAll cs).left = _
    rw [ih h.2, TextRow.write_shown h.1]
    simp

/-- Written text leaves no traces behind the cursor. -/
theorem TextRow.Blank.write (hblank : row.Blank) (h : Shown c) : (row.write c).Blank := by
  rw [TextRow.write_shown h]
  exact fun d hd => hblank d (List.mem_of_mem_tail hd)

theorem TextRow.Blank.writeAll (hblank : row.Blank) (h : ∀ c ∈ cs, Shown c) :
    (row.writeAll cs).Blank := by
  induction cs generalizing row with
  | nil => exact hblank
  | cons c cs ih =>
    rw [List.forall_mem_cons] at h
    exact ih (hblank.write h.1) h.2

/-- BS, a space and BS wipe the character in front of the cursor. -/
theorem TextRow.writeAll_wipe {left : List UInt8} :
    TextRow.writeAll ⟨left ++ [c], row.right⟩ [0x08, 0x20, 0x08] = ⟨left, 0x20 :: row.right⟩ := by
  simp [TextRow.writeAll, TextRow.write]

end Liigboot
