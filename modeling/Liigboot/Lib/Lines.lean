import Mathlib.Data.List.DropRight
import Mathlib.Data.List.Infix
import Mathlib.Tactic.Common

/-!
# Lines of a text

A text is split into lines at a separator, and lines are put together with a separator behind each.
The ends of a line are trimmed of the characters that have some property.
-/

namespace Liigboot

variable {α : Type*}

/-! ## Splitting and putting together -/

section split

variable [BEq α] [LawfulBEq α] {sep c : α} {text line : List α} {lines : List (List α)}

/-- Lines with the separator behind each. -/
def unlines (sep : α) (lines : List (List α)) : List α := lines.flatMap (· ++ [sep])

/-- The lines are read back, and an empty one behind the last separator. -/
theorem splitOn_unlines (h : ∀ line ∈ lines, sep ∉ line) :
    (unlines sep lines).splitOn sep = lines ++ [[]] := by
  induction lines with
  | nil => simp only [unlines, List.flatMap_nil, List.splitOn_nil, List.nil_append]
  | cons line lines ih =>
    obtain ⟨hline, hlines⟩ := List.forall_mem_cons.mp h
    simp only [unlines, List.flatMap_cons, List.append_assoc, List.singleton_append] at ih ⊢
    rw [List.splitOn_append_cons_self_of_not_mem hline, ih hlines, List.cons_append]

/-- A line has characters of the text only, and not the separator. -/
theorem mem_of_mem_splitOn (hline : line ∈ text.splitOn sep) :
    sep ∉ line ∧ ∀ c ∈ line, c ∈ text := by
  induction text generalizing line with
  | nil =>
    rw [List.splitOn_nil, List.mem_singleton] at hline
    simp only [hline, List.not_mem_nil, not_false_eq_true, false_imp_iff, implies_true, and_self]
  | cons b text ih =>
    obtain ⟨first, rest, hsplit⟩ := List.exists_cons_of_ne_nil (List.splitOn_ne_nil sep text)
    rw [hsplit] at ih
    rw [List.splitOn_cons_eq_if_modifyHead, hsplit] at hline
    split at hline
    · rcases List.mem_cons.mp hline with rfl | hline
      · simp only [List.not_mem_nil, not_false_eq_true, false_imp_iff, implies_true, and_self]
      · obtain ⟨hsep, hmem⟩ := ih hline
        exact ⟨hsep, fun c hc => List.mem_cons_of_mem b (hmem c hc)⟩
    · next hb =>
      rw [List.modifyHead_cons] at hline
      rcases List.mem_cons.mp hline with rfl | hline
      · obtain ⟨hsep, hmem⟩ := ih List.mem_cons_self
        refine ⟨?_, fun c hc => ?_⟩
        · simp only [List.mem_cons, not_or]
          exact ⟨fun heq => hb (beq_iff_eq.mpr heq.symm), hsep⟩
        · rcases List.mem_cons.mp hc with rfl | hc
          · exact List.mem_cons_self
          · exact List.mem_cons_of_mem b (hmem c hc)
      · obtain ⟨hsep, hmem⟩ := ih (List.mem_cons_of_mem first hline)
        exact ⟨hsep, fun c hc => List.mem_cons_of_mem b (hmem c hc)⟩

end split

/-! ## Trimming -/

variable {p : α → Bool} {xs : List α}

/-- A list without the entries at its ends that have the property. -/
def trimEnds (p : α → Bool) (xs : List α) : List α := (xs.dropWhile p).rdropWhile p

theorem trimEnds_isInfix (p : α → Bool) (xs : List α) : trimEnds p xs <:+: xs :=
  (List.rdropWhile_prefix p _).isInfix.trans (List.dropWhile_suffix p).isInfix

/-- The first entry that is left does not have the property. -/
theorem dropWhile_trimEnds (p : α → Bool) (xs : List α) :
    (trimEnds p xs).dropWhile p = trimEnds p xs := by
  unfold trimEnds
  cases htrim : (xs.dropWhile p).rdropWhile p with
  | nil => rfl
  | cons x rest =>
    obtain ⟨tail, htail⟩ := htrim ▸ List.rdropWhile_prefix p (xs.dropWhile p)
    have hx := List.head?_dropWhile_not p xs
    rw [← htail, List.cons_append, List.head?_cons] at hx
    apply List.dropWhile_cons_of_neg
    simpa only [Bool.not_eq_true] using hx

/-- There is nothing left to trim. -/
theorem trimEnds_trimEnds (p : α → Bool) (xs : List α) :
    trimEnds p (trimEnds p xs) = trimEnds p xs := by
  rw [trimEnds, dropWhile_trimEnds]
  exact List.rdropWhile_idempotent p _

end Liigboot
