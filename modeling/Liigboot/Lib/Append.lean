import Mathlib.Algebra.Group.Int.Defs
import Mathlib.Data.List.Basic
import Mathlib.Data.List.Infix
import Mathlib.Order.Nat
import Mathlib.Tactic.Common

/-!
# Pieces that are appended

A text grows by pieces that are meant for given positions. The gap in front of a piece is filled,
but where the text has grown past the position the piece is appended all the same, behind its place.
All pieces are found at their positions exactly when each one begins behind the text so far, or
repeats that text from its position on.
-/

namespace Liigboot

variable {α : Type*}

/-- A position, which may be in front of the text, and what is meant to be there. -/
abbrev Piece (α : Type*) := Int × List α

/-- The text with a piece, behind a gap up to its position. -/
def appendPiece (fill : α) (text : List α) (p : Piece α) : List α :=
  text ++ List.replicate (p.1 - text.length).toNat fill ++ p.2

def appendPieces (fill : α) (text : List α) (ps : List (Piece α)) : List α :=
  ps.foldl (appendPiece fill) text

/-- A piece is found at its position. -/
def Found (text : List α) (p : Piece α) : Prop :=
  ∀ i < p.2.length, 0 ≤ p.1 + i ∧ text[(p.1 + i).toNat]? = p.2[i]?

/-- A piece begins behind the text, or repeats it from its position on. -/
def Follows (text : List α) (p : Piece α) : Prop :=
  text.length ≤ p.1 ∨ 0 ≤ p.1 ∧ p.2 <+: text.drop p.1.toNat ++ p.2

/-- Each piece follows the text that is there when it is appended. -/
def FollowsAll (fill : α) : List α → List (Piece α) → Prop
  | _, [] => True
  | text, p :: ps => Follows text p ∧ FollowsAll fill (appendPiece fill text p) ps

variable {fill : α} {text text' : List α} {p : Piece α} {ps : List (Piece α)}

theorem prefix_appendPiece : text <+: appendPiece fill text p := by
  rw [appendPiece, List.append_assoc]
  exact List.prefix_append _ _

theorem prefix_appendPieces : text <+: appendPieces fill text ps := by
  induction ps generalizing text with
  | nil => exact List.prefix_rfl
  | cons p ps ih => exact prefix_appendPiece.trans ih

/-- The text is longer than the piece reaches, wherever the piece is. -/
theorem le_length_appendPiece : p.1 + p.2.length ≤ (appendPiece fill text p).length := by
  simp only [appendPiece, List.length_append, List.length_replicate]
  omega

/-- What follows a piece does not matter for finding it. -/
theorem found_iff_of_isPrefix (h : appendPiece fill text p <+: text') :
    Found text' p ↔ Found (appendPiece fill text p) p := by
  obtain ⟨rest, rfl⟩ := h
  have hlen := @le_length_appendPiece α fill text p
  apply forall₂_congr
  intro i hi
  apply and_congr_right
  intro hpos
  rw [List.getElem?_append_left (by omega)]

/-- A piece is found where it was appended exactly when it follows the text. -/
theorem found_appendPiece_iff (hne : p.2 ≠ []) :
    Found (appendPiece fill text p) p ↔ Follows text p := by
  obtain ⟨start, piece⟩ := p
  have hpos : 0 < piece.length := List.length_pos_iff.mpr hne
  by_cases hbehind : (text.length : Int) ≤ start
  · refine iff_of_true (fun i hi => ⟨by omega, ?_⟩) (Or.inl hbehind)
    have hgap : (text ++ List.replicate (start - text.length).toNat fill).length = start.toNat := by
      simp only [List.length_append, List.length_replicate]
      omega
    rw [appendPiece]
    dsimp only at hi ⊢
    rw [List.getElem?_append_right (by omega), hgap]
    congr 1
    omega
  · have hgap : (start - text.length).toNat = 0 := by omega
    rw [appendPiece, hgap, List.replicate_zero, List.append_nil, Follows, or_iff_right hbehind]
    constructor
    · intro hfound
      have hstart := (hfound 0 hpos).1
      refine ⟨by omega, ?_⟩
      rw [List.prefix_iff_getElem?]
      intro i hi
      rw [← List.drop_append_of_le_length (by omega), List.getElem?_drop,
        ← List.getElem?_eq_getElem hi, ← (hfound i hi).2]
      congr 1
      omega
    · rintro ⟨hstart, hrepeat⟩ i hi
      refine ⟨by omega, ?_⟩
      rw [List.prefix_iff_getElem?] at hrepeat
      have hi' := hrepeat i hi
      rw [← List.drop_append_of_le_length (by omega), List.getElem?_drop] at hi'
      rw [List.getElem?_eq_getElem hi, ← hi']
      congr 1
      omega

/-- All pieces are found exactly when each follows the text in front of it. -/
theorem found_appendPieces_iff (hne : ∀ p ∈ ps, p.2 ≠ []) :
    (∀ p ∈ ps, Found (appendPieces fill text ps) p) ↔ FollowsAll fill text ps := by
  induction ps generalizing text with
  | nil => exact iff_of_true (List.forall_mem_nil _) trivial
  | cons p ps ih =>
    obtain ⟨hp, hps⟩ := List.forall_mem_cons.mp hne
    rw [List.forall_mem_cons, FollowsAll, ← ih hps, ← found_appendPiece_iff hp]
    exact and_congr_left' (found_iff_of_isPrefix prefix_appendPieces)

end Liigboot
