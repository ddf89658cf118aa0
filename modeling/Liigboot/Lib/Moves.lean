import Mathlib.Order.Nat
import Mathlib.Tactic.Common

/-!
# Sequences of moves

A move copies a range of memory to another place; the two ranges may overlap. A sequence of moves
delivers what was in memory before the first of them, as long as no move writes into a range that
a later one reads or writes.
-/

namespace Liigboot

variable {α : Type*}

/-- A move of `len` cells from `src` to `dst`. -/
structure Move where
  dst : Nat
  src : Nat
  len : Nat
  deriving DecidableEq, Repr

/-- The memory behind a move. -/
def Move.run (m : Move) (mem : Nat → α) : Nat → α := fun a =>
  if m.dst ≤ a ∧ a < m.dst + m.len then mem (m.src + (a - m.dst)) else mem a

/-- The memory behind a sequence of moves. -/
def runMoves (moves : List Move) (mem : Nat → α) : Nat → α :=
  moves.foldl (fun mem m => m.run mem) mem

/-- Two ranges that do not meet. -/
def Apart (a lenA b lenB : Nat) : Prop := a + lenA ≤ b ∨ b + lenB ≤ a

/-- A move that does not write what a later one reads or writes. -/
def Move.Spares (m later : Move) : Prop :=
  Apart m.dst m.len later.src later.len ∧ Apart m.dst m.len later.dst later.len

variable {m : Move} {moves : List Move} {mem : Nat → α} {a : Nat}

theorem Move.run_dst {i : Nat} (h : i < m.len) : m.run mem (m.dst + i) = mem (m.src + i) := by
  rw [Move.run, if_pos ⟨Nat.le_add_right _ _, Nat.add_lt_add_left h _⟩, Nat.add_sub_cancel_left]

theorem Move.run_apart {b len i : Nat} (h : Apart m.dst m.len b len) (hi : i < len) :
    m.run mem (b + i) = mem (b + i) := by
  rw [Move.run, if_neg]
  rcases h with h | h
  · omega
  · omega

/-- A range that no move writes stays as it is. -/
theorem runMoves_apart {b len i : Nat} (h : ∀ m ∈ moves, Apart m.dst m.len b len) (hi : i < len) :
    runMoves moves mem (b + i) = mem (b + i) := by
  induction moves generalizing mem with
  | nil => rfl
  | cons m moves ih =>
    rw [List.forall_mem_cons] at h
    exact (ih h.2).trans (Move.run_apart h.1 hi)

/-- A sequence of moves delivers the memory in front of it. -/
theorem runMoves_delivers (h : moves.Pairwise Move.Spares) (hmem : m ∈ moves) {i : Nat}
    (hi : i < m.len) : runMoves moves mem (m.dst + i) = mem (m.src + i) := by
  induction moves generalizing mem with
  | nil => exact absurd hmem List.not_mem_nil
  | cons first moves ih =>
    rw [List.pairwise_cons] at h
    obtain ⟨hfirst, hrest⟩ := h
    rcases List.mem_cons.mp hmem with rfl | hmem
    · have hapart : ∀ n ∈ moves, Apart n.dst n.len m.dst m.len :=
        fun n hn => ((hfirst n hn).2).symm
      exact (runMoves_apart hapart hi).trans (Move.run_dst hi)
    · exact (ih hrest hmem).trans (Move.run_apart (hfirst m hmem).1 hi)

/-! ## Moves in pieces -/

/-- Going up, the next piece of a move down joins those in front of it. -/
theorem Move.run_up {dst src k n : Nat} (h : dst ≤ src ∨ src + (k + n) ≤ dst) :
    Move.run ⟨dst + k, src + k, n⟩ (Move.run ⟨dst, src, k⟩ mem) =
      Move.run ⟨dst, src, k + n⟩ mem := by
  funext a
  simp only [Move.run]
  by_cases hpiece : dst + k ≤ a ∧ a < dst + k + n
  · have haddr : src + k + (a - (dst + k)) = src + (a - dst) := by omega
    rw [if_pos hpiece, haddr, if_neg (by omega), if_pos (by omega)]
  · rw [if_neg hpiece]
    by_cases hbefore : dst ≤ a ∧ a < dst + k
    · rw [if_pos hbefore, if_pos (by omega)]
    · rw [if_neg hbefore, if_neg (by omega)]

/-- Going down, the next piece of a move up joins those behind it. -/
theorem Move.run_down {dst src k n : Nat} (h : src ≤ dst) :
    Move.run ⟨dst, src, n⟩ (Move.run ⟨dst + n, src + n, k⟩ mem) =
      Move.run ⟨dst, src, n + k⟩ mem := by
  funext a
  simp only [Move.run]
  by_cases hpiece : dst ≤ a ∧ a < dst + n
  · rw [if_pos hpiece, if_neg (by omega), if_pos (by omega)]
  · rw [if_neg hpiece]
    by_cases hbehind : dst + n ≤ a ∧ a < dst + n + k
    · have haddr : src + n + (a - (dst + n)) = src + (a - dst) := by omega
      rw [if_pos hbehind, if_pos (by omega), haddr]
    · rw [if_neg hbehind, if_neg (by omega)]

/-- A move of nothing. -/
theorem Move.run_zero {dst src : Nat} : Move.run ⟨dst, src, 0⟩ mem = mem := by
  funext a
  rw [Move.run, if_neg (by dsimp only; omega)]

end Liigboot
