import Mathlib.Order.Nat
import Mathlib.Tactic.Common

/-!
# Chains and contiguous runs

A chain is a start and a successor function, walked step by step. A run of a
sequence of numbers is a stretch on which every number is the successor of the
one before; the maximal run from a position is determined by the sequence alone.
-/

namespace Liigboot

variable {α : Type*}

/-- The `k`-th element of the chain from `start`. -/
def chain (next : α → α) (start : α) : Nat → α
  | 0 => start
  | k + 1 => next (chain next start k)

@[simp] theorem chain_zero (next : α → α) (start : α) : chain next start 0 = start := rfl

theorem chain_succ (next : α → α) (start : α) (k : Nat) :
    chain next start (k + 1) = next (chain next start k) := rfl

/-- The chain from the second element. -/
theorem chain_next (next : α → α) (start : α) (k : Nat) :
    chain next (next start) k = chain next start (k + 1) := by
  induction k with
  | zero => rfl
  | succ k ih => rw [chain_succ, ih, chain_succ next start (k + 1)]

/-- From position `m`, `r` is the length of the longest stretch of consecutive numbers that ends
at `t` or before. -/
structure MaximalRun (c : Nat → Nat) (t m r : Nat) : Prop where
  pos : 0 < r
  le_end : m + r ≤ t
  contiguous : ∀ j < r, c (m + j) = c m + j
  maximal : m + r = t ∨ c (m + r) ≠ c m + r

/-- A sequence has one maximal run from each position. -/
theorem MaximalRun.unique {c : Nat → Nat} {t m r s : Nat} (hr : MaximalRun c t m r)
    (hs : MaximalRun c t m s) : r = s := by
  have hle : ∀ {r s}, MaximalRun c t m r → MaximalRun c t m s → ¬ r < s := by
    intro r s hr hs hlt
    have hend := hs.le_end
    rcases hr.maximal with he | hne
    · omega
    · exact hne (hs.contiguous r hlt)
  exact Nat.le_antisymm (Nat.le_of_not_lt (hle hs hr)) (Nat.le_of_not_lt (hle hr hs))

end Liigboot
