import Mathlib.Order.Preorder.Finite
import Mathlib.Tactic.Common

/-!
# Walks

A walk follows a partial successor function until there is no successor. Among finitely many places
it comes to an end exactly when it is never at one place twice.
-/

namespace Liigboot

variable {α : Type*}

/-- The place after `n` steps, if there is one. -/
def walk (next : α → Option α) (start : Option α) : Nat → Option α
  | 0 => start
  | n + 1 => (walk next start n).bind next

variable {next : α → Option α} {start : Option α}

theorem walk_succ (next : α → Option α) (start : Option α) (n : Nat) :
    walk next start (n + 1) = (walk next start n).bind next := rfl

/-- The walk from the place after one step. -/
theorem walk_shift (next : α → Option α) (start : Option α) (n : Nat) :
    walk next (start.bind next) n = walk next start (n + 1) := by
  induction n with
  | zero => rfl
  | succ n ih => rw [walk_succ, ih, walk_succ next start (n + 1)]

/-- A walk that has ended does not go on. -/
theorem walk_none_of_le {n m : Nat} (h : walk next start n = none) (hle : n ≤ m) :
    walk next start m = none := by
  induction m, hle using Nat.le_induction with
  | base => exact h
  | succ m _ ih => rw [walk_succ, ih, Option.bind_none]

/-- From one place the walk goes on in one way. -/
theorem walk_add_congr {i j : Nat} (h : walk next start i = walk next start j) (k : Nat) :
    walk next start (i + k) = walk next start (j + k) := by
  induction k with
  | zero => exact h
  | succ k ih => rw [← Nat.add_assoc, ← Nat.add_assoc, walk_succ, walk_succ, ih]

/-- A walk that is at one place twice goes round for ever. -/
theorem walk_cycle {i j : Nat} (hij : i < j) (h : walk next start i = walk next start j) (n : Nat) :
    walk next start (i + n * (j - i)) = walk next start i := by
  induction n with
  | zero => rw [Nat.zero_mul, Nat.add_zero]
  | succ n ih =>
    have hstep := walk_add_congr h (n * (j - i))
    have hback : j + n * (j - i) = i + (n + 1) * (j - i) := by
      rw [Nat.add_one_mul]
      omega
    rw [← hback, ← hstep, ih]

/-- A walk among finitely many places ends if and only if it never comes back to one. -/
theorem walk_ends_iff (hfin : {a | ∃ n, walk next start n = some a}.Finite) :
    (∃ n, walk next start n = none) ↔
      ∀ i j a, i < j → walk next start i = some a → walk next start j ≠ some a := by
  constructor
  · rintro ⟨n, hn⟩ i j a hij hi hj
    have hcycle := walk_cycle hij (hi.trans hj.symm) n
    have hpos : 0 < j - i := Nat.sub_pos_of_lt hij
    have hle : n ≤ i + n * (j - i) :=
      (Nat.le_mul_of_pos_right n hpos).trans (Nat.le_add_left _ _)
    rw [walk_none_of_le hn hle, hi] at hcycle
    cases hcycle
  · intro h
    by_contra hgo
    push Not at hgo
    choose place hplace using fun n => Option.ne_none_iff_exists'.mp (hgo n)
    have hmem : ∀ n, place n ∈ {a | ∃ n, walk next start n = some a} := fun n => ⟨n, hplace n⟩
    obtain ⟨i, j, hij, heq⟩ := Set.Finite.exists_lt_map_eq_of_forall_mem hmem hfin
    exact h i j _ hij (hplace i) (heq ▸ hplace j)

end Liigboot
