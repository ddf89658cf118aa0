import Mathlib.Algebra.Order.Ring.Nat
import Mathlib.Tactic.Common

/-!
# Restoring division

A division by shifts: the denominator, moved up by `k - 1`, ..., `1`, `0` places, is subtracted
where it fits, and each subtraction gives one bit of the quotient.
-/

namespace Liigboot

/-- The quotient so far and what is left of the numerator, when `k` bits are still to come. -/
def restore (den : Nat) : Nat → Nat × Nat → Nat × Nat
  | 0, s => s
  | k + 1, (quot, num) =>
    if den * 2 ^ k ≤ num then restore den k (quot + 2 ^ k, num - den * 2 ^ k)
    else restore den k (quot, num)

variable {den k quot num : Nat}

theorem restore_sub (h : den * 2 ^ k ≤ num) :
    restore den (k + 1) (quot, num) = restore den k (quot + 2 ^ k, num - den * 2 ^ k) := by
  simp [restore, h]

theorem restore_skip (h : num < den * 2 ^ k) :
    restore den (k + 1) (quot, num) = restore den k (quot, num) := by
  simp [restore, h]

/-- The bits are those of the quotient, and the remainder is left. -/
theorem restore_eq (h : num < den * 2 ^ k) :
    restore den k (quot, num) = (quot + num / den, num % den) := by
  induction k generalizing quot num with
  | zero =>
    rw [Nat.pow_zero, Nat.mul_one] at h
    rw [restore, Nat.div_eq_of_lt h, Nat.mod_eq_of_lt h, Nat.add_zero]
  | succ k ih =>
    have hden : 0 < den := Nat.pos_of_mul_pos_right (Nat.zero_lt_of_lt h)
    by_cases hle : den * 2 ^ k ≤ num
    · have hrest : num - den * 2 ^ k < den * 2 ^ k := by
        rw [Nat.pow_succ, ← Nat.mul_assoc] at h
        omega
      have hsplit : num = num - den * 2 ^ k + den * 2 ^ k := (Nat.sub_add_cancel hle).symm
      have hquot : num / den = (num - den * 2 ^ k) / den + 2 ^ k := by
        conv_lhs => rw [hsplit]
        exact Nat.add_mul_div_left _ _ hden
      have hrem : num % den = (num - den * 2 ^ k) % den := by
        conv_lhs => rw [hsplit]
        exact Nat.add_mul_mod_self_left _ _ _
      rw [restore_sub hle, ih hrest, hquot, hrem, Nat.add_assoc, Nat.add_comm (2 ^ k)]
    · rw [restore_skip (Nat.lt_of_not_le hle)]
      exact ih (Nat.lt_of_not_le hle)

end Liigboot
