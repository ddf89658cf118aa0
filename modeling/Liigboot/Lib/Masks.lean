import Mathlib.Algebra.Group.Nat.Defs
import Mathlib.Order.Nat
import Mathlib.Tactic.Common

/-!
# Masks of low bits

A mask of the low bits of a 32-bit word, and its complement, as remainder and multiple of a power of
two.
-/

namespace Liigboot

variable {k : Nat}

/-- What a mask of low bits leaves. -/
theorem toNat_and_mask {x m : UInt32} (hm : m.toNat = 2 ^ k - 1) :
    (x &&& m).toNat = x.toNat % 2 ^ k := by
  rw [UInt32.toNat_and, hm, Nat.and_two_pow_sub_one_eq_mod]

/-- What is left without the low bits: a multiple, rounded down. -/
theorem toNat_and_not_mask {x m : UInt32} (hm : m.toNat = 2 ^ k - 1) :
    (x &&& ~~~m).toNat = x.toNat / 2 ^ k * 2 ^ k := by
  have hnot : (~~~m).toNat = 2 ^ 32 - (2 ^ k - 1 + 1) := by
    have hword : UInt32.size = 2 ^ 32 := rfl
    rw [UInt32.toNat_not, hm, hword]
    omega
  have hlt : 2 ^ k - 1 < 2 ^ 32 := hm ▸ m.toNat_lt
  rw [UInt32.toNat_and, hnot]
  refine Nat.eq_of_testBit_eq fun i => ?_
  rw [Nat.testBit_and, Nat.testBit_two_pow_sub_succ hlt, Nat.testBit_two_pow_sub_one,
    Nat.testBit_mul_two_pow, Nat.testBit_div_two_pow]
  by_cases hi : i < k
  · have hle : ¬ k ≤ i := Nat.not_le.mpr hi
    simp only [hi, hle, decide_true, decide_false, Bool.not_true, Bool.and_false, Bool.false_and]
  · have hle : k ≤ i := Nat.le_of_not_lt hi
    rw [Nat.sub_add_cancel hle]
    simp only [hi, hle, decide_true, decide_false, Bool.not_false, Bool.and_true, Bool.true_and]
    by_cases hword : i < 32
    · simp only [hword, decide_true, Bool.and_true]
    · have hbit : x.toNat.testBit i = false :=
        Nat.testBit_lt_two_pow
          (x.toNat_lt.trans_le (Nat.pow_le_pow_right (by decide) (Nat.le_of_not_lt hword)))
      rw [hbit, Bool.false_and]

end Liigboot
