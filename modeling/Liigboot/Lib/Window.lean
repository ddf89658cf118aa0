import Liigboot.Lib.Memory
import Liigboot.Lib.StringOps

/-!
# Output into a window

Output is stored from an address on as far as a window goes, and only counted behind it. The
window may be filled from the left or from the right.
-/

namespace Liigboot

variable {α : Type*} {mem : Nat → α}

theorem repMovsbFrom_append (xs ys : List α) (a : Nat) :
    repMovsbFrom mem (xs ++ ys) a = repMovsbFrom (repMovsbFrom mem xs a) ys (a + xs.length) := by
  induction xs generalizing mem a with
  | nil => rfl
  | cons x xs ih =>
    rw [List.cons_append, repMovsbFrom, ih, repMovsbFrom, List.length_cons, Nat.add_assoc,
      Nat.add_comm 1]

theorem repMovsbFrom_concat (xs : List α) (x : α) (a : Nat) :
    repMovsbFrom mem (xs ++ [x]) a = put (repMovsbFrom mem xs a) (a + xs.length) x := by
  rw [repMovsbFrom_append]
  rfl

/-- A store behind a range does not wait for those in it. -/
theorem repMovsbFrom_put {xs : List α} {a c : Nat} (h : a + xs.length ≤ c) (b : α) :
    repMovsbFrom (put mem c b) xs a = put (repMovsbFrom mem xs a) c b := by
  induction xs generalizing mem a with
  | nil => rfl
  | cons x xs ih =>
    rw [List.length_cons] at h
    have hswap : put (put mem c b) a x = put (put mem a x) c b := by
      funext d
      simp only [put]
      split_ifs <;> first | rfl | omega
    rw [repMovsbFrom, hswap, ih (by omega), repMovsbFrom]

/-- The number that the bytes at an address spell. -/
theorem memLe_of_holds {mem : Memory} {a v n : Nat} (h : Holds mem a (leBytes v n)) :
    memLe mem a n = v % 256 ^ n := by
  have hbytes := h.map_range
  rw [length_leBytes] at hbytes
  rw [memLe, hbytes, leNat_leBytes]

/-- The window of `n` cells at an address, with the output as far as it goes. -/
def window (mem : Nat → α) (a n : Nat) (text : List α) : Nat → α :=
  repMovsbFrom mem (text.take n) a

@[simp] theorem window_nil (a n : Nat) : window mem a n [] = mem := by
  simp [window, repMovsbFrom]

@[simp] theorem window_zero (a : Nat) (text : List α) : window mem a 0 text = mem := by
  simp [window, repMovsbFrom]

/-- Output goes on in what is left of the window. -/
theorem window_append (a n : Nat) (xs ys : List α) :
    window mem a n (xs ++ ys) =
      window (window mem a n xs) (a + xs.length) (n - xs.length) ys := by
  simp only [window]
  rw [List.take_append]
  by_cases h : xs.length ≤ n
  · rw [repMovsbFrom_append, List.take_of_length_le h]
  · rw [Nat.sub_eq_zero_of_le (Nat.le_of_not_le h), List.take_zero, List.append_nil]
    rfl

/-- A character is stored when there is room. -/
theorem window_concat (a n : Nat) (xs : List α) (x : α) :
    window mem a n (xs ++ [x]) =
      if xs.length < n then put (window mem a n xs) (a + xs.length) x else window mem a n xs := by
  rw [window_append]
  split
  next h =>
    rw [window, List.take_of_length_le (by rw [List.length_singleton]; omega)]
    rfl
  next h => rw [Nat.sub_eq_zero_of_le (Nat.le_of_not_lt h), window_zero]

/-- A character at the end may be stored before the others. -/
theorem window_put (a n : Nat) (xs : List α) (x : α) :
    window mem a n (xs ++ [x]) =
      window (if xs.length < n then put mem (a + xs.length) x else mem) a n xs := by
  rw [window_concat]
  split
  next h => exact (repMovsbFrom_put (by rw [List.length_take]; omega) x).symm
  next h => rfl

end Liigboot
