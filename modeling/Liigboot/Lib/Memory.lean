import Liigboot.Lib.Bytes

/-!
# Numbers in memory

A pointer into memory is taken as the bytes that lie from it on. What lies behind a buffer is there
too, and may be anything.
-/

namespace Liigboot

/-- The bytes from a pointer on. -/
abbrev Memory := Nat → UInt8

/-- The memory from `a` bytes further on. -/
def Memory.from (mem : Memory) (a : Nat) : Memory := fun i => mem (a + i)

/-- The little-endian number of `n` bytes at a pointer. -/
def memLe (mem : Memory) (a n : Nat) : Nat := leNat ((List.range n).map fun i => mem (a + i))

/-- The memory with some bytes at a pointer. -/
def Memory.write (mem : Memory) (a : Nat) (bs : List UInt8) : Memory := fun i =>
  if a ≤ i then bs.getD (i - a) (mem i) else mem i

theorem memLe_lt (mem : Memory) (a n : Nat) : memLe mem a n < 256 ^ n := by
  have hlt := leNat_lt ((List.range n).map fun i => mem (a + i))
  rwa [List.length_map, List.length_range] at hlt

theorem memLe_congr {mem mem' : Memory} {a b n : Nat} (h : ∀ i < n, mem' (a + i) = mem (b + i)) :
    memLe mem' a n = memLe mem b n :=
  congrArg leNat (List.map_congr_left fun i hi => h i (List.mem_range.mp hi))

theorem leNat_append (bs cs : List UInt8) :
    leNat (bs ++ cs) = leNat bs + 256 ^ bs.length * leNat cs := by
  induction bs with
  | nil => rw [List.nil_append, leNat, List.length_nil, Nat.pow_zero, Nat.one_mul, Nat.zero_add]
  | cons b bs ih =>
    rw [List.cons_append, leNat, ih, leNat, List.length_cons, Nat.pow_succ', Nat.mul_add,
      Nat.add_assoc, Nat.mul_assoc]

/-- A number is put together from that of its first bytes and that of the others. -/
theorem memLe_add (mem : Memory) (a m n : Nat) :
    memLe mem a (m + n) = memLe mem a m + 256 ^ m * memLe mem (a + m) n := by
  rw [memLe, List.range_add, List.map_append, leNat_append, List.length_map, List.length_range,
    List.map_map]
  simp only [memLe, Function.comp_def, Nat.add_assoc]

/-- The memory at the bytes that were put there. -/
theorem Memory.write_add {mem : Memory} {a i : Nat} {bs : List UInt8} {b : UInt8}
    (h : bs[i]? = some b) : mem.write a bs (a + i) = b := by
  rw [Memory.write, if_pos (Nat.le_add_right a i), Nat.add_sub_cancel_left,
    List.getD_eq_getElem?_getD, h, Option.getD_some]

/-- The memory behind the bytes that were put there. -/
theorem Memory.write_behind {mem : Memory} {a i : Nat} {bs : List UInt8} (h : bs.length ≤ i) :
    mem.write a bs (a + i) = mem (a + i) := by
  rw [Memory.write, if_pos (Nat.le_add_right a i), Nat.add_sub_cancel_left,
    List.getD_eq_getElem?_getD, List.getElem?_eq_none h, Option.getD_none]

/-- The memory in front of the bytes that were put there. -/
theorem Memory.write_before {mem : Memory} {a i : Nat} (bs : List UInt8) (h : i < a) :
    mem.write a bs i = mem i :=
  if_neg (Nat.not_le.mpr h)

theorem memLe_from (mem : Memory) (a b n : Nat) : memLe (mem.from a) b n = memLe mem (a + b) n := by
  simp only [memLe, Memory.from, Nat.add_assoc]

end Liigboot
