import Liigboot.Lib.StringOps

/-!
# Circular buffers

A queue in a memory of some slots, from a tail up to a head. One slot stays free, so that an empty
buffer and a full one differ. A place goes past the end of the buffer once at most.
-/

namespace Liigboot.Circular

variable {α : Type*} {size head tail a i : Nat} {mem mem' : Nat → α}

/-- The slot behind a slot. -/
def next (size a : Nat) : Nat := if a + 1 < size then a + 1 else 0

/-- The number of slots from the tail up to the head. -/
def count (size head tail : Nat) : Nat := if tail ≤ head then head - tail else head + size - tail

/-- The slot at some distance from the tail. -/
def slot (size tail i : Nat) : Nat := if tail + i < size then tail + i else tail + i - size

/-- A slot between the tail and the head. -/
def Used (size head tail a : Nat) : Prop := ∃ i < count size head tail, slot size tail i = a

/-- What the buffer holds, from the tail on. -/
def contents (size : Nat) (mem : Nat → α) (head tail : Nat) : List α :=
  (List.range (count size head tail)).map fun i => mem (slot size tail i)

/-- The next index is one of the buffer. -/
theorem next_lt (hpos : 0 < size) : next size a < size := by
  unfold next
  split_ifs with h
  · exact h
  · exact hpos

theorem slot_zero (h : tail < size) : slot size tail 0 = tail := if_pos h

theorem length_contents : (contents size mem head tail).length = count size head tail := by
  simp only [contents, List.length_map, List.length_range]

theorem contents_self : contents size mem head head = [] := by
  simp only [contents, count, le_refl, if_true, Nat.sub_self, List.range_zero, List.map_nil]

/-- The head itself is free. -/
theorem not_used_head (htail : tail < size) : ¬ Used size head tail head := by
  rintro ⟨i, hi, heq⟩
  unfold count at hi
  unfold slot at heq
  split_ifs at hi heq <;> omega

/-- There is room exactly when the slot behind the head is not the tail. -/
theorem next_ne_iff (hhead : head < size) (htail : tail < size) :
    next size head ≠ tail ↔ count size head tail + 1 < size := by
  unfold next count
  split_ifs <;> omega

/-- A new element counts one more. -/
theorem count_next (hhead : head < size) (htail : tail < size) (hroom : next size head ≠ tail) :
    count size (next size head) tail = count size head tail + 1 := by
  unfold next at hroom ⊢
  unfold count
  split_ifs at hroom ⊢ <;> omega

/-- A removed element counts one less. -/
theorem count_next_tail (hhead : head < size) (htail : tail < size) (hne : tail ≠ head) :
    count size head (next size tail) + 1 = count size head tail := by
  unfold next count
  split_ifs <;> omega

/-- The head is behind the slots that are in use. -/
theorem slot_count (hhead : head < size) (htail : tail < size) :
    slot size tail (count size head tail) = head := by
  unfold slot count
  split_ifs <;> omega

/-- Behind the removed element the slots move up. -/
theorem slot_next (hhead : head < size) (htail : tail < size) (hi : i < count size head tail) :
    slot size (next size tail) i = slot size tail (i + 1) := by
  unfold count at hi
  unfold next slot
  split_ifs at hi ⊢ <;> omega

/-- What the buffer holds depends on its slots in use. -/
theorem contents_congr (h : ∀ a, Used size head tail a → mem' a = mem a) :
    contents size mem' head tail = contents size mem head tail :=
  List.map_congr_left fun i hi => h _ ⟨i, List.mem_range.mp hi, rfl⟩

/-- A value at the head comes behind the others when the head goes on. -/
theorem contents_push (hhead : head < size) (htail : tail < size)
    (hroom : next size head ≠ tail) (b : α) :
    contents size (put mem head b) (next size head) tail = contents size mem head tail ++ [b] := by
  rw [contents, count_next hhead htail hroom, List.range_succ, List.map_append, List.map_singleton,
    slot_count hhead htail, put_self]
  congr 1
  refine contents_congr fun a ha => put_of_ne _ ?_
  rintro rfl
  exact not_used_head htail ha

/-- The first value is at the tail, and the others stay when the tail goes on. -/
theorem contents_pop (hhead : head < size) (htail : tail < size) (hne : tail ≠ head) :
    contents size mem head tail = mem tail :: contents size mem head (next size tail) := by
  rw [contents, ← count_next_tail hhead htail hne, List.range_succ_eq_map, List.map_cons,
    List.map_map, slot_zero htail]
  congr 1
  refine List.map_congr_left fun i hi => congrArg mem (slot_next hhead htail ?_).symm
  have hlt := List.mem_range.mp hi
  have hcount := count_next_tail hhead htail hne
  omega

end Liigboot.Circular
