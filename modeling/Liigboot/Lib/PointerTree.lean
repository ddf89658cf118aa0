import Mathlib.Algebra.Group.Nat.Defs
import Mathlib.Order.Nat
import Mathlib.Tactic.Common

/-!
# Trees of pointers

A tree of a fixed height whose nodes have `width` children each, found through pointers. A
pointer `nil` stands for an empty subtree at any level. The leaf of an offset is found by its
digits in base `width`; the offsets whose digits but the last agree share the lowest node.
-/

namespace Liigboot

variable {α : Type*} [DecidableEq α] (nil : α) (child : α → Nat → α) (width : Nat)

/-- The leaf at an offset. -/
def resolve : Nat → α → Nat → α
  | 0, p, _ => p
  | levels + 1, p, off =>
    if p = nil then nil else resolve levels (child p (off / width ^ levels)) (off % width ^ levels)

/-- The empty subtree that an offset lies in, when there is a `nil` above its leaf: its size
and the position of the offset inside. -/
def emptyAbove : Nat → α → Nat → Option (Nat × Nat)
  | 0, _, _ => none
  | levels + 1, p, off =>
    if p = nil then some (width ^ (levels + 1), off)
    else emptyAbove levels (child p (off / width ^ levels)) (off % width ^ levels)

variable {nil child width} {levels off size pos : Nat} {p : α}

theorem resolve_nil (levels off : Nat) : resolve nil child width levels nil off = nil := by
  cases levels with
  | zero => rfl
  | succ levels => exact if_pos rfl

theorem emptyAbove_nil (levels off : Nat) :
    emptyAbove nil child width (levels + 1) nil off = some (width ^ (levels + 1), off) :=
  if_pos rfl

theorem emptyAbove_ne (hp : p ≠ nil) :
    emptyAbove nil child width (levels + 1) p off =
      emptyAbove nil child width levels (child p (off / width ^ levels)) (off % width ^ levels) :=
  if_neg hp

/-- A step down: offsets that differ below the first digit only. -/
theorem resolve_ne (hp : p ≠ nil) (q : Nat) (hoff : off < width ^ levels) :
    resolve nil child width (levels + 1) p (q * width ^ levels + off) =
      resolve nil child width levels (child p q) off := by
  have hpos : 0 < width ^ levels := Nat.zero_lt_of_lt hoff
  have hdiv : (q * width ^ levels + off) / width ^ levels = q := by
    rw [Nat.add_comm, Nat.add_mul_div_right _ _ hpos, Nat.div_eq_of_lt hoff, Nat.zero_add]
  have hmod : (q * width ^ levels + off) % width ^ levels = off := by
    rw [Nat.add_comm, Nat.add_mul_mod_self_right, Nat.mod_eq_of_lt hoff]
  rw [resolve, if_neg hp, hdiv, hmod]

/-- The leaves of an empty subtree. -/
theorem emptyAbove_spec (h : emptyAbove nil child width levels p off = some (size, pos))
    (hoff : off < width ^ levels) :
    pos ≤ off ∧ pos < size ∧ off - pos + size ≤ width ^ levels ∧
      ∀ j < size, resolve nil child width levels p (off - pos + j) = nil := by
  induction levels generalizing p off with
  | zero => cases h
  | succ levels ih =>
    by_cases hp : p = nil
    · rw [hp, emptyAbove_nil] at h
      cases h
      rw [Nat.sub_self, Nat.zero_add]
      exact ⟨le_rfl, hoff, le_rfl, fun j _ => hp ▸ resolve_nil _ _⟩
    · rw [emptyAbove_ne hp] at h
      have hpos : 0 < width ^ levels := Nat.pos_of_ne_zero fun h0 => by
        rw [Nat.pow_succ, h0, Nat.zero_mul] at hoff
        exact absurd hoff (Nat.not_lt_zero off)
      have hlt := Nat.mod_lt off hpos
      obtain ⟨hle, hin, hend, hnil⟩ := ih h hlt
      have hsplit : off = off / width ^ levels * width ^ levels + off % width ^ levels := by
        rw [Nat.mul_comm, Nat.div_add_mod]
      have hdigit : off / width ^ levels + 1 ≤ width := by
        rw [Nat.pow_succ, Nat.mul_comm] at hoff
        exact Nat.div_lt_of_lt_mul (Nat.mul_comm _ _ ▸ hoff)
      have htop : (off / width ^ levels + 1) * width ^ levels ≤ width ^ (levels + 1) := by
        rw [Nat.pow_succ, Nat.mul_comm (width ^ levels)]
        exact Nat.mul_le_mul_right _ hdigit
      rw [Nat.succ_mul] at htop
      refine ⟨by omega, hin, by omega, fun j hj => ?_⟩
      have hj' : off - pos + j =
          off / width ^ levels * width ^ levels + (off % width ^ levels - pos + j) := by omega
      rw [hj', resolve_ne hp _ (by omega)]
      exact hnil j hj

/-- The offsets behind `off` in its node have the same digits but the last. -/
theorem window_lt (off levels : Nat) {j : Nat} (hj : j < width - off % width) :
    off % width ^ (levels + 1) + j < width ^ (levels + 1) := by
  have hpos : 0 < width := by omega
  have hdvd : width ∣ width ^ (levels + 1) := ⟨width ^ levels, by rw [Nat.pow_succ, Nat.mul_comm]⟩
  have hmod : off % width ^ (levels + 1) % width = off % width := Nat.mod_mod_of_dvd off hdvd
  have hlt := Nat.mod_lt off (Nat.pow_pos (n := levels + 1) hpos)
  have hdm := Nat.div_add_mod (off % width ^ (levels + 1)) width
  obtain ⟨c, hc⟩ := hdvd
  rw [hc] at hlt hdm hmod ⊢
  have hdigit : off % (width * c) / width + 1 ≤ c := Nat.div_lt_of_lt_mul hlt
  have hmul := Nat.mul_le_mul_left width hdigit
  rw [Nat.mul_succ] at hmul
  omega

end Liigboot
