import Liigboot.Lib.Bytes
import Mathlib.Order.Nat
import Mathlib.Tactic.Common

/-!
# String instructions

The repeated string instructions of the x86, one byte after the other, with the direction flag
clear if not said otherwise. A move within one memory delivers the old bytes when it goes down, or
when the ranges do not meet; with the direction flag set, when it goes up.
-/

namespace Liigboot

variable {α : Type*} {mem : Nat → α}

/-- A memory with one cell written. -/
def put (mem : Nat → α) (a : Nat) (b : α) : Nat → α := fun c => if c = a then b else mem c

theorem put_self (a : Nat) (b : α) : put mem a b a = b := if_pos rfl

/-- Every other cell keeps its value. -/
theorem put_of_ne {a c : Nat} (b : α) (h : c ≠ a) : put mem a b c = mem c := if_neg h

/-- `rep movsb`, with `cx`, `si` and `di`. -/
def repMovsb (mem : Nat → α) : Nat → Nat → Nat → Nat → α
  | 0, _, _ => mem
  | cx + 1, si, di => repMovsb (put mem di (mem si)) cx (si + 1) (di + 1)

/-- `rep movsb` with the direction flag set. -/
def repMovsbDown (mem : Nat → α) : Nat → Nat → Nat → Nat → α
  | 0, _, _ => mem
  | cx + 1, si, di => repMovsbDown (put mem di (mem si)) cx (si - 1) (di - 1)

/-- `rep stosb`, with `al`, `cx` and `di`. -/
def repStosb (mem : Nat → α) (al : α) : Nat → Nat → Nat → α
  | 0, _ => mem
  | cx + 1, di => repStosb (put mem di al) al cx (di + 1)

/-- `rep movsb` from another segment, with the bytes there and `di`. -/
def repMovsbFrom (mem : Nat → α) : List α → Nat → Nat → α
  | [], _ => mem
  | b :: bs, di => repMovsbFrom (put mem di b) bs (di + 1)

/-- Some bytes are at an address. -/
def Holds (mem : Nat → α) (a : Nat) (bs : List α) : Prop :=
  ∀ i b, bs[i]? = some b → mem (a + i) = b

theorem holds_nil (mem : Nat → α) (a : Nat) : Holds mem a [] := fun _ _ hb => nomatch hb

/-- A `rep movsb` that does not run over its own source copies the source as it was before. -/
theorem repMovsb_eq {cx si di : Nat} (h : di ≤ si ∨ si + cx ≤ di) (a : Nat) :
    repMovsb mem cx si di a = if di ≤ a ∧ a < di + cx then mem (si + (a - di)) else mem a := by
  induction cx generalizing mem si di with
  | zero => rw [repMovsb, if_neg (by omega)]
  | succ cx ih =>
    rw [repMovsb, ih (by omega)]
    by_cases hfirst : a = di
    · rw [if_neg (by omega), if_pos (by omega), hfirst, put_self, Nat.sub_self, Nat.add_zero]
    · by_cases hrest : di + 1 ≤ a ∧ a < di + 1 + cx
      · rw [if_pos hrest, if_pos (by omega), put_of_ne _ (by omega)]
        congr 1
        omega
      · rw [if_neg hrest, if_neg (by omega), put_of_ne _ hfirst]

/-- Going down, a move up delivers the old bytes. -/
theorem repMovsbDown_eq {cx si di : Nat} (hle : si ≤ di) (hsi : cx ≤ si + 1) (a : Nat) :
    repMovsbDown mem cx si di a =
      if di < a + cx ∧ a ≤ di then mem (a - (di - si)) else mem a := by
  induction cx generalizing mem si di with
  | zero => rw [repMovsbDown, if_neg (by omega)]
  | succ cx ih =>
    rw [repMovsbDown, ih (by omega) (by omega)]
    by_cases hfirst : a = di
    · rw [if_neg (by omega), if_pos (by omega), hfirst, put_self]
      congr 1
      omega
    · by_cases hrest : di - 1 < a + cx ∧ a ≤ di - 1
      · rw [if_pos hrest, if_pos (by omega), put_of_ne _ (by omega)]
        congr 1
        omega
      · rw [if_neg hrest, if_neg (by omega), put_of_ne _ hfirst]

/-- What memory is after a `rep stosb`. -/
theorem repStosb_eq {al : α} {cx di : Nat} (a : Nat) :
    repStosb mem al cx di a = if di ≤ a ∧ a < di + cx then al else mem a := by
  induction cx generalizing mem di with
  | zero => rw [repStosb, if_neg (by omega)]
  | succ cx ih =>
    rw [repStosb, ih]
    by_cases hfirst : a = di
    · rw [if_neg (by omega), if_pos (by omega), hfirst, put_self]
    · by_cases hrest : di + 1 ≤ a ∧ a < di + 1 + cx
      · rw [if_pos hrest, if_pos (by omega)]
      · rw [if_neg hrest, if_neg (by omega), put_of_ne _ hfirst]

/-- A copy leaves what is in front of its target. -/
theorem repMovsbFrom_of_lt {bs : List α} {a di : Nat} (h : a < di) :
    repMovsbFrom mem bs di a = mem a := by
  induction bs generalizing mem di with
  | nil => rfl
  | cons b bs ih => rw [repMovsbFrom, ih (by omega), put_of_ne _ h.ne]

/-- A copy leaves what is behind its target. -/
theorem repMovsbFrom_of_ge {bs : List α} {a di : Nat} (h : di + bs.length ≤ a) :
    repMovsbFrom mem bs di a = mem a := by
  induction bs generalizing mem di with
  | nil => rfl
  | cons b bs ih =>
    rw [List.length_cons] at h
    rw [repMovsbFrom, ih (by omega), put_of_ne _ (by omega)]

/-- The bytes of the other segment are there behind the move. -/
theorem repMovsbFrom_holds (bs : List α) (di : Nat) : Holds (repMovsbFrom mem bs di) di bs := by
  induction bs generalizing mem di with
  | nil => exact holds_nil _ _
  | cons x bs ih =>
    intro i b hb
    rw [repMovsbFrom]
    cases i with
    | zero =>
      have hkept := @repMovsbFrom_of_lt _ (put mem di x) bs di (di + 1) (Nat.lt_succ_self di)
      change repMovsbFrom (put mem di x) bs (di + 1) di = b
      rw [hkept, put_self]
      exact Option.some.inj hb
    | succ i =>
      have hrest := @ih (put mem di x) (di + 1) i b hb
      rw [Nat.add_right_comm, Nat.add_assoc] at hrest
      exact hrest

/-! ## Lists of stores -/

/-- A memory after some stores, one after the other. -/
def putAll (mem : Nat → α) : List (Nat × α) → Nat → α
  | [] => mem
  | (a, b) :: stores => putAll (put mem a b) stores

/-- The stores of some values from an address on. -/
def storesAt : Nat → List α → List (Nat × α)
  | _, [] => []
  | a, b :: bs => (a, b) :: storesAt (a + 1) bs

/-- Stores made one after the other are made in that order. -/
theorem putAll_append {stores stores' : List (Nat × α)} :
    putAll mem (stores ++ stores') = putAll (putAll mem stores) stores' := by
  induction stores generalizing mem with
  | nil => rfl
  | cons x stores ih => exact ih

/-- Stores to other addresses change nothing. -/
theorem putAll_of_ne {stores : List (Nat × α)} {a : Nat} (h : ∀ x ∈ stores, x.1 ≠ a) :
    putAll mem stores a = mem a := by
  induction stores generalizing mem with
  | nil => rfl
  | cons x stores ih =>
    rw [putAll, ih fun y hy => h y (List.mem_cons_of_mem _ hy)]
    exact put_of_ne _ (h x List.mem_cons_self).symm

/-- The same stores to memories that agree at an address. -/
theorem putAll_congr {mem' : Nat → α} {stores : List (Nat × α)} {a : Nat} (h : mem' a = mem a) :
    putAll mem' stores a = putAll mem stores a := by
  induction stores generalizing mem mem' with
  | nil => exact h
  | cons x stores ih =>
    apply ih
    by_cases hx : x.1 = a
    · rw [← hx, put_self, put_self]
    · rw [put_of_ne _ (Ne.symm hx), put_of_ne _ (Ne.symm hx), h]

/-- The stores of a text, byte by byte, are a copy of it. -/
theorem putAll_storesAt {a : Nat} {bs : List α} :
    putAll mem (storesAt a bs) = repMovsbFrom mem bs a := by
  induction bs generalizing mem a with
  | nil => rfl
  | cons b bs ih => exact ih

/-- The stores of a text all go into the place of the text. -/
theorem mem_storesAt {a : Nat} {bs : List α} {x : Nat × α} (h : x ∈ storesAt a bs) :
    a ≤ x.1 ∧ x.1 < a + bs.length := by
  induction bs generalizing a with
  | nil => exact absurd h List.not_mem_nil
  | cons b bs ih =>
    rw [List.length_cons]
    cases h with
    | head => exact ⟨Nat.le_refl _, by omega⟩
    | tail _ h =>
      have hrest := ih h
      omega

/-! ## Bytes at an address -/

/-- A text is at an address if its first byte is and the rest lies behind it. -/
theorem holds_cons {a : Nat} {b : α} {bs : List α} :
    Holds mem a (b :: bs) ↔ mem a = b ∧ Holds mem (a + 1) bs := by
  constructor
  · intro h
    refine ⟨h 0 b rfl, fun i c hc => ?_⟩
    have hnext := h (i + 1) c hc
    rw [← Nat.add_assoc, Nat.add_right_comm] at hnext
    exact hnext
  · rintro ⟨hb, hbs⟩ i c hc
    cases i with
    | zero =>
      rw [Nat.add_zero, hb]
      exact Option.some.inj hc
    | succ i =>
      have hnext := hbs i c hc
      rw [Nat.add_right_comm, Nat.add_assoc] at hnext
      exact hnext

/-- Two texts one behind the other are the text of both. -/
theorem holds_append {a : Nat} {xs ys : List α} :
    Holds mem a (xs ++ ys) ↔ Holds mem a xs ∧ Holds mem (a + xs.length) ys := by
  induction xs generalizing a with
  | nil =>
    rw [List.nil_append, List.length_nil, Nat.add_zero]
    exact (and_iff_right (holds_nil mem a)).symm
  | cons x xs ih =>
    rw [List.cons_append, holds_cons, ih, holds_cons, and_assoc, List.length_cons,
      Nat.add_assoc, Nat.add_comm 1]

/-- The bytes at an address, read one by one. -/
theorem Holds.map_range {a : Nat} {bs : List α} (h : Holds mem a bs) :
    (List.range bs.length).map (fun i => mem (a + i)) = bs := by
  refine List.ext_getElem ?_ fun i hi _ => ?_
  · rw [List.length_map, List.length_range]
  · rw [List.getElem_map, List.getElem_range]
    rw [List.length_map, List.length_range] at hi
    exact h i _ (List.getElem?_eq_getElem hi)

/-- Memories that agree on a range hold the same bytes there. -/
theorem Holds.congr {mem' : Nat → α} {a : Nat} {bs : List α} (h : Holds mem a bs)
    (heq : ∀ c, a ≤ c → c < a + bs.length → mem' c = mem c) : Holds mem' a bs := by
  intro i b hb
  have hi := (List.getElem?_eq_some_iff.mp hb).1
  rw [heq (a + i) (Nat.le_add_right a i) (Nat.add_lt_add_left hi a)]
  exact h i b hb

/-- A window of a buffer is stored. -/
theorem Holds.blit {mem mem' : Nat → α} {bs ys : List α} {off : Nat} (h : Holds mem 0 bs)
    (hle : off + ys.length ≤ bs.length) (hys : Holds mem' off ys)
    (hout : ∀ c, c < off ∨ off + ys.length ≤ c → mem' c = mem c) :
    Holds mem' 0 (blit bs off ys) := by
  intro i b hb
  rw [getElem?_blit (by omega)] at hb
  rw [Nat.zero_add]
  split_ifs at hb with hlt hin
  · rw [hout i (Or.inl hlt), ← h i b hb, Nat.zero_add]
  · rw [← hys (i - off) b hb, Nat.add_sub_cancel' (by omega)]
  · rw [hout i (Or.inr (by omega)), ← h i b hb, Nat.zero_add]

/-- A text stored inside of another one overwrites the bytes that are there. -/
theorem Holds.storesAt {bs ys : List α} {off : Nat}
    (h : Holds mem 0 bs) (hle : off + ys.length ≤ bs.length) :
    Holds (putAll mem (storesAt off ys)) 0 (Liigboot.blit bs off ys) := by
  refine h.blit hle ?_ fun c hc => putAll_of_ne fun x hx heq => ?_
  · rw [putAll_storesAt]
    exact repMovsbFrom_holds ys off
  · have hbounds := mem_storesAt hx
    omega

end Liigboot
