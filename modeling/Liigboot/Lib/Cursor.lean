import Mathlib.Data.List.Forall2
import Mathlib.Data.Option.Basic

/-!
# Cursors

A cursor goes through some items, one at each call, and then reports their end. Between the calls
other things happen. When each call returns the first of the items that remain, and the others keep
what remains, then a run of calls returns the items in order, each of them once.
-/

namespace Liigboot

variable {S α β : Type*}

/-- A run: the results of the calls. -/
inductive Visits (call : S → Option α → S → Prop) (other : S → S → Prop) (s : S) :
    List (Option α) → S → Prop
  | start : Visits call other s [] s
  | call {t u : S} {rs : List (Option α)} {r : Option α} (h : Visits call other s rs t)
      (hcall : call t r u) : Visits call other s (rs ++ [r]) u
  | other {t u : S} {rs : List (Option α)} (h : Visits call other s rs t) (hother : other t u) :
      Visits call other s rs u

/-- What the calls should return: an item each, and then the end. -/
def visited (xs : List β) : List (Option β) := xs.map some ++ [none]

/-- A cursor: the items that remain in a state. -/
structure Cursor (call : S → Option α → S → Prop) (other : S → S → Prop) (shows : α → β → Prop)
    (remains : S → List β → Prop) : Prop where
  call : ∀ ⦃s r t xs⦄, remains s xs → call s r t → (xs = [] ∧ r = none) ∨
    ∃ a x ys, xs = x :: ys ∧ r = some a ∧ shows a x ∧ remains t ys
  other : ∀ ⦃s t xs⦄, remains s xs → other s t → remains t xs

variable {call : S → Option α → S → Prop} {other : S → S → Prop} {shows : α → β → Prop}
  {remains : S → List β → Prop} {s t : S} {rs : List (Option α)} {xs : List β}

theorem length_visited (xs : List β) : (visited xs).length = xs.length + 1 := by
  rw [visited, List.length_append, List.length_map, List.length_singleton]

/-- The calls return the items in order, and then the end. -/
theorem Cursor.results (hc : Cursor call other shows remains) (h : Visits call other s rs t)
    (hs : remains s xs) (hlen : rs.length ≤ xs.length + 1) :
    List.Forall₂ (Option.Rel shows) rs ((visited xs).take rs.length) ∧
      (rs.length ≤ xs.length → remains t (xs.drop rs.length)) := by
  induction h with
  | start => exact ⟨.nil, fun _ => hs⟩
  | @call t u rs r h hcall ih =>
    rw [List.length_append, List.length_singleton] at hlen ⊢
    have hle : rs.length ≤ xs.length := Nat.le_of_succ_le_succ hlen
    obtain ⟨hresults, hremains⟩ := ih (Nat.le_succ_of_le hle)
    have hlt : rs.length < (visited xs).length := by
      rw [length_visited]
      exact Nat.lt_succ_of_le hle
    rw [List.take_succ_eq_append_getElem hlt]
    rcases hc.call (hremains hle) hcall with ⟨hnil, rfl⟩ | ⟨a, x, ys, hcons, rfl, hshows, hys⟩
    · -- all items have been returned
      have hend : rs.length = xs.length := Nat.le_antisymm hle (List.drop_eq_nil_iff.mp hnil)
      refine ⟨List.rel_append hresults ?_, fun hmore => absurd hmore (by omega)⟩
      simp only [visited, hend, List.getElem_append_right (Nat.le_of_eq (List.length_map _)),
        List.length_map, Nat.sub_self, List.getElem_cons_zero]
      exact .cons .none .nil
    · have hin : rs.length < xs.length := by
        by_contra hout
        rw [List.drop_eq_nil_of_le (Nat.le_of_not_lt hout)] at hcons
        cases hcons
      rw [List.drop_eq_getElem_cons hin] at hcons
      obtain ⟨rfl, rfl⟩ := List.cons.inj hcons
      have hmap : rs.length < (xs.map some).length := by rwa [List.length_map]
      refine ⟨List.rel_append hresults ?_, fun _ => hys⟩
      simp only [visited, List.getElem_append_left hmap, List.getElem_map]
      exact .cons (.some hshows) .nil
  | other h hother ih =>
    obtain ⟨hresults, hremains⟩ := ih hlen
    exact ⟨hresults, fun hle => hc.other (hremains hle) hother⟩

/-- When the end is reported again once it has been reported, the calls return the items in order,
and the end from then on. -/
theorem Cursor.results_end (hc : Cursor call other shows remains)
    (hend : ∀ ⦃s r t⦄, remains s [] → call s r t → remains t []) (h : Visits call other s rs t)
    (hs : remains s xs) :
    List.Forall₂ (Option.Rel shows) rs ((List.range rs.length).map fun i => xs[i]?) ∧
      remains t (xs.drop rs.length) := by
  induction h with
  | start => exact ⟨.nil, hs⟩
  | @call t u rs r h hcall ih =>
    obtain ⟨hresults, hremains⟩ := ih
    rw [List.length_append, List.length_singleton, List.range_succ, List.map_append]
    rcases hc.call hremains hcall with ⟨hnil, rfl⟩ | ⟨a, x, ys, hcons, rfl, hshows, hys⟩
    · have hlen := List.drop_eq_nil_iff.mp hnil
      rw [hnil] at hremains
      refine ⟨List.rel_append hresults ?_, ?_⟩
      · rw [List.map_singleton, List.getElem?_eq_none hlen]
        exact .cons .none .nil
      · rw [List.drop_eq_nil_of_le (Nat.le_succ_of_le hlen)]
        exact hend hremains hcall
    · have hin : rs.length < xs.length := by
        by_contra hout
        rw [List.drop_eq_nil_of_le (Nat.le_of_not_lt hout)] at hcons
        cases hcons
      rw [List.drop_eq_getElem_cons hin] at hcons
      obtain ⟨rfl, rfl⟩ := List.cons.inj hcons
      refine ⟨List.rel_append hresults ?_, hys⟩
      rw [List.map_singleton, List.getElem?_eq_getElem hin]
      exact .cons (.some hshows) .nil
  | other h hother ih => exact ⟨ih.1, hc.other ih.2 hother⟩

end Liigboot
