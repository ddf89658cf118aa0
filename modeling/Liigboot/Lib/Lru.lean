import Mathlib.Data.List.Basic
import Mathlib.Order.Nat
import Mathlib.Tactic.Common

/-!
# Least recently used labels

A fixed number of places is labelled, and listed with the one that was used longest ago
in front. A request for a label that is there moves its place to the end; any other
request puts its label on the first place and moves that to the end. Once all places
carried a label that nobody asks for, the labels are those of the last requests.
-/

namespace Liigboot

variable {α : Type*} [DecidableEq α] {b free : α} {n : Nat} {requests : List α}

/-- The labels that were requested, each once, with the last one in front; the requests are
given with the last one in front, too. -/
def recent : List α → List α
  | [] => []
  | b :: requests => b :: (recent requests).filter (· ≠ b)

/-- Serve a request. -/
def touch (b : α) (labels : List α) : List α :=
  (if b ∈ labels then labels.filter (· ≠ b) else labels.tail) ++ [b]

@[simp] theorem recent_nil : recent ([] : List α) = [] := rfl

theorem recent_cons : recent (b :: requests) = b :: (recent requests).filter (· ≠ b) := rfl

theorem nodup_recent (requests : List α) : (recent requests).Nodup := by
  induction requests with
  | nil => exact List.nodup_nil
  | cons b requests ih =>
    rw [recent_cons, List.nodup_cons]
    exact ⟨fun hmem => by simp at hmem, ih.filter _⟩

/-- What the places carry after some requests, the last used first. -/
def resident (free : α) (n : Nat) (requests : List α) : List α :=
  (recent requests ++ List.replicate n free).take n

theorem length_resident (requests : List α) : (resident free n requests).length = n := by
  rw [resident, List.length_take, List.length_append, List.length_replicate]
  exact Nat.min_eq_left (Nat.le_add_left n _)

/-- A label that has left, or was never there, is no part of what the other places carry. -/
private theorem take_filter_recent (hb : b ∉ resident free n requests) :
    ((recent requests).filter (· ≠ b) ++ List.replicate n free).take (n - 1) =
      (recent requests ++ List.replicate n free).take (n - 1) := by
  by_cases hmem : b ∈ recent requests
  · obtain ⟨xs, ys, hsplit⟩ := List.append_of_mem hmem
    have hnodup := nodup_recent requests
    rw [resident, hsplit] at hb
    rw [hsplit] at hnodup ⊢
    have hxs : b ∉ xs := fun h => (List.nodup_append.mp hnodup).2.2 b h b List.mem_cons_self rfl
    have hlen : n ≤ xs.length := by
      by_contra hlt
      obtain ⟨k, hk⟩ : ∃ k, n - xs.length = k + 1 := ⟨n - xs.length - 1, by omega⟩
      rw [List.append_assoc, List.take_append, hk, List.cons_append, List.take_succ_cons] at hb
      exact hb (List.mem_append_right _ List.mem_cons_self)
    have hkeep : xs.filter (· ≠ b) = xs :=
      List.filter_eq_self.mpr fun a ha => decide_eq_true fun heq => hxs (heq ▸ ha)
    rw [List.filter_append, hkeep, List.append_assoc, List.append_assoc,
      List.take_append_of_le_length (by omega), List.take_append_of_le_length (by omega)]
  · have hkeep : (recent requests).filter (· ≠ b) = recent requests :=
      List.filter_eq_self.mpr fun a ha => decide_eq_true fun heq => hmem (heq ▸ ha)
    rw [hkeep]

/-- Taking a label out of what the places carry. -/
private theorem filter_resident (hfree : b ≠ free) (hb : b ∈ resident free n requests) :
    (resident free n requests).filter (· ≠ b) =
      ((recent requests).filter (· ≠ b) ++ List.replicate n free).take (n - 1) := by
  have hout : b ∉ List.replicate n free := fun h => hfree (List.eq_of_mem_replicate h)
  have hmem : b ∈ recent requests :=
    (List.mem_append.mp (List.mem_of_mem_take hb)).resolve_right hout
  obtain ⟨xs, ys, hsplit⟩ := List.append_of_mem hmem
  have hnodup := nodup_recent requests
  rw [resident, hsplit] at hb ⊢
  rw [hsplit] at hnodup
  obtain ⟨hxsnd, hysnd, hdisj⟩ := List.nodup_append.mp hnodup
  have hxs : b ∉ xs := fun h => hdisj b h b List.mem_cons_self rfl
  have hys : b ∉ ys := (List.nodup_cons.mp hysnd).1
  have hkeep : ∀ zs : List α, b ∉ zs → zs.filter (· ≠ b) = zs := fun zs hzs =>
    List.filter_eq_self.mpr fun a ha => decide_eq_true fun heq => hzs (heq ▸ ha)
  have hlen : xs.length < n := by
    by_contra hle
    rw [List.append_assoc, List.take_append_of_le_length (Nat.le_of_not_lt hle)] at hb
    exact hxs (List.mem_of_mem_take hb)
  obtain ⟨k, rfl⟩ : ∃ k, n = xs.length + (k + 1) := ⟨n - xs.length - 1, by omega⟩
  have hrest : b ∉ (ys ++ List.replicate (xs.length + (k + 1)) free).take k := fun h =>
    (List.mem_append.mp (List.mem_of_mem_take h)).elim hys hout
  calc ((xs ++ b :: ys ++ _).take (xs.length + (k + 1))).filter (· ≠ b)
      = (xs ++ b :: (ys ++ _).take k).filter (· ≠ b) := by
        rw [List.append_assoc, List.take_length_add_append, List.cons_append, List.take_succ_cons]
    _ = xs ++ (ys ++ _).take k := by
        rw [List.filter_append, List.filter_cons, if_neg (by simp), hkeep xs hxs, hkeep _ hrest]
    _ = ((xs ++ b :: ys).filter (· ≠ b) ++ _).take (xs.length + (k + 1) - 1) := by
        rw [List.filter_append, List.filter_cons, if_neg (by simp), hkeep xs hxs, hkeep ys hys,
          List.append_assoc, show xs.length + (k + 1) - 1 = xs.length + k from rfl,
          List.take_length_add_append]

/-- A request leaves the labels of the last requests. -/
theorem touch_resident (hfree : b ≠ free) (hn : 0 < n) :
    touch b (resident free n requests).reverse = (resident free n (b :: requests)).reverse := by
  obtain ⟨k, rfl⟩ : ∃ k, n = k + 1 := ⟨n - 1, by omega⟩
  have hnext : resident free (k + 1) (b :: requests) =
      b :: ((recent requests).filter (· ≠ b) ++ List.replicate (k + 1) free).take k := by
    rw [resident, recent_cons, List.cons_append, List.take_succ_cons]
  rw [hnext, List.reverse_cons, touch]
  congr 1
  split_ifs with hmem
  · rw [List.filter_reverse, filter_resident hfree (List.mem_reverse.mp hmem)]
    rfl
  · have htail := take_filter_recent (fun h => hmem (List.mem_reverse.mpr h))
    have hlen := @length_resident _ _ free (k + 1) requests
    rw [List.tail_reverse, List.dropLast_eq_take, hlen, resident, List.take_take,
      Nat.min_eq_left (Nat.sub_le (k + 1) 1), ← htail]
    rfl

theorem mem_resident (hb : b ∈ (recent requests).take n) : b ∈ resident free n requests := by
  rw [resident, List.take_append]
  exact List.mem_append_left _ hb

end Liigboot
