import Mathlib.Logic.Function.Basic
import Mathlib.Tactic.Common

/-!
# Memo tables

A table with one slot for several keys keeps what a search found. As long as each slot holds what
the search finds for its key, a lookup through the table finds what the search finds.
-/

namespace Liigboot

variable {κ β ι : Type*}

/-- Look a key up in its slot of the table, or search for it and keep what is found. -/
def memoLookup [DecidableEq κ] [DecidableEq ι] (search : κ → Option β)
    (slot : κ → ι) (table : ι → κ × β) (k : κ) :
    Option (β × (ι → κ × β)) :=
  if (table (slot k)).1 = k then some ((table (slot k)).2, table)
  else (search k).map fun v => (v, Function.update table (slot k) (k, v))

/-- Each slot holds what the search finds for its key. -/
def MemoSound (search : κ → Option β) (table : ι → κ × β) : Prop :=
  ∀ i, search (table i).1 = some (table i).2

variable {search : κ → Option β} {slot : κ → ι} {table table' : ι → κ × β} {k : κ} {v : β}

/-- What the search found may be kept in any slot. -/
theorem MemoSound.update [DecidableEq ι] (h : MemoSound search table) (hv : search k = some v)
    (i : ι) :
    MemoSound search (Function.update table i (k, v)) := by
  intro j
  rw [Function.update_apply]
  split_ifs
  · exact hv
  · exact h j

variable [DecidableEq κ] [DecidableEq ι]

/-- A lookup finds what the search finds. -/
theorem MemoSound.lookup_eq (h : MemoSound search table) (slot : κ → ι) (k : κ) :
    (memoLookup search slot table k).map Prod.fst = search k := by
  rw [memoLookup]
  split_ifs with hhit
  · have hslot := h (slot k)
    rw [hhit] at hslot
    exact hslot.symm
  · rw [Option.map_map]
    exact Option.map_id_fun' ▸ rfl

/-- A lookup keeps the table sound. -/
theorem MemoSound.lookup (h : MemoSound search table)
    (hlookup : memoLookup search slot table k = some (v, table')) :
    search k = some v ∧ MemoSound search table' := by
  have hv := h.lookup_eq slot k
  rw [hlookup] at hv
  refine ⟨hv.symm, ?_⟩
  rw [memoLookup] at hlookup
  split_ifs at hlookup
  · obtain ⟨-, rfl⟩ := Prod.mk.inj (Option.some.inj hlookup)
    exact h
  · obtain ⟨v', hsearch, heq⟩ := Option.map_eq_some_iff.mp hlookup
    obtain ⟨-, rfl⟩ := Prod.mk.inj heq
    exact h.update hsearch _

end Liigboot
