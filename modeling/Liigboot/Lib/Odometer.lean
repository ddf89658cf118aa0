import Mathlib.Data.List.Range
import Mathlib.Order.Nat
import Mathlib.Tactic.Common

/-!
# Paths of a levelled tree

In a tree whose leaves all lie at level 0, a leaf entry is named by the slots on the way down to
it, one for each level. The slots are stepped like the wheels of an odometer: the lowest one that
has a further slot moves on, and the ones below it start again.
-/

namespace Liigboot

variable {N : Type*} (count : N → Nat) (child : N → Nat → N)

/-- The slots from a level down. -/
def slotList (slots : Nat → Nat) : Nat → List Nat
  | 0 => [slots 0]
  | level + 1 => slots (level + 1) :: slotList slots level

/-- All paths below a node, in order. -/
def paths : Nat → N → List (List Nat)
  | 0, node => (List.range' 0 (count node)).map fun i => [i]
  | level + 1, node =>
    (List.range' 0 (count node)).flatMap fun i => (paths level (child node i)).map (i :: ·)

/-- The paths below a node from one of them on. -/
def pathsFrom (slots : Nat → Nat) : Nat → N → List (List Nat)
  | 0, node => (List.range' (slots 0) (count node - slots 0)).map fun i => [i]
  | level + 1, node =>
    (pathsFrom slots level (child node (slots (level + 1)))).map (slots (level + 1) :: ·) ++
      (List.range' (slots (level + 1) + 1) (count node - (slots (level + 1) + 1))).flatMap fun i =>
        (paths count child level (child node i)).map (i :: ·)

/-- The slots are those of a path below a node, and `counts` are the entries of its nodes. -/
def Along (slots counts : Nat → Nat) : Nat → N → Prop
  | 0, node => counts 0 = count node ∧ slots 0 < count node
  | level + 1, node => (counts (level + 1) = count node ∧ slots (level + 1) < count node) ∧
    Along slots counts level (child node (slots (level + 1)))

/-- No node is empty. -/
def Populated : Nat → N → Prop
  | 0, node => 0 < count node
  | level + 1, node => 0 < count node ∧ ∀ i < count node, Populated level (child node i)

/-- The slots behind a step at a level: the ones below start again. -/
def advance (slots : Nat → Nat) (step : Nat) : Nat → Nat := fun j =>
  if j < step then 0 else if j = step then slots step + 1 else slots j

variable {count child} {slots slots' counts : Nat → Nat} {level step : Nat} {node : N}

theorem slotList_congr (h : ∀ j ≤ level, slots j = slots' j) :
    slotList slots level = slotList slots' level := by
  induction level with
  | zero => rw [slotList, slotList, h 0 le_rfl]
  | succ level ih =>
    rw [slotList, slotList, h (level + 1) le_rfl, ih fun j hj => h j (Nat.le_succ_of_le hj)]

theorem slotList_inj (h : slotList slots level = slotList slots' level) :
    ∀ j ≤ level, slots j = slots' j := by
  induction level with
  | zero =>
    intro j hj
    obtain rfl := Nat.le_zero.mp hj
    exact (List.cons.inj h).1
  | succ level ih =>
    obtain ⟨hhead, htail⟩ := List.cons.inj h
    intro j hj
    rcases Nat.lt_or_eq_of_le hj with hlt | rfl
    · exact ih htail j (Nat.le_of_lt_succ hlt)
    · exact hhead

theorem pathsFrom_congr (h : ∀ j ≤ level, slots j = slots' j) :
    pathsFrom count child slots level node = pathsFrom count child slots' level node := by
  induction level generalizing node with
  | zero => rw [pathsFrom, pathsFrom, h 0 le_rfl]
  | succ level ih =>
    rw [pathsFrom, pathsFrom, h (level + 1) le_rfl, ih fun j hj => h j (Nat.le_succ_of_le hj)]

theorem mem_paths_zero {p : List Nat} :
    p ∈ paths count child 0 node ↔ ∃ i < count node, [i] = p := by
  simp only [paths, List.mem_map, List.mem_range'_1, Nat.zero_le, true_and, Nat.zero_add]

theorem mem_paths_succ {p : List Nat} :
    p ∈ paths count child (level + 1) node ↔
      ∃ i < count node, ∃ q ∈ paths count child level (child node i), i :: q = p := by
  simp only [paths, List.mem_flatMap, List.mem_map, List.mem_range'_1, Nat.zero_le, true_and,
    Nat.zero_add]

theorem ne_nil_of_mem_paths {p : List Nat} (h : p ∈ paths count child level node) : p ≠ [] := by
  cases level with
  | zero =>
    obtain ⟨i, -, rfl⟩ := mem_paths_zero.mp h
    exact List.cons_ne_nil _ _
  | succ level =>
    obtain ⟨i, -, q, -, rfl⟩ := mem_paths_succ.mp h
    exact List.cons_ne_nil _ _

/-- From the first path on there are all. -/
theorem pathsFrom_zero (hpop : Populated count child level node) (h : ∀ j ≤ level, slots j = 0) :
    pathsFrom count child slots level node = paths count child level node := by
  induction level generalizing node with
  | zero => rw [pathsFrom, paths, h 0 le_rfl, Nat.sub_zero]
  | succ level ih =>
    obtain ⟨hpos, hchild⟩ := hpop
    obtain ⟨n, hn⟩ := Nat.exists_eq_add_of_lt hpos
    rw [Nat.zero_add] at hn
    rw [pathsFrom, paths, h (level + 1) le_rfl, ih (hchild 0 hpos) fun j hj =>
      h j (Nat.le_succ_of_le hj), hn, List.range'_succ, List.flatMap_cons, Nat.zero_add,
      Nat.add_sub_cancel]

/-- A path is the first one of those from it on. -/
theorem pathsFrom_head (halong : Along count child slots counts level node) :
    ∃ rest, pathsFrom count child slots level node = slotList slots level :: rest := by
  induction level generalizing node with
  | zero =>
    obtain ⟨n, hn⟩ := Nat.exists_eq_add_of_lt halong.2
    have hsub : count node - slots 0 = n + 1 := by omega
    rw [pathsFrom, slotList, hsub, List.range'_succ, List.map_cons]
    exact ⟨_, rfl⟩
  | succ level ih =>
    obtain ⟨rest, hrest⟩ := ih halong.2
    rw [pathsFrom, slotList, hrest, List.map_cons, List.cons_append]
    exact ⟨_, rfl⟩

/-- The paths from one of them on are the end of all. -/
theorem paths_eq_append (halong : Along count child slots counts level node) :
    ∃ front, paths count child level node =
      front ++ pathsFrom count child slots level node := by
  have hsplit : ∀ {n s : Nat}, s < n →
      List.range' 0 n = List.range' 0 s ++ s :: List.range' (s + 1) (n - (s + 1)) := by
    intro n s hlt
    have happ := @List.range'_append_1 0 s (n - s)
    have hcons := @List.range'_succ s (n - (s + 1)) 1
    rw [show n - (s + 1) + 1 = n - s by omega] at hcons
    rw [Nat.zero_add, Nat.add_sub_cancel' hlt.le] at happ
    rw [← hcons, happ]
  induction level generalizing node with
  | zero =>
    have hlt := halong.2
    have hcons := @List.range'_succ (slots 0) (count node - (slots 0 + 1)) 1
    rw [show count node - (slots 0 + 1) + 1 = count node - slots 0 by omega] at hcons
    rw [paths, pathsFrom, hsplit hlt, hcons, List.map_append]
    exact ⟨_, rfl⟩
  | succ level ih =>
    obtain ⟨front, hfront⟩ := ih halong.2
    rw [paths, pathsFrom, hsplit halong.1.2, List.flatMap_append, List.flatMap_cons, hfront,
      List.map_append, List.append_assoc, ← List.append_assoc]
    exact ⟨_, rfl⟩

/-- On every level the slot is the last one, or there is a lowest level on which it is not. -/
theorem last_or_lowest (slots counts : Nat → Nat) (level : Nat) :
    (∀ j ≤ level, counts j ≤ slots j + 1) ∨
      ∃ step ≤ level, (∀ j < step, counts j ≤ slots j + 1) ∧ slots step + 1 < counts step := by
  by_cases hfurther : ∃ step, step ≤ level ∧ slots step + 1 < counts step
  · obtain ⟨hstep, hmore⟩ := Nat.find_spec hfurther
    refine Or.inr ⟨Nat.find hfurther, hstep, fun j hj => Nat.not_lt.mp fun hlt => ?_, hmore⟩
    exact Nat.find_min hfurther hj ⟨hj.le.trans hstep, hlt⟩
  · exact Or.inl fun j hj => Nat.not_lt.mp fun hlt => hfurther ⟨j, hj, hlt⟩

/-- Behind the last path there is none. -/
theorem pathsFrom_last (halong : Along count child slots counts level node)
    (hlast : ∀ j ≤ level, counts j ≤ slots j + 1) :
    pathsFrom count child slots level node = [slotList slots level] := by
  induction level generalizing node with
  | zero =>
    have hcount := hlast 0 le_rfl
    rw [halong.1] at hcount
    have hlt := halong.2
    rw [pathsFrom, show count node - slots 0 = 1 by omega]
    rfl
  | succ level ih =>
    have hcount := hlast (level + 1) le_rfl
    rw [halong.1.1] at hcount
    rw [pathsFrom, ih halong.2 fun j hj => hlast j (Nat.le_succ_of_le hj),
      Nat.sub_eq_zero_of_le hcount]
    rfl

/-- The next path is the one of the next step. -/
theorem pathsFrom_next (hpop : Populated count child level node)
    (halong : Along count child slots counts level node) (hstep : step ≤ level)
    (hlast : ∀ j < step, counts j ≤ slots j + 1) (hmore : slots step + 1 < counts step) :
    pathsFrom count child slots level node =
      slotList slots level :: pathsFrom count child (advance slots step) level node := by
  induction level generalizing node with
  | zero =>
    obtain rfl : step = 0 := Nat.le_zero.mp hstep
    rw [halong.1] at hmore
    rw [pathsFrom, pathsFrom, show advance slots 0 0 = slots 0 + 1 from rfl, slotList,
      show count node - slots 0 = count node - (slots 0 + 1) + 1 by omega, List.range'_succ,
      List.map_cons]
  | succ level ih =>
    rcases Nat.lt_or_eq_of_le hstep with hlt | rfl
    · have hslot : advance slots step (level + 1) = slots (level + 1) := by
        rw [advance, if_neg (by omega), if_neg (by omega)]
      rw [pathsFrom, pathsFrom, slotList, hslot,
        ih (hpop.2 _ halong.1.2) halong.2 (Nat.le_of_lt_succ hlt), List.map_cons,
        List.cons_append]
    · have hslot : advance slots (level + 1) (level + 1) = slots (level + 1) + 1 := by
        rw [advance, if_neg (lt_irrefl _), if_pos rfl]
      rw [halong.1.1] at hmore
      have hbelow : ∀ j ≤ level, advance slots (level + 1) j = 0 :=
        fun j hj => if_pos (Nat.lt_succ_of_le hj)
      rw [pathsFrom, pathsFrom_last halong.2 fun j hj => hlast j (Nat.lt_succ_of_le hj),
        pathsFrom, slotList, hslot, pathsFrom_zero (hpop.2 _ hmore) hbelow,
        show count node - (slots (level + 1) + 1) =
          count node - (slots (level + 1) + 1 + 1) + 1 by omega,
        List.range'_succ, List.flatMap_cons]
      rfl

private theorem pathsFrom_zero_head (hpop : Populated count child level node)
    (h : ∀ j ≤ level, slots j = 0) :
    ∃ rest, pathsFrom count child slots level node = slotList slots level :: rest := by
  induction level generalizing node with
  | zero =>
    obtain ⟨n, hn⟩ := Nat.exists_eq_succ_of_ne_zero (Nat.ne_zero_of_lt hpop)
    rw [pathsFrom, slotList, h 0 le_rfl, Nat.sub_zero, hn, List.range'_succ, List.map_cons]
    exact ⟨_, rfl⟩
  | succ level ih =>
    obtain ⟨rest, hrest⟩ := ih (hpop.2 _ hpop.1) fun j hj => h j (Nat.le_succ_of_le hj)
    rw [pathsFrom, slotList, h (level + 1) le_rfl, hrest, List.map_cons, List.cons_append]
    exact ⟨_, rfl⟩

/-- The path of a step is there. -/
theorem pathsFrom_advance_head (hpop : Populated count child level node)
    (halong : Along count child slots counts level node) (hstep : step ≤ level)
    (hmore : slots step + 1 < counts step) :
    ∃ rest, pathsFrom count child (advance slots step) level node =
      slotList (advance slots step) level :: rest := by
  induction level generalizing node with
  | zero =>
    obtain rfl : step = 0 := Nat.le_zero.mp hstep
    rw [halong.1] at hmore
    rw [pathsFrom, slotList, show advance slots 0 0 = slots 0 + 1 from rfl,
      show count node - (slots 0 + 1) = count node - (slots 0 + 1 + 1) + 1 by omega,
      List.range'_succ, List.map_cons]
    exact ⟨_, rfl⟩
  | succ level ih =>
    have hbelow : ∃ rest, pathsFrom count child (advance slots step) level
        (child node (advance slots step (level + 1))) =
          slotList (advance slots step) level :: rest := by
      rcases Nat.lt_or_eq_of_le hstep with hlt | rfl
      · have hslot : advance slots step (level + 1) = slots (level + 1) := by
          rw [advance, if_neg (by omega), if_neg (by omega)]
        rw [hslot]
        exact ih (hpop.2 _ halong.1.2) halong.2 (Nat.le_of_lt_succ hlt)
      · have hslot : advance slots (level + 1) (level + 1) = slots (level + 1) + 1 := by
          rw [advance, if_neg (lt_irrefl _), if_pos rfl]
        rw [halong.1.1] at hmore
        rw [hslot]
        exact pathsFrom_zero_head (hpop.2 _ hmore) fun j hj => if_pos (Nat.lt_succ_of_le hj)
    obtain ⟨rest, hrest⟩ := hbelow
    rw [pathsFrom, slotList, hrest, List.map_cons, List.cons_append]
    exact ⟨_, rfl⟩

end Liigboot
