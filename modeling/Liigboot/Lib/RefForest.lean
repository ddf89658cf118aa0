import Mathlib.Data.List.Count
import Mathlib.Logic.Function.Basic
import Mathlib.Tactic.Common

/-!
# Reference counts on a forest

Nodes are numbered in the order of their creation. A live node may have a parent,
which is older and which it holds; other holders are listed as references from the
outside. The forest is counted when the count of every live node is the number of its
holders and is not zero. Each operation on counted nodes has one rule here, and two
counted forests with the same outside references in which the old nodes differ by
deletions only are the same.
-/

namespace Liigboot

/-- The nodes below `n` whose parent is `x`. -/
def children (F : Nat → Option (Option Nat)) (n x : Nat) : Nat :=
  (List.range n).countP fun y => F y = some (some x)

/-- `F` gives each live node its parent, `c` its count; nodes from `n` on are unused, and
`refs` are the references from the outside. -/
structure Counted (F : Nat → Option (Option Nat)) (c : Nat → Int) (n : Nat) (refs : List Nat) :
    Prop where
  unused : ∀ x, n ≤ x → F x = none
  older : ∀ x p, F x = some (some p) → p < x ∧ F p ≠ none
  alive : ∀ x ∈ refs, F x ≠ none
  count : ∀ x, F x ≠ none → c x = refs.count x + children F n x
  held : ∀ x, F x ≠ none → 0 < c x

variable {F F' : Nat → Option (Option Nat)} {c c' : Nat → Int} {n n' x y p : Nat}
  {refs : List Nat} {v : Option (Option Nat)}

/-! ## Counting children -/

theorem children_pos : 0 < children F n x ↔ ∃ y < n, F y = some (some x) := by
  simp only [children, List.countP_pos_iff, List.mem_range, decide_eq_true_eq]

theorem children_succ : children F (n + 1) x =
    children F n x + if F n = some (some x) then 1 else 0 := by
  simp only [children, List.range_succ, List.countP_append, List.countP_singleton,
    decide_eq_true_eq]

theorem children_congr (h : ∀ y < n, F' y = F y) : children F' n x = children F n x := by
  apply List.countP_congr
  intro y hy
  rw [h y (List.mem_range.mp hy)]

/-- Unused nodes are nobody's children. -/
theorem children_extend (h : ∀ y, n ≤ y → F y = none) (hn : n ≤ n') :
    children F n' x = children F n x := by
  induction hn with
  | refl => rfl
  | @step k hk ih =>
    rw [children_succ, ih, h k hk, if_neg (by simp)]
    exact Nat.add_zero _

/-- Changing one node moves one child at most. -/
theorem children_update (hy : y < n) :
    children (Function.update F y v) n x + (if F y = some (some x) then 1 else 0) =
      children F n x + if v = some (some x) then 1 else 0 := by
  induction n with
  | zero => exact absurd hy (Nat.not_lt_zero y)
  | succ k ih =>
    rw [children_succ, children_succ]
    rcases Nat.lt_succ_iff_lt_or_eq.mp hy with hlt | rfl
    · have hk := ih hlt
      rw [Function.update_of_ne (Nat.ne_of_gt hlt)]
      omega
    · rw [Function.update_self, children_congr (F := F) fun z hz =>
        Function.update_of_ne (Nat.ne_of_lt hz) v F]
      omega

/-! ## The operations -/

namespace Counted

/-- The order of the references does not matter. -/
theorem perm {refs' : List Nat} (h : Counted F c n refs) (hp : refs.Perm refs') :
    Counted F c n refs' where
  unused := h.unused
  older := h.older
  alive x hx := h.alive x (hp.mem_iff.mpr hx)
  count x hx := by rw [h.count x hx, hp.count_eq]
  held := h.held

/-- The counts of dead nodes do not matter. -/
theorem recount (h : Counted F c n refs) (hc : ∀ x, F x ≠ none → c' x = c x) :
    Counted F c' n refs where
  unused := h.unused
  older := h.older
  alive := h.alive
  count x hx := (hc x hx).trans (h.count x hx)
  held x hx := (hc x hx).symm ▸ h.held x hx

theorem lt (h : Counted F c n refs) (hx : F x ≠ none) : x < n := by
  by_contra hle
  exact hx (h.unused x (Nat.le_of_not_lt hle))

/-- A live node is referenced from the outside or has a live child. -/
theorem holder (h : Counted F c n refs) (hx : F x ≠ none) :
    x ∈ refs ∨ ∃ y, F y = some (some x) := by
  have hpos := h.held x hx
  rw [h.count x hx] at hpos
  rcases Nat.eq_zero_or_pos (refs.count x) with hzero | hin
  · obtain ⟨y, -, hy⟩ := children_pos.mp (by omega : 0 < children F n x)
    exact Or.inr ⟨y, hy⟩
  · exact Or.inl (List.count_pos_iff.mp hin)

/-- A dead node has neither references nor children. -/
theorem dead (h : Counted F c n refs) (hx : F x = none) :
    refs.count x + children F n x = 0 := by
  have hrefs : refs.count x = 0 := List.count_eq_zero.mpr fun hin => h.alive x hin hx
  have hchildren : children F n x = 0 := by
    by_contra hne
    obtain ⟨y, -, hy⟩ := children_pos.mp (Nat.pos_of_ne_zero hne)
    exact (h.older y x hy).2 hx
  omega

/-- One more reference. -/
theorem get (h : Counted F c n refs) (hx : F x ≠ none) :
    Counted F (Function.update c x (c x + 1)) n (x :: refs) where
  unused := h.unused
  older := h.older
  alive y hy := by
    rcases List.mem_cons.mp hy with rfl | hy
    · exact hx
    · exact h.alive y hy
  count y hy := by
    have hcount := h.count y hy
    rw [List.count_cons]
    by_cases heq : x = y
    · subst heq
      rw [Function.update_self, if_pos (beq_self_eq_true x)]
      omega
    · rw [Function.update_of_ne (Ne.symm heq), if_neg (by simpa using heq)]
      omega
  held y hy := by
    have hheld := h.held y hy
    by_cases heq : x = y
    · subst heq
      rw [Function.update_self]
      omega
    · rwa [Function.update_of_ne (Ne.symm heq)]

/-- Giving back a reference that is not the last one. -/
theorem putKeep (h : Counted F c n (x :: refs)) (hx : c x ≠ 1) :
    Counted F (Function.update c x (c x - 1)) n refs where
  unused := h.unused
  older := h.older
  alive y hy := h.alive y (List.mem_cons_of_mem x hy)
  count y hy := by
    have hcount := h.count y hy
    rw [List.count_cons] at hcount
    by_cases heq : x = y
    · subst heq
      rw [if_pos (beq_self_eq_true x)] at hcount
      rw [Function.update_self]
      omega
    · rw [if_neg (by simpa using heq)] at hcount
      rw [Function.update_of_ne (Ne.symm heq)]
      omega
  held y hy := by
    have hheld := h.held y hy
    by_cases heq : x = y
    · subst heq
      rw [Function.update_self]
      omega
    · rwa [Function.update_of_ne (Ne.symm heq)]

/-- Giving back the last reference: the node goes, and what it held is given back next. -/
theorem putLast (h : Counted F c n (x :: refs)) (hx : c x = 1) :
    Counted (Function.update F x none) c n ((F x).join.toList ++ refs) := by
  have hlive : F x ≠ none := h.alive x List.mem_cons_self
  have hcount := h.count x hlive
  rw [hx, List.count_cons, if_pos (beq_self_eq_true x)] at hcount
  have hout : x ∉ refs := List.count_eq_zero.mp (by omega)
  have hleaf : ∀ y, F y ≠ some (some x) := by
    intro y hy
    have hpos := children_pos.mpr ⟨y, h.lt (by rw [hy]; simp), hy⟩
    omega
  have hne : ∀ {y}, Function.update F x none y ≠ none → y ≠ x ∧ F y ≠ none := by
    intro y hy
    by_cases heq : y = x
    · subst heq
      exact absurd (Function.update_self y none F) hy
    · rw [Function.update_of_ne heq] at hy
      exact ⟨heq, hy⟩
  have hkeep : ∀ {y}, y ≠ x → F y ≠ none → Function.update F x none y ≠ none := by
    intro y hyx hy
    rwa [Function.update_of_ne hyx]
  refine ⟨fun y hy => ?_, fun y p hy => ?_, fun y hy => ?_, fun y hy => ?_, fun y hy => ?_⟩
  · by_cases heq : y = x
    · rw [heq, Function.update_self]
    · rw [Function.update_of_ne heq]
      exact h.unused y hy
  · obtain ⟨hyx, -⟩ := hne (by rw [hy]; simp)
    rw [Function.update_of_ne hyx] at hy
    obtain ⟨hlt, hp⟩ := h.older y p hy
    exact ⟨hlt, hkeep (fun heq => hleaf y (heq ▸ hy)) hp⟩
  · rcases List.mem_append.mp hy with hy | hy
    · have hparent : F x = some (some y) := Option.join_eq_some_iff.mp (Option.mem_toList.mp hy)
      obtain ⟨hlt, hp⟩ := h.older x y hparent
      exact hkeep (Nat.ne_of_lt hlt) hp
    · exact hkeep (fun heq => hout (heq ▸ hy)) (h.alive y (List.mem_cons_of_mem x hy))
  · obtain ⟨hyx, hy⟩ := hne hy
    have hold := h.count y hy
    rw [List.count_cons, if_neg (by simpa using Ne.symm hyx)] at hold
    have hmove := children_update (F := F) (v := none) (x := y) (h.lt hlive)
    rw [if_neg (by simp : ¬ none = some (some y))] at hmove
    have hjoin : (F x).join.toList.count y = if F x = some (some y) then 1 else 0 := by
      rcases hF : F x with _ | _ | p
      · simp
      · simp
      · simp [List.count_singleton]
    rw [List.count_append, hjoin]
    omega
  · exact h.held y (hne hy).2

/-- A new node, without a parent and with one reference. -/
theorem alloc (h : Counted F c n refs) :
    Counted (Function.update F n (some none)) (Function.update c n 1) (n + 1) (n :: refs) := by
  have hdead : F n = none := h.unused n (Nat.le_refl n)
  have hchildren : ∀ y, children (Function.update F n (some none)) (n + 1) y = children F n y := by
    intro y
    rw [children_succ, Function.update_self, if_neg (by simp), Nat.add_zero]
    exact children_congr fun z hz => Function.update_of_ne (Nat.ne_of_lt hz) _ _
  have hkeep : ∀ {y}, F y ≠ none → Function.update F n (some none) y ≠ none := by
    intro y hy
    have hne : y ≠ n := fun heq => hy (by rw [heq]; exact hdead)
    rwa [Function.update_of_ne hne]
  refine ⟨fun y hy => ?_, fun y p hy => ?_, fun y hy => ?_, fun y hy => ?_, fun y hy => ?_⟩
  · rw [Function.update_of_ne (Nat.ne_of_gt hy)]
    exact h.unused y (Nat.le_of_succ_le hy)
  · by_cases heq : y = n
    · rw [heq, Function.update_self] at hy
      simp at hy
    · rw [Function.update_of_ne heq] at hy
      obtain ⟨hlt, hp⟩ := h.older y p hy
      exact ⟨hlt, hkeep hp⟩
  · rcases List.mem_cons.mp hy with rfl | hy
    · rw [Function.update_self]
      exact Option.some_ne_none none
    · exact hkeep (h.alive y hy)
  · rw [hchildren, List.count_cons]
    by_cases heq : y = n
    · subst heq
      have hzero := h.dead hdead
      rw [Function.update_self, if_pos (beq_self_eq_true y)]
      omega
    · rw [Function.update_of_ne heq] at hy
      have hcount := h.count y hy
      rw [Function.update_of_ne heq, if_neg (by simpa using Ne.symm heq)]
      omega
  · by_cases heq : y = n
    · rw [heq, Function.update_self]
      decide
    · rw [Function.update_of_ne heq] at hy ⊢
      exact h.held y hy

/-- A node without a parent gets one: a reference from the outside becomes the child's. -/
theorem adopt (h : Counted F c n (y :: p :: refs)) (hy : F y = some none) (hlt : p < y) :
    Counted (Function.update F y (some (some p))) c n (y :: refs) := by
  have hlive : F y ≠ none := by rw [hy]; exact Option.some_ne_none none
  have hsame : ∀ {z}, Function.update F y (some (some p)) z ≠ none ↔ F z ≠ none := by
    intro z
    by_cases heq : z = y
    · rw [heq, Function.update_self]
      exact iff_of_true (Option.some_ne_none _) hlive
    · rw [Function.update_of_ne heq]
  refine ⟨fun z hz => ?_, fun z q hz => ?_, fun z hz => ?_, fun z hz => ?_, fun z hz => ?_⟩
  · have hlt := h.lt hlive
    rw [Function.update_of_ne (by omega : z ≠ y)]
    exact h.unused z hz
  · by_cases heq : z = y
    · subst heq
      rw [Function.update_self] at hz
      obtain rfl := Option.some.inj (Option.some.inj hz)
      exact ⟨hlt, hsame.mpr (h.alive p (by simp))⟩
    · rw [Function.update_of_ne heq] at hz
      obtain ⟨hlt, hq⟩ := h.older z q hz
      exact ⟨hlt, hsame.mpr hq⟩
  · refine hsame.mpr (h.alive z ?_)
    rcases List.mem_cons.mp hz with rfl | hz
    · exact List.mem_cons_self
    · exact List.mem_cons_of_mem y (List.mem_cons_of_mem p hz)
  · have hcount := h.count z (hsame.mp hz)
    have hmove := children_update (F := F) (v := some (some p)) (x := z) (h.lt hlive)
    rw [hy, if_neg (by simp : ¬ some none = some (some z))] at hmove
    have hif : (if (p == z) = true then 1 else 0) =
        if (some (some p) : Option (Option Nat)) = some (some z) then 1 else 0 := by
      simp
    rw [List.count_cons, List.count_cons, hif] at hcount
    rw [List.count_cons]
    omega
  · exact h.held z (hsame.mp hz)

/-! ## Nothing changed -/

/-- Two counted forests with the same outside references, the second with no more of the old
nodes than the first, have the same nodes: a node goes only with its last holder. -/
theorem same_nodes (h : Counted F c n refs) (h' : Counted F' c' n' refs)
    (hold : ∀ x < n, F' x = none ∨ F' x = F x) : F' = F := by
  -- from the youngest node down, since holders are children or outside
  have hnew : ∀ k x, n' - x ≤ k → n ≤ x → F' x = none := by
    intro k
    induction k with
    | zero =>
      intro x hk _
      exact h'.unused x (by omega)
    | succ k ih =>
      intro x hk hx
      by_contra hne
      rcases h'.holder hne with hin | ⟨y, hy⟩
      · exact h.alive x hin (h.unused x hx)
      · have hxy := (h'.older y x hy).1
        have hyn := h'.lt (x := y) (by rw [hy]; simp)
        rw [ih y (by omega) (by omega)] at hy
        cases hy
  have hkept : ∀ k x, n - x ≤ k → F x ≠ none → F' x ≠ none := by
    intro k
    induction k with
    | zero =>
      intro x hk hx
      have hlt := h.lt hx
      omega
    | succ k ih =>
      intro x hk hx
      rcases h.holder hx with hin | ⟨y, hy⟩
      · exact h'.alive x hin
      · have hxy := (h.older y x hy).1
        have hlive : F y ≠ none := by rw [hy]; simp
        have hyn := h.lt hlive
        have heq := (hold y hyn).resolve_left (ih y (by omega) hlive)
        exact (h'.older y x (heq.trans hy)).2
  funext x
  by_cases hlt : x < n
  · rcases hold x hlt with hnone | heq
    · by_contra hne
      exact hkept _ x (Nat.le_refl _) (fun hx => hne (hnone.trans hx.symm)) hnone
    · exact heq
  · rw [hnew _ x (Nat.le_refl _) (Nat.le_of_not_lt hlt), h.unused x (Nat.le_of_not_lt hlt)]

/-- With the same nodes and references the counts are the same. -/
theorem same_count (h : Counted F c n refs) (h' : Counted F c' n' refs) (hx : F x ≠ none) :
    c' x = c x := by
  have hextend : children F n' x = children F n x := by
    rcases Nat.le_total n n' with hle | hle
    · exact children_extend h.unused hle
    · exact (children_extend h'.unused hle).symm
  rw [h.count x hx, h'.count x hx, hextend]

end Counted

end Liigboot
