import Mathlib.Data.List.Nodup
import Mathlib.Logic.Function.Basic
import Mathlib.Tactic.Common

/-!
# Doubly linked circular lists

Two functions `next` and `prev` on nodes are the links of a memory. A segment is a
path from one node to another, with the nodes between them listed and every link
matched by the link back; a ring is a segment from a head back to itself whose
nodes are distinct. Unlinking, linking and replacing a node change the links of its
two neighbours only, and each has one rule here.
-/

namespace Liigboot

variable {α : Type*} {next prev next' prev' : α → α}

/-! ## Segments -/

/-- `xs` are the nodes between `a` and `b`, linked both ways. -/
def Seg (next prev : α → α) : α → List α → α → Prop
  | a, [], b => next a = b ∧ prev b = a
  | a, x :: xs, b => next a = x ∧ prev x = a ∧ Seg next prev x xs b

@[simp] theorem seg_nil {a b : α} : Seg next prev a [] b ↔ next a = b ∧ prev b = a := Iff.rfl

/-- A segment is its first link and the segment from there on. -/
@[simp] theorem seg_cons {a x b : α} {xs : List α} :
    Seg next prev a (x :: xs) b ↔ next a = x ∧ prev x = a ∧ Seg next prev x xs b := Iff.rfl

/-- A segment through `y` is two segments that meet there. -/
theorem seg_append {a y b : α} {xs ys : List α} :
    Seg next prev a (xs ++ y :: ys) b ↔ Seg next prev a xs y ∧ Seg next prev y ys b := by
  induction xs generalizing a with
  | nil => simp only [List.nil_append, seg_cons, seg_nil, and_assoc]
  | cons x xs ih => simp only [List.cons_append, seg_cons, ih, and_assoc]

/-- The first end points at the first element, or at the other end if there is none. -/
theorem Seg.next_eq {a b : α} {xs : List α} (h : Seg next prev a xs b) :
    next a = xs.headD b := by
  cases xs with
  | nil => exact h.1
  | cons x xs => exact h.1

/-- What the far end points back at is the near end or an element. -/
theorem Seg.prev_mem {a b : α} {xs : List α} (h : Seg next prev a xs b) : prev b ∈ a :: xs := by
  induction xs generalizing a with
  | nil =>
    rw [h.2]
    exact List.mem_cons_self
  | cons x xs ih => exact List.mem_cons_of_mem a (ih h.2.2)

/-- What the near end points at is an element or the far end. -/
theorem Seg.next_mem_append {a b : α} {xs : List α} (h : Seg next prev a xs b) :
    next a ∈ xs ++ [b] := by
  rw [h.next_eq]
  cases xs with
  | nil => exact List.mem_singleton_self b
  | cons x xs => exact List.mem_cons_self

/-- A segment reads `next` at its nodes but the last and `prev` at its nodes but the first. -/
theorem Seg.congr {a b : α} {xs : List α} (h : Seg next prev a xs b)
    (hn : ∀ z ∈ a :: xs, next' z = next z) (hp : ∀ z ∈ xs ++ [b], prev' z = prev z) :
    Seg next' prev' a xs b := by
  induction xs generalizing a with
  | nil => exact ⟨(hn a List.mem_cons_self).trans h.1,
      (hp b (List.mem_singleton_self b)).trans h.2⟩
  | cons x xs ih =>
    obtain ⟨h1, h2, h3⟩ := h
    refine ⟨(hn a List.mem_cons_self).trans h1, (hp x List.mem_cons_self).trans h2, ?_⟩
    exact ih h3 (fun z hz => hn z (List.mem_cons_of_mem a hz))
      fun z hz => hp z (List.mem_cons_of_mem x hz)

/-- Lead the last link of a segment to another node. -/
theorem Seg.retarget {a b c : α} {xs : List α} (h : Seg next prev a xs b)
    (hnd : (a :: xs).Nodup) (hlast : next' (prev b) = c) (hback : prev' c = prev b)
    (hn : ∀ z ∈ a :: xs, z ≠ prev b → next' z = next z) (hp : ∀ z ∈ xs, prev' z = prev z) :
    Seg next' prev' a xs c := by
  induction xs generalizing a with
  | nil =>
    rw [h.2] at hlast hback
    exact ⟨hlast, hback⟩
  | cons x xs ih =>
    obtain ⟨h1, h2, h3⟩ := h
    obtain ⟨hout, hnd⟩ := List.nodup_cons.mp hnd
    have hne : a ≠ prev b := fun heq => hout (heq ▸ h3.prev_mem)
    refine ⟨(hn a List.mem_cons_self hne).trans h1, (hp x List.mem_cons_self).trans h2, ?_⟩
    exact ih h3 hnd (fun z hz => hn z (List.mem_cons_of_mem a hz))
      fun z hz => hp z (List.mem_cons_of_mem x hz)

/-- Start a segment at another node. -/
theorem Seg.restart {a b c : α} {xs : List α} (h : Seg next prev a xs b)
    (hnd : (xs ++ [b]).Nodup) (hfirst : next' c = next a) (hback : prev' (next a) = c)
    (hn : ∀ z ∈ xs, next' z = next z) (hp : ∀ z ∈ xs ++ [b], z ≠ next a → prev' z = prev z) :
    Seg next' prev' c xs b := by
  cases xs with
  | nil =>
    rw [h.1] at hfirst hback
    exact ⟨hfirst, hback⟩
  | cons x xs =>
    obtain ⟨h1, -, h3⟩ := h
    rw [h1] at hfirst hback
    obtain ⟨hout, -⟩ := List.nodup_cons.mp (List.cons_append ▸ hnd)
    refine ⟨hfirst, hback, h3.congr hn fun z hz => ?_⟩
    exact hp z (List.mem_cons_of_mem x hz) fun heq => hout (h1 ▸ heq ▸ hz)

/-- Lead a segment past the node `y` in it. -/
theorem Seg.bypass {a y b : α} {xs ys : List α} (h1 : Seg next prev a xs y)
    (h2 : Seg next prev y ys b) (hnd : (a :: xs ++ ys).Nodup) (hndb : (xs ++ ys ++ [b]).Nodup)
    (hnext : next' (prev y) = next y) (hprev : prev' (next y) = prev y)
    (hn : ∀ z ∈ a :: xs ++ ys, z ≠ prev y → next' z = next z)
    (hp : ∀ z ∈ xs ++ ys ++ [b], z ≠ next y → prev' z = prev z) :
    Seg next' prev' a (xs ++ ys) b := by
  induction xs generalizing a with
  | nil =>
    obtain ⟨-, hy⟩ := h1
    rw [hy] at hnext hprev hn
    obtain ⟨hout, -⟩ := List.nodup_cons.mp hnd
    refine h2.restart hndb hnext hprev (fun z hz => ?_) hp
    exact hn z (List.mem_cons_of_mem a hz) fun heq => hout (heq ▸ hz)
  | cons x xs ih =>
    obtain ⟨h11, h12, h13⟩ := h1
    obtain ⟨hout, hnd⟩ := List.nodup_cons.mp hnd
    obtain ⟨hxout, hndb⟩ := List.nodup_cons.mp hndb
    have hne : a ≠ prev y := fun heq => hout (List.mem_append_left ys (heq ▸ h13.prev_mem))
    have hxne : x ≠ next y := by
      intro heq
      apply hxout
      rcases List.mem_append.mp h2.next_mem_append with hmem | hmem
      · exact List.mem_append_left [b] (List.mem_append_right xs (heq ▸ hmem))
      · exact List.mem_append_right (xs ++ ys) (heq ▸ hmem)
    refine ⟨(hn a List.mem_cons_self hne).trans h11, (hp x List.mem_cons_self hxne).trans h12, ?_⟩
    exact ih h13 hnd hndb (fun z hz => hn z (List.mem_cons_of_mem a hz))
      fun z hz => hp z (List.mem_cons_of_mem x hz)

/-- A segment read against its direction. -/
theorem Seg.reverse {a b : α} {xs : List α} (h : Seg next prev a xs b) :
    Seg prev next b xs.reverse a := by
  induction xs generalizing a with
  | nil => exact ⟨h.2, h.1⟩
  | cons x xs ih =>
    obtain ⟨h1, h2, h3⟩ := h
    rw [List.reverse_cons]
    exact seg_append.mpr ⟨ih h3, h2, h1⟩

/-! ## Rings -/

/-- `xs` are the nodes of a ring with head `h`, in the order of `next`. -/
structure Ring (next prev : α → α) (h : α) (xs : List α) : Prop where
  seg : Seg next prev h xs h
  nodup : (h :: xs).Nodup

variable {h y : α} {xs ys : List α}

/-- The nodes of a ring with the head behind them are distinct, too. -/
private theorem nodup_snoc (hnd : (h :: xs).Nodup) : (xs ++ [h]).Nodup := by
  rw [← List.singleton_append] at hnd
  exact List.nodup_append_comm.mp hnd

private theorem mem_of_mem_snoc {z : α} (hz : z ∈ xs ++ [h]) : z ∈ h :: xs := by
  rcases List.mem_append.mp hz with hz | hz
  · exact List.mem_cons_of_mem h hz
  · rw [List.mem_singleton.mp hz]
    exact List.mem_cons_self

/-- The head is not an element of its own ring. -/
theorem Ring.head_notMem (hr : Ring next prev h xs) : h ∉ xs := (List.nodup_cons.mp hr.nodup).1

theorem ring_nil : Ring next prev h [] ↔ next h = h ∧ prev h = h :=
  ⟨fun hr => hr.seg, fun hs => ⟨hs, List.nodup_singleton h⟩⟩

/-- A ring only depends on the pointers of its head and its elements. -/
theorem Ring.congr (hr : Ring next prev h xs) (hn : ∀ z ∈ h :: xs, next' z = next z)
    (hp : ∀ z ∈ h :: xs, prev' z = prev z) : Ring next' prev' h xs :=
  ⟨hr.seg.congr hn fun z hz => hp z (mem_of_mem_snoc hz), hr.nodup⟩

/-- A ring read against its direction. -/
theorem Ring.reverse (hr : Ring next prev h xs) : Ring prev next h xs.reverse :=
  ⟨hr.seg.reverse, ((List.reverse_perm xs).cons h).nodup_iff.mpr hr.nodup⟩

/-- An element cuts the ring into the segment in front of it and the one behind it. -/
theorem Ring.split (hr : Ring next prev h (xs ++ y :: ys)) :
    Seg next prev h xs y ∧ Seg next prev y ys h := seg_append.mp hr.seg

/-- The nodes around a node of a ring. -/
theorem Ring.neighbours (hr : Ring next prev h (xs ++ y :: ys)) :
    prev y ∈ h :: xs ∧ next y ∈ h :: ys :=
  ⟨hr.split.1.prev_mem, mem_of_mem_snoc hr.split.2.next_mem_append⟩

/-- Two nodes that follow each other link to each other. -/
theorem Ring.adjacent {x : α} (hr : Ring next prev h (xs ++ x :: y :: ys)) :
    next x = y ∧ prev y = x := ⟨hr.split.2.1, hr.split.2.2.1⟩

/-- What the head points at is the head or an element. -/
theorem Ring.next_head_mem (hr : Ring next prev h xs) : next h ∈ h :: xs :=
  mem_of_mem_snoc hr.seg.next_mem_append

/-- The first element points back at the head. -/
theorem Ring.prev_first (hr : Ring next prev h (y :: ys)) : prev y = h := hr.seg.2.1

/-- The node behind `y`, which is the head when `y` is the last one. -/
theorem Ring.next_eq (hr : Ring next prev h (xs ++ y :: ys)) : next y = ys.headD h :=
  hr.split.2.next_eq

/-- Both neighbours of an element lie in the ring. -/
theorem Ring.neighbours_mem (hr : Ring next prev h (xs ++ y :: ys)) :
    prev y ∈ h :: (xs ++ y :: ys) ∧ next y ∈ h :: (xs ++ y :: ys) := by
  obtain ⟨hp, hn⟩ := hr.neighbours
  refine ⟨List.cons_subset_cons h (List.subset_append_left xs _) hp, ?_⟩
  rcases List.mem_cons.mp hn with heq | hn
  · rw [heq]
    exact List.mem_cons_self
  · exact List.mem_cons_of_mem h (List.mem_append_right xs (List.mem_cons_of_mem y hn))

/-- The links of a ring stay in it. -/
theorem Ring.next_mem {z : α} (hr : Ring next prev h xs) (hz : z ∈ h :: xs) :
    next z ∈ h :: xs := by
  rcases List.mem_cons.mp hz with rfl | hz
  · exact hr.next_head_mem
  · obtain ⟨ys, zs, rfl⟩ := List.append_of_mem hz
    exact hr.neighbours_mem.2

/-- A node of a ring splits the others into those in front of it and those behind it. -/
private theorem Ring.nodup_parts (hr : Ring next prev h (xs ++ y :: ys)) :
    (h :: xs).Nodup ∧ (h :: ys).Nodup ∧ (∀ z ∈ xs, z ∉ y :: ys) ∧ y ∉ h :: ys := by
  obtain ⟨hout, hnd⟩ := List.nodup_cons.mp hr.nodup
  obtain ⟨hxs, hys, hdisj⟩ := List.nodup_append.mp hnd
  obtain ⟨hy, hys⟩ := List.nodup_cons.mp hys
  rw [List.mem_append, List.mem_cons, not_or, not_or] at hout
  refine ⟨List.nodup_cons.mpr ⟨hout.1, hxs⟩, List.nodup_cons.mpr ⟨hout.2.2, hys⟩, ?_, ?_⟩
  · exact fun z hz hz' => hdisj z hz z hz' rfl
  · rw [List.mem_cons, not_or]
    exact ⟨fun heq => hout.2.1 heq.symm, hy⟩

/-- A node of a ring with a head is not its own neighbour. -/
theorem Ring.neighbours_ne (hr : Ring next prev h (xs ++ y :: ys)) : prev y ≠ y ∧ next y ≠ y := by
  obtain ⟨hp, hn⟩ := hr.neighbours
  obtain ⟨-, -, hdisj, hout⟩ := hr.nodup_parts
  constructor
  · intro heq
    rw [heq] at hp
    rcases List.mem_cons.mp hp with rfl | hp
    · exact hout List.mem_cons_self
    · exact hdisj y hp List.mem_cons_self
  · intro heq
    rw [heq] at hn
    exact hout hn

/-- An element occurs in its ring only once. -/
theorem Ring.notMem_others (hr : Ring next prev h (xs ++ y :: ys)) : y ∉ h :: (xs ++ ys) := by
  obtain ⟨-, -, hdisj, hout⟩ := hr.nodup_parts
  intro hmem
  rcases List.mem_cons.mp hmem with rfl | hmem
  · exact hout List.mem_cons_self
  · rcases List.mem_append.mp hmem with hmem | hmem
    · exact hdisj y hmem List.mem_cons_self
    · exact hout (List.mem_cons_of_mem h hmem)

/-- Unlinking `y` joins its neighbours. -/
theorem Ring.unlink (hr : Ring next prev h (xs ++ y :: ys))
    (hnext : next' (prev y) = next y) (hprev : prev' (next y) = prev y)
    (hn : ∀ z ∈ h :: (xs ++ ys), z ≠ prev y → next' z = next z)
    (hp : ∀ z ∈ h :: (xs ++ ys), z ≠ next y → prev' z = prev z) :
    Ring next' prev' h (xs ++ ys) := by
  have hsub : (h :: (xs ++ ys)).Sublist (h :: (xs ++ y :: ys)) :=
    ((List.sublist_cons_self y ys).append_left xs).cons_cons h
  have hnd := hr.nodup.sublist hsub
  refine ⟨?_, hnd⟩
  exact hr.split.1.bypass hr.split.2 hnd (nodup_snoc hnd) hnext hprev hn
    fun z hz => hp z (mem_of_mem_snoc hz)

/-- Linking a new node `y` in behind the head. -/
theorem Ring.linkHead (hr : Ring next prev h ys) (hy : y ∉ h :: ys)
    (hhead : next' h = y) (hback : prev' y = h) (hnext : next' y = next h)
    (hprev : prev' (next h) = y) (hn : ∀ z ∈ ys, next' z = next z)
    (hp : ∀ z ∈ h :: ys, z ≠ next h → prev' z = prev z) : Ring next' prev' h (y :: ys) := by
  refine ⟨⟨hhead, hback, ?_⟩, ?_⟩
  · exact hr.seg.restart (nodup_snoc hr.nodup) hnext hprev hn
      fun z hz => hp z (mem_of_mem_snoc hz)
  · exact (List.Perm.swap h y ys).nodup_iff.mp (List.nodup_cons.mpr ⟨hy, hr.nodup⟩)

/-- Linking a new node `y` in behind a node `x` of the ring. -/
theorem Ring.linkAfter {x : α} (hr : Ring next prev h (xs ++ x :: ys))
    (hy : y ∉ h :: (xs ++ x :: ys)) (hx : next' x = y) (hback : prev' y = x)
    (hnext : next' y = next x) (hprev : prev' (next x) = y)
    (hn : ∀ z ∈ h :: (xs ++ ys), next' z = next z)
    (hp : ∀ z ∈ h :: (xs ++ x :: ys), z ≠ next x → prev' z = prev z) :
    Ring next' prev' h (xs ++ x :: y :: ys) := by
  obtain ⟨h1, h2⟩ := hr.split
  obtain ⟨-, hndys, hdisj, hxout⟩ := hr.nodup_parts
  have hfront : Seg next' prev' h xs x := by
    refine h1.congr (fun z hz => hn z ?_) fun z hz => hp z ?_ ?_
    · exact List.cons_subset_cons h (List.subset_append_left xs ys) hz
    · exact List.mem_cons_of_mem h (by
        rw [← List.singleton_append, ← List.append_assoc]
        exact List.mem_append_left ys hz)
    · rintro rfl
      have hmem := mem_of_mem_snoc h2.next_mem_append
      rcases List.mem_append.mp hz with hz | hz
      · rcases List.mem_cons.mp hmem with heq | hmem
        · exact hr.head_notMem (List.mem_append_left _ (heq ▸ hz))
        · exact hdisj _ hz (List.mem_cons_of_mem x hmem)
      · exact hxout (List.mem_singleton.mp hz ▸ hmem)
  have hback' : Seg next' prev' y ys h := by
    refine h2.restart (nodup_snoc hndys) hnext hprev (fun z hz => hn z ?_) fun z hz => hp z ?_
    · exact List.mem_cons_of_mem h (List.mem_append_right xs hz)
    · rcases List.mem_cons.mp (mem_of_mem_snoc hz) with rfl | hz
      · exact List.mem_cons_self
      · exact List.mem_cons_of_mem h (List.mem_append_right xs (List.mem_cons_of_mem x hz))
  refine ⟨seg_append.mpr ⟨hfront, hx, hback, hback'⟩, ?_⟩
  have hperm : (h :: (xs ++ x :: y :: ys)).Perm (y :: h :: (xs ++ x :: ys)) :=
    (((List.Perm.swap y x ys).append_left xs).cons h).trans
      (@List.perm_middle _ y (h :: xs) (x :: ys))
  exact hperm.nodup_iff.mpr (List.nodup_cons.mpr ⟨hy, hr.nodup⟩)

/-- Putting a new node `y` in the place of a node `x` of the ring. -/
theorem Ring.replace {x : α} (hr : Ring next prev h (xs ++ x :: ys))
    (hy : y ∉ h :: (xs ++ x :: ys)) (hnext : next' y = next x) (hprev : prev' y = prev x)
    (hback : prev' (next x) = y) (hfwd : next' (prev x) = y)
    (hn : ∀ z ∈ h :: (xs ++ ys), z ≠ prev x → next' z = next z)
    (hp : ∀ z ∈ h :: (xs ++ ys), z ≠ next x → prev' z = prev z) :
    Ring next' prev' h (xs ++ y :: ys) := by
  obtain ⟨h1, h2⟩ := hr.split
  obtain ⟨hndxs, hndys, hdisj, hxout⟩ := hr.nodup_parts
  have hfront : Seg next' prev' h xs y := by
    refine h1.retarget hndxs hfwd hprev (fun z hz => hn z ?_) fun z hz => hp z ?_ ?_
    · exact List.cons_subset_cons h (List.subset_append_left xs ys) hz
    · exact List.mem_cons_of_mem h (List.mem_append_left ys hz)
    · rintro rfl
      rcases List.mem_cons.mp (mem_of_mem_snoc h2.next_mem_append) with heq | hmem
      · exact hr.head_notMem (List.mem_append_left _ (heq ▸ hz))
      · exact hdisj _ hz (List.mem_cons_of_mem x hmem)
  have hback' : Seg next' prev' y ys h := by
    refine h2.restart (nodup_snoc hndys) hnext hback (fun z hz => hn z ?_ ?_) fun z hz => hp z ?_
    · exact List.mem_cons_of_mem h (List.mem_append_right xs hz)
    · rintro rfl
      rcases List.mem_cons.mp h1.prev_mem with heq | hmem
      · exact hr.head_notMem (List.mem_append_right xs (List.mem_cons_of_mem x (heq ▸ hz)))
      · exact hdisj _ hmem (List.mem_cons_of_mem x hz)
    · rcases List.mem_cons.mp (mem_of_mem_snoc hz) with rfl | hz
      · exact List.mem_cons_self
      · exact List.mem_cons_of_mem h (List.mem_append_right xs hz)
  refine ⟨seg_append.mpr ⟨hfront, hback'⟩, ?_⟩
  have hsub : (h :: (xs ++ ys)).Sublist (h :: (xs ++ x :: ys)) :=
    ((List.sublist_cons_self x ys).append_left xs).cons_cons h
  have hperm : (h :: (xs ++ y :: ys)).Perm (y :: h :: (xs ++ ys)) :=
    @List.perm_middle _ y (h :: xs) ys
  exact hperm.nodup_iff.mpr (List.nodup_cons.mpr ⟨fun hmem => hy (hsub.subset hmem),
    hr.nodup.sublist hsub⟩)

/-! ## Assignments

The rules above for the links after the usual sequences of assignments. -/

section Assignments

variable [DecidableEq α]

open Function

/-- `next[prev[y]] = next[y]; prev[next[y]] = prev[y]` -/
theorem Ring.assign_unlink (hr : Ring next prev h (xs ++ y :: ys)) :
    Ring (update next (prev y) (next y)) (update prev (next y) (prev y)) h (xs ++ ys) :=
  hr.unlink (update_self _ _ _) (update_self _ _ _) (fun _ _ hne => update_of_ne hne _ _)
    fun _ _ hne => update_of_ne hne _ _

/-- `next[y] = next[h]; prev[y] = h; next[h] = y; prev[next[y]] = y` -/
theorem Ring.assign_linkHead (hr : Ring next prev h ys) (hy : y ∉ h :: ys) :
    Ring (update (update next y (next h)) h y) (update (update prev y h) (next h) y) h
      (y :: ys) := by
  have hne : ∀ z ∈ h :: ys, z ≠ y := fun z hz heq => hy (heq ▸ hz)
  have hhead := hne h List.mem_cons_self
  have hfirst := hne _ (mem_of_mem_snoc hr.seg.next_mem_append)
  refine hr.linkHead hy (update_self _ _ _) ?_ ?_ (update_self _ _ _) (fun z hz => ?_)
    fun z hz hzn => ?_
  · rw [update_of_ne hfirst.symm, update_self]
  · rw [update_of_ne hhead.symm, update_self]
  · have hzh : z ≠ h := fun heq => hr.head_notMem (heq ▸ hz)
    rw [update_of_ne hzh, update_of_ne (hne z (List.mem_cons_of_mem h hz))]
  · rw [update_of_ne hzn, update_of_ne (hne z hz)]

/-- `prev[y] = prev[h]; next[prev[y]] = y; next[y] = h; prev[h] = y` -/
theorem Ring.assign_linkTail (hr : Ring next prev h xs) (hy : y ∉ h :: xs) :
    Ring (update (update next (prev h) y) y h) (update (update prev y (prev h)) h y) h
      (xs ++ [y]) := by
  have hne : prev h ≠ y := fun heq => hy (heq ▸ hr.seg.prev_mem)
  have hy' : y ∉ h :: xs.reverse := fun hmem =>
    hy (((List.reverse_perm xs).cons h).mem_iff.mp hmem)
  have hlink := (hr.reverse.assign_linkHead hy').reverse
  rwa [List.reverse_cons, List.reverse_reverse, update_comm hne.symm] at hlink

/-- `next[y] = next[x]; prev[y] = x; prev[next[x]] = y; next[x] = y` -/
theorem Ring.assign_linkAfter {x : α} (hr : Ring next prev h (xs ++ x :: ys))
    (hy : y ∉ h :: (xs ++ x :: ys)) :
    Ring (update (update next y (next x)) x y) (update (update prev y x) (next x) y) h
      (xs ++ x :: y :: ys) := by
  have hne : ∀ z ∈ h :: (xs ++ x :: ys), z ≠ y := fun z hz heq => hy (heq ▸ hz)
  have hothers : ∀ z ∈ h :: (xs ++ ys), z ∈ h :: (xs ++ x :: ys) :=
    fun z hz => List.cons_subset_cons h ((List.sublist_cons_self x ys).append_left xs).subset hz
  have hxy := hne x (List.mem_cons_of_mem h (List.mem_append_right xs List.mem_cons_self))
  have hnxy : next x ≠ y := hne _ hr.neighbours_mem.2
  refine hr.linkAfter hy (update_self _ _ _) ?_ ?_ (update_self _ _ _) (fun z hz => ?_)
    fun z hz hzn => ?_
  · rw [update_of_ne hnxy.symm, update_self]
  · rw [update_of_ne hxy.symm, update_self]
  · have hzx : z ≠ x := fun heq => hr.notMem_others (heq ▸ hz)
    rw [update_of_ne hzx, update_of_ne (hne z (hothers z hz))]
  · rw [update_of_ne hzn, update_of_ne (hne z hz)]

/-- `next[y] = next[x]; prev[y] = prev[x]; prev[next[x]] = y; next[prev[x]] = y` -/
theorem Ring.assign_replace {x : α} (hr : Ring next prev h (xs ++ x :: ys))
    (hy : y ∉ h :: (xs ++ x :: ys)) :
    Ring (update (update next y (next x)) (prev x) y) (update (update prev y (prev x)) (next x) y)
      h (xs ++ y :: ys) := by
  have hne : ∀ z ∈ h :: (xs ++ x :: ys), z ≠ y := fun z hz heq => hy (heq ▸ hz)
  have hothers : ∀ z ∈ h :: (xs ++ ys), z ∈ h :: (xs ++ x :: ys) :=
    fun z hz => List.cons_subset_cons h ((List.sublist_cons_self x ys).append_left xs).subset hz
  obtain ⟨hp, hn⟩ := hr.neighbours_mem
  have hpy : prev x ≠ y := hne _ hp
  have hny : next x ≠ y := hne _ hn
  refine hr.replace hy ?_ ?_ (update_self _ _ _) (update_self _ _ _) (fun z hz hzp => ?_)
    fun z hz hzn => ?_
  · rw [update_of_ne hpy.symm, update_self]
  · rw [update_of_ne hny.symm, update_self]
  · rw [update_of_ne hzp, update_of_ne (hne z (hothers z hz))]
  · rw [update_of_ne hzn, update_of_ne (hne z (hothers z hz))]

end Assignments

end Liigboot
