import Liigboot.Lib.RefForest

/-!
# Inodes and their reference counts

`alloc_inode`, `get_inode` and `put_inode`. An inode is named by a number where the
source has its address; numbers are given in the order of allocation and are not
used again. An operation on an inode that has been freed has no result.
-/

namespace Liigboot.Vfs

/-- The type codes of `dirent.h` that the path search looks at. -/
def dtDir : Int := 4

@[inherit_doc dtDir] def dtReg : Int := 8

@[inherit_doc dtDir] def dtLnk : Int := 10

/-- What a file system driver fills in when it makes an inode. -/
structure Attrs where
  mode : Int
  size : UInt32
  ino : UInt32
  deriving DecidableEq, Repr

structure Inode where
  parent : Option Nat
  /-- `none` where the source has a null pointer: no name, or no memory to keep it in. -/
  name : Option (List UInt8)
  refcnt : Int
  attrs : Attrs
  deriving DecidableEq, Repr

/-- An inode but for its count. -/
def Inode.body (i : Inode) : Inode := { i with refcnt := 0 }

/-- An inode is its body and its count. -/
theorem Inode.body_refcnt (i : Inode) : { i.body with refcnt := i.refcnt } = i := rfl

/-- The inodes in memory; `none` is an inode that has been freed or was never made. -/
structure Inodes where
  node : Nat → Option Inode
  nextId : Nat

namespace Inodes

def set (s : Inodes) (x : Nat) (i : Option Inode) : Inodes :=
  { s with node := Function.update s.node x i }

/-- `zalloc` clears the inode, so it has neither a parent nor a name. -/
def allocInode (s : Inodes) (attrs : Attrs) : Inodes :=
  ⟨Function.update s.node s.nextId (some ⟨none, none, 1, attrs⟩), s.nextId + 1⟩

def getInode (s : Inodes) (x : Nat) : Option Inodes :=
  (s.node x).map fun i => s.set x (some { i with refcnt := i.refcnt + 1 })

/-- The loop of `put_inode`, a round for each inode that is freed. -/
def putFrom : Nat → Inodes → Option Nat → Option Inodes
  | _, s, none => some s
  | 0, _, some _ => none
  | rounds + 1, s, some x =>
    (s.node x).bind fun i =>
      if i.refcnt - 1 = 0 then putFrom rounds (s.set x none) i.parent
      else some (s.set x (some { i with refcnt := i.refcnt - 1 }))

/-- No chain of parents is longer than the number of inodes that were ever made. -/
def putInode (s : Inodes) (x : Nat) : Option Inodes :=
  putFrom s.nextId s (some x)

/-- `inode->parent = parent; inode->name = name`. -/
def attach (s : Inodes) (x parent : Nat) (name : Option (List UInt8)) : Option Inodes :=
  (s.node x).map fun i => s.set x (some { i with parent := some parent, name := name })

/-! ## The forest of the inodes -/

/-- The parents of the live inodes. -/
def shape (s : Inodes) (x : Nat) : Option (Option Nat) := (s.node x).map Inode.parent

def refcnt (s : Inodes) (x : Nat) : Int := ((s.node x).map Inode.refcnt).getD 0

/-- Every count is the number of holders, with `refs` for those that are not inodes. -/
def Held (s : Inodes) (refs : List Nat) : Prop := Counted s.shape s.refcnt s.nextId refs

/-- Inodes are made and freed, and of the first `n` those that are left differ in the count
only. -/
structure Keeps (n : Nat) (s s' : Inodes) : Prop where
  grows : s.nextId ≤ s'.nextId
  old : ∀ x < n, s'.node x = none ∨ (s'.node x).map Inode.body = (s.node x).map Inode.body

variable {s s' s'' : Inodes} {n x y p : Nat} {i : Inode} {o : Option Inode} {refs : List Nat}

/-- Changing an inode makes no new one. -/
@[simp] theorem nextId_set : (s.set x o).nextId = s.nextId := rfl

@[simp] theorem node_set_self : (s.set x o).node x = o := by
  simp only [set, Function.update_self]

/-- The inodes that are not. -/
theorem node_set_ne (h : y ≠ x) : (s.set x o).node y = s.node y := by
  simp only [set, Function.update_of_ne h]

/-- An inode has a shape as long as it is in memory. -/
theorem shape_ne_none : s.shape x ≠ none ↔ s.node x ≠ none := by
  simp only [shape, ne_eq, Option.map_eq_none_iff]

/-- The shape of an inode is its parent. -/
theorem shape_eq (h : s.node x = some i) : s.shape x = some i.parent := by
  rw [shape, h, Option.map_some]

/-- The count of an inode in memory. -/
theorem refcnt_eq (h : s.node x = some i) : s.refcnt x = i.refcnt := by
  rw [refcnt, h, Option.map_some, Option.getD_some]

/-- The shape of the changed inode is that of its new value. -/
theorem shape_set : (s.set x o).shape = Function.update s.shape x (o.map Inode.parent) := by
  funext y
  by_cases heq : y = x
  · subst heq
    rw [shape, node_set_self, Function.update_self]
  · rw [shape, node_set_ne heq, Function.update_of_ne heq, shape]

/-- The count of the changed inode is that of its new value. -/
theorem refcnt_set :
    (s.set x o).refcnt = Function.update s.refcnt x ((o.map Inode.refcnt).getD 0) := by
  funext y
  by_cases heq : y = x
  · subst heq
    rw [refcnt, node_set_self, Function.update_self]
  · rw [refcnt, node_set_ne heq, Function.update_of_ne heq, refcnt]

/-- A change of the count leaves the shape. -/
theorem shape_set_refcnt {k : Int} (hi : s.node x = some i) :
    (s.set x (some { i with refcnt := k })).shape = s.shape := by
  rw [shape_set, Option.map_some, ← shape_eq hi, Function.update_eq_self]

/-- An inode with a holder is in memory. -/
theorem Held.node (h : s.Held refs) (hx : x ∈ refs) : ∃ i, s.node x = some i :=
  Option.ne_none_iff_exists'.mp (shape_ne_none.mp (h.alive x hx))

/-- An inode with a holder was made. -/
theorem Held.lt (h : s.Held refs) (hx : x ∈ refs) : x < s.nextId :=
  Counted.lt h (h.alive x hx)

/-! ## What stays -/

theorem Keeps.refl : Keeps n s s := ⟨Nat.le_refl _, fun _ _ => Or.inr rfl⟩

/-- What two steps leave of the first inodes. -/
theorem Keeps.trans (h : Keeps n s s') (h' : Keeps n s' s'') : Keeps n s s'' := by
  refine ⟨Nat.le_trans h.grows h'.grows, fun x hx => ?_⟩
  rcases h'.old x hx with hnone | heq
  · exact Or.inl hnone
  · rcases h.old x hx with hnone | heq'
    · rw [hnone, Option.map_none, Option.map_eq_none_iff] at heq
      exact Or.inl heq
    · exact Or.inr (heq.trans heq')

/-- Setting one inode, if it is a later one, if it is freed, or if only its count changes. -/
theorem keeps_set (h : n ≤ x ∨ o = none ∨ o.map Inode.body = (s.node x).map Inode.body) :
    Keeps n s (s.set x o) := by
  refine ⟨Nat.le_refl _, fun y hy => ?_⟩
  by_cases heq : y = x
  · subst heq
    rw [node_set_self]
    exact h.resolve_left (Nat.not_le_of_lt hy)
  · rw [node_set_ne heq]
    exact Or.inr rfl

/-- A change of the count leaves the rest of an inode. -/
theorem keeps_set_refcnt {k : Int} (hi : s.node x = some i) :
    Keeps n s (s.set x (some { i with refcnt := k })) :=
  keeps_set (Or.inr (Or.inr (by rw [hi]; rfl)))

/-- When nothing was gained and nothing lost, every inode is what it was. -/
theorem Held.same (h : s.Held refs) (h' : s'.Held refs) (hk : Keeps s.nextId s s') :
    s'.node = s.node := by
  have hshape : s'.shape = s.shape := by
    refine Counted.same_nodes h h' fun x hx => ?_
    rcases hk.old x hx with hnone | heq
    · exact Or.inl (by rw [shape, hnone, Option.map_none])
    · refine Or.inr ?_
      have hparent := congrArg (Option.map Inode.parent) heq
      rwa [Option.map_map, Option.map_map] at hparent
  funext x
  have hx := congrFun hshape x
  rcases hi : s.node x with _ | i
  · rw [shape, shape, hi, Option.map_none, Option.map_eq_none_iff] at hx
    exact hx
  · obtain ⟨j, hj, -⟩ := Option.map_eq_some_iff.mp (hx.trans (shape_eq hi))
    have hlive : s.shape x ≠ none := shape_ne_none.mpr (by rw [hi]; exact Option.some_ne_none i)
    have hcount : s'.refcnt x = s.refcnt x := by
      rw [Held, hshape] at h'
      exact Counted.same_count h h' hlive
    rw [refcnt_eq hi, refcnt_eq hj] at hcount
    have hbody : j.body = i.body := by
      rcases hk.old x (Counted.lt h hlive) with hnone | heq
      · rw [hj] at hnone
        cases hnone
      · rw [hj, hi] at heq
        exact Option.some.inj heq
    rw [hj, ← j.body_refcnt, ← i.body_refcnt, hbody, hcount]

/-! ## The operations -/

/-- A new reference to an inode in memory is counted. -/
theorem Held.get (h : s.Held refs) (hx : s.node x ≠ none) :
    ∃ s', s.getInode x = some s' ∧ s'.Held (x :: refs) ∧ ∀ n, Keeps n s s' := by
  obtain ⟨i, hi⟩ := Option.ne_none_iff_exists'.mp hx
  refine ⟨s.set x (some { i with refcnt := i.refcnt + 1 }), ?_, ?_,
    fun n => keeps_set_refcnt hi⟩
  · rw [getInode, hi, Option.map_some]
  · have hget := Counted.get h (shape_ne_none.mpr hx)
    rw [refcnt_eq hi] at hget
    rw [Held, shape_set_refcnt hi, refcnt_set]
    exact hget

/-- Giving back a reference frees the chain up to the first inode with another holder. -/
theorem Held.putFrom {rounds : Nat} (h : s.Held (x :: refs)) (hx : x < rounds) :
    ∃ s', putFrom rounds s (some x) = some s' ∧ s'.Held refs ∧ ∀ n, Keeps n s s' := by
  induction rounds generalizing s x with
  | zero => exact absurd hx (Nat.not_lt_zero x)
  | succ rounds ih =>
    obtain ⟨i, hi⟩ := h.node List.mem_cons_self
    rw [Inodes.putFrom, hi, Option.bind_some]
    by_cases hlast : i.refcnt - 1 = 0
    · rw [if_pos hlast]
      have hput := Counted.putLast h (by rw [refcnt_eq hi]; omega)
      rw [shape_eq hi, Option.join_some] at hput
      have hfree : (s.set x none).Held (i.parent.toList ++ refs) := by
        rw [Held, shape_set, refcnt_set]
        refine hput.recount fun y hy => Function.update_of_ne (fun heq => hy ?_) _ _
        rw [heq, Function.update_self]
      have hkeeps : ∀ n, Keeps n s (s.set x none) := fun n => keeps_set (Or.inr (Or.inl rfl))
      rcases hparent : i.parent with _ | p
      · rw [hparent] at hfree
        exact ⟨_, by rw [Inodes.putFrom], hfree, hkeeps⟩
      · rw [hparent] at hfree
        obtain ⟨hlt, -⟩ := h.older x p (by rw [shape_eq hi, hparent])
        obtain ⟨s', hs', hheld, hkeeps'⟩ := ih hfree (by omega)
        exact ⟨s', hs', hheld, fun n => (hkeeps n).trans (hkeeps' n)⟩
    · have hput := Counted.putKeep h (by rw [refcnt_eq hi]; omega)
      rw [refcnt_eq hi] at hput
      refine ⟨_, if_neg hlast, ?_, fun n => keeps_set_refcnt hi⟩
      rw [Held, shape_set_refcnt hi, refcnt_set]
      exact hput

/-- Giving back a reference leaves the counts right. -/
theorem Held.put (h : s.Held (x :: refs)) :
    ∃ s', s.putInode x = some s' ∧ s'.Held refs ∧ ∀ n, Keeps n s s' :=
  h.putFrom (h.lt List.mem_cons_self)

/-- A new inode has one holder, who made it. -/
theorem Held.alloc (h : s.Held refs) (attrs : Attrs) :
    (s.allocInode attrs).Held (s.nextId :: refs) := by
  have hset := s.shape_set (x := s.nextId) (o := some ⟨none, none, 1, attrs⟩)
  have hset' := s.refcnt_set (x := s.nextId) (o := some ⟨none, none, 1, attrs⟩)
  have halloc := Counted.alloc h
  exact (hset ▸ hset' ▸ halloc : Counted (s.set s.nextId _).shape (s.set s.nextId _).refcnt _ _)

/-- A new inode has no parent. -/
theorem shape_allocInode (attrs : Attrs) : (s.allocInode attrs).shape s.nextId = some none := by
  simp only [shape, allocInode, Function.update_self, Option.map_some]

/-- A new inode leaves the older ones. -/
theorem keeps_allocInode (attrs : Attrs) (hn : n ≤ s.nextId) : Keeps n s (s.allocInode attrs) := by
  refine ⟨Nat.le_succ _, fun y hy => Or.inr ?_⟩
  have hne : y ≠ s.nextId := by omega
  simp only [allocInode, Function.update_of_ne hne]

/-- A fresh inode takes over the reference to its parent. -/
theorem Held.attach (h : s.Held (x :: p :: refs)) (hx : s.shape x = some none) (hlt : p < x)
    (name : Option (List UInt8)) :
    ∃ s' i, s.attach x p name = some s' ∧ s'.node x = some i ∧ i.parent = some p ∧
      s'.Held (x :: refs) ∧ ∀ n ≤ x, Keeps n s s' := by
  obtain ⟨i, hi⟩ := h.node List.mem_cons_self
  refine ⟨s.set x (some { i with parent := some p, name := name }), _, ?_, node_set_self, rfl, ?_,
    fun n hn => keeps_set (Or.inl hn)⟩
  · rw [Inodes.attach, hi, Option.map_some]
  · have hadopt := Counted.adopt h hx hlt
    rw [Held, shape_set, refcnt_set]
    refine hadopt.recount fun y _ => ?_
    rw [Option.map_some, Option.getD_some, ← refcnt_eq hi, Function.update_eq_self]

/-- Adding a reference to one inode and releasing another. -/
theorem Held.exchange (h : s.Held (x :: refs)) (hy : s.node y ≠ none) :
    ∃ s₁ s₂, s.getInode y = some s₁ ∧ s₁.putInode x = some s₂ ∧ s₂.Held (y :: refs) ∧
      ∀ n, Keeps n s s₂ := by
  obtain ⟨s₁, hget, hheld₁, hkeeps₁⟩ := h.get hy
  have hswap : s₁.Held (x :: y :: refs) := Counted.perm hheld₁ (List.Perm.swap x y refs)
  obtain ⟨s₂, hput, hheld₂, hkeeps₂⟩ := hswap.put
  exact ⟨s₁, s₂, hget, hput, hheld₂, fun n => (hkeeps₁ n).trans (hkeeps₂ n)⟩

/-- The parent of an inode in memory is in memory. -/
theorem Held.parent (h : s.Held refs) (hi : s.node x = some i) (hp : i.parent = some p) :
    s.node p ≠ none := by
  have holder := (h.older x p (by rw [shape_eq hi, hp])).2
  exact shape_ne_none.mp holder

end Inodes

end Liigboot.Vfs
