import Mathlib.Data.List.Basic
import Mathlib.Tactic.Common

/-!
# Walks in a tree with links

A path is a text with separators: the names between them lead from a directory to one of its
entries, two names lead nowhere and one level up, and a separator at the start leads to the root. A
symbolic link stands for the path that is its text. A walk keeps the directories that it came
through, so that one level up is the last of them, whatever links were followed.
-/

namespace Liigboot

variable {N α : Type} [DecidableEq α]

/-- A part of a path. -/
inductive Part (α : Type)
  | root
  | name (name : List α)

/-- The names of a text. -/
def nameParts (sep : α) (text : List α) : List (Part α) :=
  ((text.splitOn sep).filter (· ≠ [])).map .name

/-- The parts of a path. -/
def partsOf (sep : α) (text : List α) : List (Part α) :=
  if text.head? = some sep then .root :: nameParts sep text else nameParts sep text

/-- What a node of a tree is. -/
inductive NodeKind (α : Type)
  | dir
  | file
  | link (target : List α)
  | other

omit [DecidableEq α] in
/-- A directory, a link, or what leads no further. -/
theorem NodeKind.dir_or_link_or_leaf (k : NodeKind α) :
    k = .dir ∨ (∃ target, k = .link target) ∨ k = .file ∨ k = .other := by
  cases k <;> simp

/-- A tree, or any graph, of nodes with named entries. -/
structure FileTree (N α : Type) where
  root : N
  kind : N → NodeKind α
  lookup : N → List α → Option N

/-- One level up; there is nothing above the root. -/
def upFrom : List N → List N
  | _ :: y :: stack => y :: stack
  | stack => stack

/-- Where a path leads, from the last of some nodes, with a number of links that may be followed. -/
def FileTree.resolve (T : FileTree N α) (sep dot : α) :
    Nat → List N → List (Part α) → Option (List N)
  | _, stack, [] => some stack
  | links, _, .root :: parts => T.resolve sep dot links [T.root] parts
  | links, stack, .name name :: parts =>
    if name = [dot] then T.resolve sep dot links stack parts
    else if name = [dot, dot] then T.resolve sep dot links (upFrom stack) parts
    else
      match stack.head?.bind fun x => T.lookup x name with
      | none => none
      | some x =>
        match T.kind x, links with
        | .dir, links => T.resolve sep dot links (x :: stack) parts
        | .link _, 0 => none
        | .link target, links + 1 =>
          if target = [] then none
          else T.resolve sep dot links stack (partsOf sep target ++ parts)
        | .file, _ | .other, _ => if parts.isEmpty then some (x :: stack) else none
termination_by links _ parts => (links, parts.length)

variable {sep dot : α} {T : FileTree N α} {text rest front name : List α} {links : Nat}
  {stack : List N} {parts : List (Part α)} {x : N}

/-! ## Parts -/

@[simp] theorem nameParts_nil : nameParts sep [] = [] := by
  simp [nameParts]

/-- A separator at the start is skipped. -/
theorem nameParts_sep : nameParts sep (sep :: text) = nameParts sep text := by
  simp [nameParts, List.splitOn_cons_eq_if_modifyHead]

/-- The names in front of a separator, and those behind it. -/
theorem nameParts_append_sep :
    nameParts sep (text ++ sep :: rest) = nameParts sep text ++ nameParts sep rest := by
  simp [nameParts, List.splitOn_append_cons_self]

/-- A text without separators is a name. -/
theorem nameParts_name (hne : front ≠ []) (hsep : sep ∉ front) :
    nameParts sep front = [.name front] := by
  simp [nameParts, List.splitOn_eq_singleton hsep, hne]

/-- A text that does not start with the separator has only names. -/
theorem partsOf_of_head_ne (h : text.head? ≠ some sep) : partsOf sep text = nameParts sep text :=
  if_neg h

/-- A path behind another one, with a separator between them. -/
theorem partsOf_join (hne : text ≠ []) (hrest : rest.head? ≠ some sep) :
    partsOf sep (text ++ sep :: rest) = partsOf sep text ++ partsOf sep rest := by
  have hhead : (text ++ sep :: rest).head? = text.head? := by
    rw [List.head?_append_of_ne_nil _ hne]
  rw [partsOf, partsOf, hhead, nameParts_append_sep, partsOf_of_head_ne hrest]
  split_ifs <;> rfl

/-! ## Walks -/

/-- Going up adds no directory. -/
theorem upFrom_subset (stack : List N) : upFrom stack ⊆ stack := by
  match stack with
  | [] | [_] => exact List.Subset.refl _
  | _ :: y :: stack => exact List.subset_cons_self _ _

@[simp] theorem FileTree.resolve_nil : T.resolve sep dot links stack [] = some stack := by
  rw [FileTree.resolve]

/-- A leading separator starts at the root. -/
@[simp] theorem FileTree.resolve_root :
    T.resolve sep dot links stack (.root :: parts) = T.resolve sep dot links [T.root] parts := by
  rw [FileTree.resolve]

/-- `.` stays. -/
theorem FileTree.resolve_dot : T.resolve sep dot links stack (.name [dot] :: parts) =
    T.resolve sep dot links stack parts := by
  rw [FileTree.resolve, if_pos rfl]

/-- `..` goes up by one directory. -/
theorem FileTree.resolve_up : T.resolve sep dot links stack (.name [dot, dot] :: parts) =
    T.resolve sep dot links (upFrom stack) parts := by
  rw [FileTree.resolve, if_neg (by simp), if_pos rfl]

/-- A name that has no meaning of its own. -/
structure Ordinary (dot : α) (name : List α) : Prop where
  ne_dot : name ≠ [dot]
  ne_up : name ≠ [dot, dot]

section

variable (hname : Ordinary dot name)
include hname

/-- A name that is not there is not resolved. -/
theorem FileTree.resolve_missing (h : (stack.head?.bind fun x => T.lookup x name) = none) :
    T.resolve sep dot links stack (.name name :: parts) = none := by
  rw [FileTree.resolve, if_neg hname.ne_dot, if_neg hname.ne_up, h]

/-- A name of a directory goes down into it. -/
theorem FileTree.resolve_dir (h : (stack.head?.bind fun x => T.lookup x name) = some x)
    (hkind : T.kind x = .dir) : T.resolve sep dot links stack (.name name :: parts) =
      T.resolve sep dot links (x :: stack) parts := by
  rw [FileTree.resolve, if_neg hname.ne_dot, if_neg hname.ne_up, h]
  simp only [hkind]

/-- A link goes on with the path that is its target. -/
theorem FileTree.resolve_link {target : List α}
    (h : (stack.head?.bind fun x => T.lookup x name) = some x) (hkind : T.kind x = .link target)
    (hne : target ≠ []) :
    T.resolve sep dot (links + 1) stack (.name name :: parts) =
      T.resolve sep dot links stack (partsOf sep target ++ parts) := by
  rw [FileTree.resolve, if_neg hname.ne_dot, if_neg hname.ne_up, h]
  simp only [hkind, if_neg hne]

/-- A link that cannot be followed. -/
theorem FileTree.resolve_link_fails {target : List α}
    (h : (stack.head?.bind fun x => T.lookup x name) = some x) (hkind : T.kind x = .link target)
    (hend : links = 0 ∨ target = []) :
    T.resolve sep dot links stack (.name name :: parts) = none := by
  rw [FileTree.resolve, if_neg hname.ne_dot, if_neg hname.ne_up, h]
  cases links with
  | zero => simp only [hkind]
  | succ links => simp only [hkind, if_pos (hend.resolve_left (Nat.succ_ne_zero _))]

/-- A file is the end of a path or of none. -/
theorem FileTree.resolve_leaf (h : (stack.head?.bind fun x => T.lookup x name) = some x)
    (hkind : T.kind x = .file ∨ T.kind x = .other) :
    T.resolve sep dot links stack (.name name :: parts) =
      if parts.isEmpty then some (x :: stack) else none := by
  rw [FileTree.resolve, if_neg hname.ne_dot, if_neg hname.ne_up, h]
  rcases hkind with hkind | hkind <;> simp only [hkind]

end

/-- From directories, a walk comes through directories. -/
theorem FileTree.resolve_dirs {out : List N} (hroot : T.kind T.root = .dir)
    (hstack : ∀ y ∈ stack, T.kind y = .dir) (h : T.resolve sep dot links stack parts = some out) :
    ∀ y ∈ out.tail, T.kind y = .dir := by
  fun_induction FileTree.resolve T sep dot links stack parts with
  | case1 links stack =>
    cases h
    exact fun y hy => hstack y (List.mem_of_mem_tail hy)
  | case2 links stack parts ih => exact ih (List.forall_mem_singleton.mpr hroot) h
  | case3 links stack parts ih => exact ih hstack h
  | case4 links stack parts hdots ih => exact ih (fun y hy => hstack y (upFrom_subset stack hy)) h
  | case6 stack name parts hdot hdots x hfound links hkind ih =>
    exact ih (List.forall_mem_cons.mpr ⟨hkind, hstack⟩) h
  | case9 stack name parts hdot hdots x hfound target links hkind hne ih => exact ih hstack h
  | case10 | case12 =>
    cases h
    exact hstack
  | case5 | case7 | case8 | case11 | case13 => cases h

end Liigboot
