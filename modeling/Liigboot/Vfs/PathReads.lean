import Liigboot.Vfs.SearchDir
import Mathlib.Data.List.TakeWhile

/-!
# What the path search reads of a path

The bytes of a path that a round looks at, counted from the start of the path, and the components
that it leaves. The search for the next slash starts behind the first byte, so it leaves a path
whose first byte is its end.
-/

namespace Liigboot.Vfs

/-! ## Bytes -/

/-- The number of bytes that `strchr` looks at. -/
def strchrReads (c : UInt8) : List UInt8 → Nat
  | [] => 1
  | b :: raw => if b = c then 1 else if b = 0 then 1 else strchrReads c raw + 1

/-- The number of bytes that `skipSlashes` looks at: one behind the slashes. -/
def skipSlashesReads (raw : List UInt8) : Nat := (raw.takeWhile (· = slash)).length + 1

/-- The number of bytes that `component` looks at. -/
def componentReads (path : List UInt8) : Nat :=
  if path.head? = some slash then 1 + skipSlashesReads path.tail
  else 1 + strchrReads slash path.tail +
    (strchr slash path.tail).elim 0 fun raw => skipSlashesReads raw.tail

/-- The number of bytes that a round looks at: also the name with its end, and what remains with its
end. -/
def roundReads (path : List UInt8) : Nat :=
  max (componentReads path) (max ((component path).1.length + 1)
    ((component path).2.elim 0 fun rest => path.length - rest.length + ((cstr rest).length + 1)))

variable {path raw rest : List UInt8} {b c : UInt8}

/-- A character in front of the string belongs to it. -/
theorem cstr_cons (h : b ≠ 0) : cstr (b :: raw) = b :: cstr raw :=
  List.takeWhile_cons_of_pos (by rw [decide_eq_true_eq]; exact h)

theorem cstr_cons_zero : cstr (0 :: raw) = [] :=
  List.takeWhile_cons_of_neg (by decide)

/-- There is no NUL in a string. -/
theorem ne_zero_of_mem_cstr (h : b ∈ cstr raw) : b ≠ 0 :=
  of_decide_eq_true (List.mem_takeWhile_imp (p := fun b : UInt8 => decide (b ≠ 0)) h)

/-- A path that is not empty starts with a byte that is not its end. -/
theorem exists_cons (h : cstr path ≠ []) : ∃ b raw, path = b :: raw ∧ b ≠ 0 := by
  cases path with
  | nil => exact absurd rfl h
  | cons b raw =>
    refine ⟨b, raw, rfl, ?_⟩
    rintro rfl
    exact h cstr_cons_zero

/-- Behind a part without an end the string goes on. -/
theorem cstr_append {pre : List UInt8} (hpre : ∀ b ∈ pre, b ≠ 0) :
    cstr (pre ++ rest) = pre ++ cstr rest := by
  induction pre with
  | nil => rfl
  | cons b pre ih =>
    rw [List.cons_append, cstr_cons (hpre b List.mem_cons_self),
      ih fun x hx => hpre x (List.mem_cons_of_mem _ hx), List.cons_append]

theorem slash_ne_zero : slash ≠ 0 := by decide

/-! ## Slashes -/

/-- The slashes that are skipped, and what remains. -/
theorem skipSlashes_spec (h : skipSlashes raw = some rest) :
    ∃ pre, raw = pre ++ rest ∧ (∀ b ∈ pre, b ≠ 0) ∧ skipSlashesReads raw = pre.length + 1 ∧
      cstr rest ≠ [] := by
  rw [skipSlashes] at h
  split_ifs at h with hend
  obtain rfl := Option.some.inj h
  refine ⟨raw.takeWhile (· = slash), List.takeWhile_append_dropWhile.symm, fun b hb => ?_, rfl, ?_⟩
  · rw [of_decide_eq_true (List.mem_takeWhile_imp (p := fun b : UInt8 => decide (b = slash)) hb)]
    exact slash_ne_zero
  · cases hrest : raw.dropWhile (· = slash) with
    | nil =>
      rw [hrest] at hend
      exact absurd rfl hend
    | cons b rest =>
      rw [hrest] at hend
      rw [cstr_cons (show b ≠ 0 from hend)]
      exact List.cons_ne_nil _ _

/-- The search for the end of the slashes stays in front of the end of the string. -/
theorem skipSlashesReads_le : skipSlashesReads raw ≤ (cstr raw).length + 1 := by
  refine Nat.succ_le_succ ?_
  induction raw with
  | nil => exact Nat.le_refl _
  | cons b raw ih =>
    by_cases hb : b = slash
    · rw [List.takeWhile_cons_of_pos (by rw [decide_eq_true_eq]; exact hb),
        cstr_cons (hb ▸ slash_ne_zero)]
      exact Nat.succ_le_succ ih
    · rw [List.takeWhile_cons_of_neg (by rw [decide_eq_true_eq]; exact hb)]
      exact Nat.zero_le _

/-- What lies in front of a byte that was found. -/
theorem strchr_spec (h : strchr c raw = some rest) :
    ∃ pre behind, raw = pre ++ c :: behind ∧ rest = c :: behind ∧ (∀ b ∈ pre, b ≠ 0 ∧ b ≠ c) ∧
      strchrReads c raw = pre.length + 1 := by
  induction raw with
  | nil => cases h
  | cons b raw ih =>
    rw [strchr] at h
    rw [strchrReads]
    split_ifs at h with hb hz
    · refine ⟨[], raw, ?_, ?_, fun _ hx => absurd hx List.not_mem_nil, if_pos hb⟩
      · rw [List.nil_append, hb]
      · rw [← Option.some.inj h, hb]
    · obtain ⟨pre, behind, hraw, hrest, hpre, hreads⟩ := ih h
      refine ⟨b :: pre, behind, by rw [hraw, List.cons_append], hrest, fun x hx => ?_, ?_⟩
      · cases hx with
        | head => exact ⟨hz, hb⟩
        | tail _ hx => exact hpre x hx
      · rw [if_neg hb, if_neg hz, hreads, List.length_cons]

/-- A search that finds nothing ends at the end of the string. -/
theorem strchrReads_le (h : strchr c raw = none) :
    strchrReads c raw ≤ (cstr raw).length + 1 ∧ c ∉ cstr raw := by
  induction raw with
  | nil => exact ⟨Nat.le_refl _, List.not_mem_nil⟩
  | cons b raw ih =>
    rw [strchr] at h
    split_ifs at h with hb hz
    · rw [strchrReads, if_neg hb, if_pos hz, hz, cstr_cons_zero]
      exact ⟨Nat.le_refl _, List.not_mem_nil⟩
    · obtain ⟨hreads, hnot⟩ := ih h
      rw [strchrReads, if_neg hb, if_neg hz, cstr_cons hz]
      refine ⟨Nat.succ_le_succ hreads, fun hmem => ?_⟩
      cases hmem with
      | head => exact hb rfl
      | tail _ hmem => exact hnot hmem

/-! ## Rounds -/

/-- What remains of a path is behind a part without an end. -/
theorem component_rest (h : cstr path ≠ []) (hnext : (component path).2 = some rest) :
    ∃ pre, path = pre ++ rest ∧ (∀ b ∈ pre, b ≠ 0) ∧ cstr rest ≠ [] := by
  obtain ⟨b, raw, rfl, hb⟩ := exists_cons h
  rw [component] at hnext
  split_ifs at hnext with hslash
  · obtain ⟨pre, hraw, hpre, -, hrest⟩ := skipSlashes_spec hnext
    rw [List.tail_cons] at hraw
    refine ⟨b :: pre, by rw [hraw, List.cons_append], fun x hx => ?_, hrest⟩
    cases hx with
    | head => exact hb
    | tail _ hx => exact hpre x hx
  · obtain ⟨found, hfound, hskip⟩ := Option.bind_eq_some_iff.mp hnext
    obtain ⟨front, behind, hraw, rfl, hfront, -⟩ := strchr_spec hfound
    obtain ⟨pre, hbehind, hpre, -, hrest⟩ := skipSlashes_spec hskip
    rw [List.tail_cons] at hraw hbehind
    refine ⟨b :: front ++ slash :: pre, ?_, fun x hx => ?_, hrest⟩
    · rw [hraw, hbehind, List.append_assoc, List.cons_append, List.cons_append]
    · rw [List.mem_append, List.mem_cons, List.mem_cons] at hx
      obtain (rfl | hx) | (rfl | hx) := hx
      · exact hb
      · exact (hfront x hx).1
      · exact slash_ne_zero
      · exact hpre x hx

/-- A component is read up to the NUL at most. -/
theorem componentReads_le (h : cstr path ≠ []) : componentReads path ≤ (cstr path).length + 1 := by
  obtain ⟨b, raw, rfl, hb⟩ := exists_cons h
  rw [componentReads, cstr_cons hb, List.length_cons, List.tail_cons]
  split_ifs with hslash
  · have hskip := @skipSlashesReads_le raw
    omega
  · cases hfound : strchr slash raw with
    | none =>
      have hreads := (strchrReads_le hfound).1
      rw [Option.elim_none]
      omega
    | some rest =>
      obtain ⟨pre, behind, hraw, rfl, hpre, hreads⟩ := strchr_spec hfound
      have hskip := @skipSlashesReads_le behind
      rw [hreads, Option.elim_some, List.tail_cons, hraw, cstr_append fun x hx => (hpre x hx).1,
        cstr_cons slash_ne_zero, List.length_append, List.length_cons]
      omega

theorem length_component_le : (component path).1.length ≤ max 1 (cstr path).length := by
  rw [component]
  split_ifs with hslash
  · exact Nat.le_max_left _ _
  · exact Nat.le_trans (List.takeWhile_sublist _).length_le (Nat.le_max_right _ _)

/-- A round looks at nothing behind the end of the path, unless the path is empty. -/
theorem roundReads_le_iff : roundReads path ≤ (cstr path).length + 1 ↔ cstr path ≠ [] := by
  constructor
  · intro hreads hnil
    have hcomponent : 2 ≤ componentReads path := by
      rw [componentReads, skipSlashesReads]
      split_ifs
      · omega
      · have hpos : 1 ≤ strchrReads slash path.tail := by
          cases path.tail with
          | nil => exact Nat.le_refl _
          | cons b raw =>
            rw [strchrReads]
            split_ifs <;> omega
        omega
    have hround : componentReads path ≤ roundReads path := Nat.le_max_left _ _
    rw [hnil, List.length_nil] at hreads
    omega
  · intro h
    have hpos := List.length_pos_iff.mpr h
    have hname := @length_component_le path
    refine Nat.max_le.mpr ⟨componentReads_le h, Nat.max_le.mpr ⟨by omega, ?_⟩⟩
    cases hnext : (component path).2 with
    | none => exact Nat.zero_le _
    | some rest =>
      obtain ⟨pre, hpath, hpre, -⟩ := component_rest h hnext
      rw [Option.elim_some, hpath, cstr_append hpre, List.length_append, List.length_append]
      omega

/-! ## Components -/

/-- The names of a path; the flag says whether a name can start here. -/
def names : Bool → List UInt8 → Nat
  | _, [] => 0
  | start, b :: bs => if b = slash then names true bs else (if start then 1 else 0) + names false bs

/-- The components of a path: the root, and the names. -/
def components (s : List UInt8) : Nat := (if s.head? = some slash then 1 else 0) + names true s

/-- The components of what remains. -/
def componentsLeft (next : Option (List UInt8)) : Nat := next.elim 0 fun rest => components (cstr rest)

/-- Leading slashes are passed. -/
theorem names_skipSlashes : names true (cstr raw) = componentsLeft (skipSlashes raw) := by
  induction raw with
  | nil => rfl
  | cons b raw ih =>
    by_cases hb : b = slash
    · have hskip : skipSlashes (b :: raw) = skipSlashes raw := by
        rw [skipSlashes, skipSlashes, List.dropWhile_cons_of_pos (by rw [decide_eq_true_eq]; exact hb)]
      rw [cstr_cons (hb ▸ slash_ne_zero), names, if_pos hb, hskip]
      exact ih
    · have hdrop : (b :: raw).dropWhile (· = slash) = b :: raw :=
        List.dropWhile_cons_of_neg (by rw [decide_eq_true_eq]; exact hb)
      rw [skipSlashes, hdrop, List.headD_cons]
      by_cases hz : b = 0
      · rw [if_pos hz, hz, cstr_cons_zero]
        rfl
      · rw [if_neg hz, componentsLeft, Option.elim_some, components, cstr_cons hz, List.head?_cons,
          if_neg fun heq => hb (Option.some.inj heq), Nat.zero_add]

/-- Behind a name the next slash is looked for. -/
theorem names_strchr : names false (cstr raw) =
    componentsLeft ((strchr slash raw).bind fun rest => skipSlashes rest.tail) := by
  induction raw with
  | nil => rfl
  | cons b raw ih =>
    by_cases hb : b = slash
    · rw [cstr_cons (hb ▸ slash_ne_zero), names, if_pos hb, strchr, if_pos hb, Option.bind_some,
        List.tail_cons]
      exact names_skipSlashes
    · rw [strchr, if_neg hb]
      by_cases hz : b = 0
      · rw [if_pos hz, hz, cstr_cons_zero]
        rfl
      · rw [if_neg hz, cstr_cons hz, names, if_neg hb, ← ih, if_neg Bool.false_ne_true, Nat.zero_add]

/-- A round takes one component of a path that is not empty. -/
theorem component_takes (h : cstr path ≠ []) :
    componentsLeft (component path).2 + 1 = components (cstr path) := by
  obtain ⟨b, raw, rfl, hb⟩ := exists_cons h
  rw [component, components, cstr_cons hb, List.head?_cons, List.head?_cons, names]
  by_cases hslash : b = slash
  · rw [hslash, if_pos rfl, if_pos rfl, if_pos rfl, names_skipSlashes, List.tail_cons, Nat.add_comm]
  · rw [if_neg fun heq => hslash (Option.some.inj heq),
      if_neg fun heq => hslash (Option.some.inj heq), if_neg hslash, if_pos rfl, names_strchr,
      List.tail_cons, Nat.zero_add, Nat.add_comm]

end Liigboot.Vfs
