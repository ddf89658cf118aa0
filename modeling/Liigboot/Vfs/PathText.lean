import Liigboot.Lib.StringOps
import Liigboot.Vfs.PathReads
import Liigboot.Vfs.Open
import Mathlib.Data.List.GetD
import Mathlib.Data.List.Induction

/-!
# The text of a path

`generic_inode_to_path` goes up to the root and puts the names together on its way back.
`copy_string` stores a character only where a terminator still fits behind it, and the terminator
only where there is room for it. In a path that is too long, the last byte of the buffer is a
terminator only when one of the strings ended there.
-/

namespace Liigboot.Vfs

/-! ## The source -/

/-- `copy_string`: the buffer, and the index behind the string. -/
def copyString (bufsize : Nat) : List UInt8 → (Nat → UInt8) × Nat → (Nat → UInt8) × Nat
  | [], (buf, ix) => (if ix < bufsize then put buf ix 0 else buf, ix)
  | c :: src, (buf, ix) =>
    copyString bufsize src (if ix + 1 < bufsize then put buf ix c else buf, ix + 1)

/-- `generic_inode_to_path`, up to `fuel` inodes. There is no size where the source returns -1, and
no result when an inode is not in memory. -/
def genericInodeToPath (s : Inodes) (bufsize : Nat) :
    Nat → Nat → (Nat → UInt8) → Option ((Nat → UInt8) × Option Nat)
  | 0, _, _ => none
  | fuel + 1, x, dst =>
    (s.node x).bind fun i =>
      match i.parent, i.name with
      | none, _ => some (dst, some 0)
      -- Only the root should have no name.
      | some _, none => some (dst, none)
      | some p, some name =>
        (genericInodeToPath s bufsize fuel p dst).map fun
          | (dst, none) => (dst, none)
          | (dst, some k) =>
            let (dst, k) := copyString bufsize (cstr name) (copyString bufsize [slash] (dst, k))
            (dst, some k)

/-! ## One string -/

variable {bufsize fuel ix k p x : Nat} {buf dst : Nat → UInt8} {src : List UInt8}
  {pieces : List (List UInt8)} {s : Inodes} {refs : List Nat}

theorem copyString_apply (bufsize : Nat) (src : List UInt8) (buf : Nat → UInt8) (ix : Nat) :
    (copyString bufsize src (buf, ix)).2 = ix + src.length ∧ ∀ i,
      (copyString bufsize src (buf, ix)).1 i =
        if ix ≤ i ∧ i < ix + src.length ∧ i + 1 < bufsize then src.getD (i - ix) 0
        else if i = ix + src.length ∧ i < bufsize then 0 else buf i := by
  induction src generalizing buf ix with
  | nil =>
    refine ⟨rfl, fun i => ?_⟩
    rw [copyString, List.length_nil, Nat.add_zero]
    dsimp only
    rw [if_neg (show ¬(ix ≤ i ∧ i < ix ∧ i + 1 < bufsize) by omega)]
    by_cases hin : ix < bufsize
    · rw [if_pos hin]
      by_cases heq : i = ix
      · rw [heq, put_self, if_pos ⟨rfl, hin⟩]
      · rw [put_of_ne _ heq, if_neg fun h => heq h.1]
    · rw [if_neg hin, if_neg (by omega)]
  | cons c src ih =>
    obtain ⟨hix, happly⟩ := ih (if ix + 1 < bufsize then put buf ix c else buf) (ix + 1)
    rw [copyString, List.length_cons]
    refine ⟨by rw [hix]; omega, fun i => ?_⟩
    have hbuf : (if ix + 1 < bufsize then put buf ix c else buf) i =
        if i = ix ∧ i + 1 < bufsize then c else buf i := by
      by_cases hroom : ix + 1 < bufsize
      · by_cases heq : i = ix
        · rw [if_pos hroom, heq, put_self, if_pos ⟨rfl, hroom⟩]
        · rw [if_pos hroom, put_of_ne _ heq, if_neg fun h => heq h.1]
      · rw [if_neg hroom, if_neg (by omega)]
    rw [happly, hbuf]
    by_cases hrest : ix + 1 ≤ i ∧ i < ix + 1 + src.length ∧ i + 1 < bufsize
    · rw [if_pos hrest, if_pos (by omega), show i - ix = i - (ix + 1) + 1 by omega,
        List.getD_cons_succ]
    · rw [if_neg hrest]
      by_cases hend : i = ix + 1 + src.length ∧ i < bufsize
      · rw [if_pos hend, if_neg (by omega), if_pos (by omega)]
      · rw [if_neg hend]
        by_cases hfirst : i = ix ∧ i + 1 < bufsize
        · rw [if_pos hfirst, if_pos (by omega), hfirst.1, Nat.sub_self, List.getD_cons_zero]
        · rw [if_neg hfirst, if_neg (by omega), if_neg (by omega)]

/-! ## Several strings -/

/-- One of the strings ends at an index. -/
def EndsAt (pieces : List (List UInt8)) (k : Nat) : Prop :=
  ∃ pre, pre <+: pieces ∧ pre ≠ [] ∧ pre.flatten.length = k

theorem endsAt_concat {piece : List UInt8} :
    EndsAt (pieces ++ [piece]) k ↔
      EndsAt pieces k ∨ k = pieces.flatten.length + piece.length := by
  have hlen : (pieces ++ [piece]).flatten.length = pieces.flatten.length + piece.length := by
    rw [List.flatten_append, List.length_append, List.flatten_cons, List.flatten_nil,
      List.append_nil]
  constructor
  · rintro ⟨pre, hpre, hne, rfl⟩
    rcases List.prefix_concat_iff.mp hpre with rfl | hpre
    · exact Or.inr hlen
    · exact Or.inl ⟨pre, hpre, hne, rfl⟩
  · rintro (⟨pre, hpre, hne, rfl⟩ | rfl)
    · exact ⟨pre, hpre.trans (List.prefix_append _ _), hne, rfl⟩
    · exact ⟨_, List.prefix_rfl, List.append_ne_nil_of_right_ne_nil _ (List.cons_ne_nil _ _), hlen⟩

/-- What a buffer holds behind the copies: the text as far as a terminator fits behind it, and a
terminator at its end or, when it is too long, in the last byte if a string ended there. -/
structure Copied (bufsize : Nat) (pieces : List (List UInt8)) (buf : Nat → UInt8)
    (r : (Nat → UInt8) × Nat) : Prop where
  length : r.2 = pieces.flatten.length
  text : ∀ i < pieces.flatten.length, i + 1 < bufsize → r.1 i = pieces.flatten.getD i 0
  terminated : ∀ i, EndsAt pieces i → i + 1 = bufsize ∨ i = pieces.flatten.length ∧ i < bufsize →
    r.1 i = 0
  old : ∀ i, ¬EndsAt pieces i ∨ bufsize ≤ i → pieces.flatten.length ≤ i ∨ bufsize ≤ i + 1 →
    r.1 i = buf i

/-- One more string. -/
theorem Copied.concat {r : (Nat → UInt8) × Nat} (h : Copied bufsize pieces buf r)
    (piece : List UInt8) :
    Copied bufsize (pieces ++ [piece]) buf (copyString bufsize piece r) := by
  obtain ⟨hix, hcopy⟩ := copyString_apply bufsize piece r.1 r.2
  have hlen : (pieces ++ [piece]).flatten.length = pieces.flatten.length + piece.length := by
    rw [List.flatten_append, List.length_append, List.flatten_singleton]
  rw [h.length] at hcopy
  refine ⟨hlen ▸ h.length ▸ hix, fun i hi hroom => ?_, fun i hends hcase => ?_,
    fun i hends hcase => ?_⟩
  · rw [hlen] at hi
    change (copyString bufsize piece (r.1, r.2)).1 i = _
    rw [h.length, hcopy, List.flatten_append, List.flatten_singleton]
    by_cases hnew : pieces.flatten.length ≤ i
    · rw [if_pos ⟨hnew, hi, hroom⟩, List.getD_append_right _ _ _ _ hnew]
    · rw [if_neg (by omega), if_neg (by omega), h.text i (by omega) hroom,
        List.getD_append _ _ _ _ (by omega)]
  · rw [hlen] at hcase
    change (copyString bufsize piece (r.1, r.2)).1 i = _
    rw [h.length, hcopy]
    by_cases hend : i = pieces.flatten.length + piece.length ∧ i < bufsize
    · rw [if_neg (by omega), if_pos hend]
    · rw [if_neg (by omega), if_neg hend]
      rcases endsAt_concat.mp hends with hold | heq
      · exact h.terminated i hold (Or.inl (by omega))
      · omega
  · rw [hlen] at hcase
    rw [endsAt_concat, not_or] at hends
    change (copyString bufsize piece (r.1, r.2)).1 i = _
    rw [h.length, hcopy, if_neg (by omega), if_neg (by omega)]
    exact h.old i (hends.imp_left And.left) (by omega)

theorem copied_nil (bufsize : Nat) (buf : Nat → UInt8) : Copied bufsize [] buf (buf, 0) := by
  refine ⟨rfl, fun i hi => absurd hi (Nat.not_lt_zero i), fun i hends => ?_, fun _ _ _ => rfl⟩
  obtain ⟨pre, hpre, hne, -⟩ := hends
  exact absurd (List.prefix_nil.mp hpre) hne

/-! ## The names of the inodes -/

/-- The strings that the path of an inode is put together from. -/
inductive HasPath (s : Inodes) : Nat → List (List UInt8) → Prop
  | root {x : Nat} {i : Inode} (hx : s.node x = some i) (hp : i.parent = none) : HasPath s x []
  | child {x p : Nat} {i : Inode} {name : List UInt8} {pieces : List (List UInt8)}
      (hx : s.node x = some i) (hp : i.parent = some p) (hname : i.name = some name)
      (h : HasPath s p pieces) : HasPath s x (pieces ++ [[slash]] ++ [cstr name])

theorem HasPath.unique {pieces' : List (List UInt8)} (h : HasPath s x pieces)
    (h' : HasPath s x pieces') : pieces = pieces' := by
  induction h generalizing pieces' with
  | root hx hp =>
    cases h' with
    | root => rfl
    | child hx' hp' =>
      obtain rfl := Option.some.inj (hx.symm.trans hx')
      rw [hp] at hp'
      cases hp'
  | child hx hp hname _ ih =>
    cases h' with
    | root hx' hp' =>
      obtain rfl := Option.some.inj (hx.symm.trans hx')
      rw [hp] at hp'
      cases hp'
    | child hx' hp' hname' h' =>
      obtain rfl := Option.some.inj (hx.symm.trans hx')
      obtain rfl := Option.some.inj (hp.symm.trans hp')
      obtain rfl := Option.some.inj (hname.symm.trans hname')
      rw [ih h']

/-- The path of an inode stays as long as the inode is in memory. -/
theorem HasPath.keeps_iff {s' : Inodes} (hk : ∀ n, Inodes.Keeps n s s')
    (hs' : s'.Held refs) (hx : s'.node x ≠ none) :
    HasPath s x pieces ↔ HasPath s' x pieces := by
  have hsame : ∀ {x : Nat} {j : Inode}, s'.node x = some j →
      ∃ i, s.node x = some i ∧ i.parent = j.parent ∧ i.name = j.name := by
    intro x j hj
    rcases (hk (x + 1)).old x (Nat.lt_succ_self x) with hnone | hbody
    · rw [hj] at hnone
      cases hnone
    · rw [hj] at hbody
      obtain ⟨i, hi, heq⟩ := Option.map_eq_some_iff.mp hbody.symm
      have hparent : i.body.parent = j.body.parent := by rw [heq]
      have hname : i.body.name = j.body.name := by rw [heq]
      exact ⟨i, hi, hparent, hname⟩
  constructor
  · intro h
    induction h with
    | root hi hp =>
      obtain ⟨j, hj⟩ := Option.ne_none_iff_exists'.mp hx
      obtain ⟨i', hi', hparent, -⟩ := hsame hj
      obtain rfl := Option.some.inj (hi.symm.trans hi')
      exact .root hj (hparent.symm.trans hp)
    | child hi hp hname _ ih =>
      obtain ⟨j, hj⟩ := Option.ne_none_iff_exists'.mp hx
      obtain ⟨i', hi', hparent, hname'⟩ := hsame hj
      obtain rfl := Option.some.inj (hi.symm.trans hi')
      have hp' := hparent.symm.trans hp
      exact .child hj hp' (hname'.symm.trans hname) (ih (hs'.parent hj hp'))
  · intro h
    clear hx
    induction h with
    | root hj hp =>
      obtain ⟨i, hi, hparent, -⟩ := hsame hj
      exact .root hi (hparent.trans hp)
    | child hj hp hname _ ih =>
      obtain ⟨i, hi, hparent, hname'⟩ := hsame hj
      exact .child hi (hparent.trans hp) (hname'.trans hname) ih

/-- The path of an inode with a bounded number of parents. -/
def pathOf (s : Inodes) : Nat → Nat → Option (List (List UInt8))
  | 0, _ => none
  | fuel + 1, x => (s.node x).bind fun i =>
    match i.parent with
    | none => some []
    | some p => (pathOf s fuel p).bind fun pieces =>
      i.name.map fun name => pieces ++ [[slash]] ++ [cstr name]

theorem hasPath_of_pathOf (h : pathOf s fuel x = some pieces) : HasPath s x pieces := by
  induction fuel generalizing x pieces with
  | zero => cases h
  | succ fuel ih =>
    obtain ⟨i, hi, h⟩ := Option.bind_eq_some_iff.mp h
    rcases hparent : i.parent with _ | p
    · rw [hparent] at h
      cases h
      exact .root hi hparent
    · rw [hparent] at h
      obtain ⟨pieces', hpath, h⟩ := Option.bind_eq_some_iff.mp h
      obtain ⟨name, hname, rfl⟩ := Option.map_eq_some_iff.mp h
      exact .child hi hparent hname (ih hpath)

/-- The characters of a path are not terminators. -/
theorem HasPath.ne_zero (h : HasPath s x pieces) : ∀ b ∈ pieces.flatten, b ≠ 0 := by
  induction h with
  | root => exact fun b hb => (nomatch hb)
  | child _ _ _ _ ih =>
    intro b hb
    rw [List.flatten_append, List.flatten_append, List.flatten_singleton,
      List.flatten_singleton] at hb
    rcases List.mem_append.mp hb with hb | hb
    · rcases List.mem_append.mp hb with hb | hb
      · exact ih b hb
      · obtain rfl := List.mem_singleton.mp hb
        exact slash_ne_zero
    · exact ne_zero_of_mem_cstr hb

/-- The path of an inode is copied, or the buffer stays as it is. -/
theorem genericInodeToPath_spec (h : s.Held refs) (hx : s.node x ≠ none) (hfuel : x < fuel)
    (bufsize : Nat) (dst : Nat → UInt8) :
    (∃ pieces r, HasPath s x pieces ∧ Copied bufsize pieces dst r ∧
      genericInodeToPath s bufsize fuel x dst = some (r.1, some r.2)) ∨
    (¬∃ pieces, HasPath s x pieces) ∧
      genericInodeToPath s bufsize fuel x dst = some (dst, none) := by
  induction fuel generalizing x with
  | zero => exact absurd hfuel (Nat.not_lt_zero x)
  | succ fuel ih =>
    obtain ⟨i, hi⟩ := Option.ne_none_iff_exists'.mp hx
    rw [genericInodeToPath, hi, Option.bind_some]
    cases hp : i.parent with
    | none => exact Or.inl ⟨[], (dst, 0), .root hi hp, copied_nil bufsize dst, rfl⟩
    | some p =>
      have hlt := (h.older x p (by rw [Inodes.shape_eq hi, hp])).1
      cases hname : i.name with
      | none =>
        refine Or.inr ⟨?_, rfl⟩
        rintro ⟨pieces, hpath⟩
        cases hpath with
        | root hx' hp' =>
          obtain rfl := Option.some.inj (hi.symm.trans hx')
          rw [hp] at hp'
          cases hp'
        | child hx' _ hname' =>
          obtain rfl := Option.some.inj (hi.symm.trans hx')
          rw [hname] at hname'
          cases hname'
      | some name =>
        dsimp only
        rcases ih (h.parent hi hp) (by omega) with ⟨pieces, r, hpath, hcopied, heq⟩ | ⟨hnone, heq⟩
        · refine Or.inl ⟨_, _, .child hi hp hname hpath,
            (hcopied.concat [slash]).concat (cstr name), ?_⟩
          rw [heq, Option.map_some]
        · refine Or.inr ⟨?_, by rw [heq, Option.map_some]⟩
          rintro ⟨pieces, hpath⟩
          cases hpath with
          | root hx' hp' =>
            obtain rfl := Option.some.inj (hi.symm.trans hx')
            rw [hp] at hp'
            cases hp'
          | child hx' hp' _ hpath' =>
            obtain rfl := Option.some.inj (hi.symm.trans hx')
            obtain rfl := Option.some.inj (hp.symm.trans hp')
            exact hnone ⟨_, hpath'⟩

end Liigboot.Vfs
