import Liigboot.Lib.PathWalk
import Liigboot.Vfs.Rounds

/-!
# Where the path search leads

What `searchdir` finds is where the path leads in the tree that the file system driver serves: the
components of the path from the current directory on, with `..` going back the way that the
directories were reached, and with nineteen links followed at most. Out of memory, it may find
nothing.
-/

namespace Liigboot.Vfs

open Inodes

variable {W N : Type}

/-! ## The driver -/

/-- The driver serves a tree: an inode stands for a node, and what it answers is right. -/
structure Serves (ops : FsOps W) (T : FileTree N UInt8) (node : Attrs → N) : Prop where
  root : node ops.igetRoot = T.root
  rootDir : T.kind T.root = .dir
  dir : ∀ a, a.mode = dtDir ↔ T.kind (node a) = .dir
  file : ∀ a, a.mode = dtReg ↔ T.kind (node a) = .file
  link : ∀ a, a.mode = dtLnk ↔ ∃ target, T.kind (node a) = .link target
  text : ∀ x target, T.kind x = .link target → 0 ∉ target
  iget : ∀ w name a found w', a.mode = dtDir → ops.iget w name a = (some found, w') →
    T.lookup (node a) name = some (node found)
  readlink : ∀ read w a target, ops.readlink = some read → T.kind (node a) = .link target →
    0 < (read w a).1.1 → (read w a).1.1 = target.length ∧ target <+: (read w a).1.2

/-- There is always enough memory, the driver finds what is there, and no link is longer than a
limit. -/
structure Ample (ops : FsOps W) (T : FileTree N UInt8) (node : Attrs → N) (limit : Nat) : Prop where
  strdup : ∀ w s, (ops.strdup w s).1 ≠ none
  malloc : ∀ w n, (ops.malloc w n).1 = true
  iget : ∀ w name a, a.mode = dtDir → (ops.iget w name a).1 = none → T.lookup (node a) name = none
  short : ∀ a target, T.kind (node a) = .link target → target.length ≤ limit
  size : ∀ a target, T.kind (node a) = .link target → a.size.toNat = target.length
  readlink : ∀ a target, T.kind (node a) = .link target → target ≠ [] →
    ∃ read, ops.readlink = some read ∧ ∀ w, 0 < (read w a).1.1

/-- What is neither a directory nor a link has another mode. -/
theorem Serves.leaf {ops : FsOps W} {T : FileTree N UInt8} {node : Attrs → N} {a : Attrs}
    (h : Serves ops T node) (hkind : T.kind (node a) = .file ∨ T.kind (node a) = .other) :
    ¬ a.mode = dtLnk ∧ a.mode ≠ dtDir := by
  constructor
  · intro hlnk
    obtain ⟨target, htarget⟩ := (h.link a).mp hlnk
    rw [htarget] at hkind
    rcases hkind with hkind | hkind <;> cases hkind
  · intro hdir
    rw [(h.dir a).mp hdir] at hkind
    rcases hkind with hkind | hkind <;> cases hkind

/-! ## Components -/

variable {path raw rest : List UInt8}

/-- A slash is skipped. -/
theorem skipSlashes_slash : skipSlashes (slash :: raw) = skipSlashes raw := by
  rw [skipSlashes, skipSlashes, List.dropWhile_cons_of_pos (by simp)]

/-- There is nothing to skip. -/
theorem skipSlashes_of_ne {b : UInt8} (hb : b ≠ slash) :
    skipSlashes (b :: raw) = if b = 0 then none else some (b :: raw) := by
  rw [skipSlashes, List.dropWhile_cons_of_neg (by simpa using hb), List.headD_cons]

/-- What remains starts with a name. -/
def StartsName (rest : List UInt8) : Prop := cstr rest ≠ [] ∧ (cstr rest).head? ≠ some slash

/-- A character that is not a slash starts a name. -/
theorem startsName_cons {b : UInt8} (hb : b ≠ slash) (hz : b ≠ 0) : StartsName (b :: raw) := by
  rw [StartsName, cstr_cons hz]
  simpa using hb

/-- What starts a name has the parts of its names. -/
theorem StartsName.parts (h : StartsName rest) :
    partsOf slash (cstr rest) = nameParts slash (cstr rest) :=
  partsOf_of_head_ne h.2

/-- What is left behind slashes starts a name. -/
theorem startsName_of_skipSlashes (h : skipSlashes raw = some rest) : StartsName rest := by
  induction raw with
  | nil => cases h
  | cons b raw ih =>
    by_cases hb : b = slash
    · rw [hb, skipSlashes_slash] at h
      exact ih h
    · rw [skipSlashes_of_ne hb] at h
      split_ifs at h with hz
      cases h
      exact startsName_cons hb hz

/-- The parts of what remains, if anything does. -/
def restParts (next : Option (List UInt8)) : List (Part UInt8) :=
  next.elim [] fun rest => partsOf slash (cstr rest)

/-- The names behind some slashes are the parts of what remains. -/
theorem nameParts_skipSlashes : nameParts slash (cstr raw) = restParts (skipSlashes raw) := by
  induction raw with
  | nil => exact nameParts_nil
  | cons b raw ih =>
    by_cases hb : b = slash
    · rw [hb, skipSlashes_slash, cstr_cons slash_ne_zero, nameParts_sep, ih]
    · rw [skipSlashes_of_ne hb]
      split_ifs with hz
      · rw [hz, cstr_cons_zero]
        exact nameParts_nil
      · exact (startsName_cons hb hz).parts.symm

/-- The first part of a path. -/
def firstPart (path : List UInt8) : Part UInt8 :=
  if path.head? = some slash then .root else .name (component path).1

/-- A round takes the first part of a path. -/
theorem partsOf_component (h : cstr path ≠ []) :
    partsOf slash (cstr path) = firstPart path :: restParts (component path).2 := by
  obtain ⟨b, raw, rfl, hb⟩ := exists_cons h
  by_cases hslash : b = slash
  · rw [hslash, cstr_cons slash_ne_zero, partsOf, if_pos List.head?_cons, nameParts_sep,
      nameParts_skipSlashes]
    rfl
  · have hhead : ¬ (b :: raw).head? = some slash := by simpa using hslash
    rw [(startsName_cons hslash hb).parts, firstPart, component, if_neg hhead, if_neg hhead]
    dsimp only [List.tail_cons]
    cases hfound : strchr slash raw with
    | none =>
      have hnot : slash ∉ cstr (b :: raw) := by
        rw [cstr_cons hb]
        exact List.not_mem_cons_of_ne_of_not_mem (Ne.symm hslash) (strchrReads_le hfound).2
      have hall : (cstr (b :: raw)).takeWhile (· ≠ slash) = cstr (b :: raw) := by
        refine List.takeWhile_eq_self_iff.mpr fun x hx => ?_
        rw [decide_eq_true_eq]
        exact fun heq => hnot (heq ▸ hx)
      rw [hall, nameParts_name h hnot]
      rfl
    | some found =>
      obtain ⟨front, behind, rfl, rfl, hfront, -⟩ := strchr_spec hfound
      have hname : ∀ x ∈ b :: front, x ≠ 0 ∧ x ≠ slash :=
        List.forall_mem_cons.mpr ⟨⟨hb, hslash⟩, hfront⟩
      have hcstr : cstr (b :: (front ++ slash :: behind)) = (b :: front) ++ slash :: cstr behind := by
        rw [← List.cons_append, cstr_append fun x hx => (hname x hx).1, cstr_cons slash_ne_zero]
      have htake : ((b :: front) ++ slash :: cstr behind).takeWhile (· ≠ slash) = b :: front := by
        rw [List.takeWhile_append_of_pos fun x hx => decide_eq_true (hname x hx).2,
          List.takeWhile_cons_of_neg (by simp), List.append_nil]
      rw [hcstr, htake, nameParts_append_sep, nameParts_skipSlashes,
        nameParts_name (List.cons_ne_nil _ _) fun hin => (hname slash hin).2 rfl]
      rfl

/-- What is left behind a component starts a name. -/
theorem startsName_of_component (h : (component path).2 = some rest) : StartsName rest := by
  rw [component] at h
  split_ifs at h
  · exact startsName_of_skipSlashes h
  · obtain ⟨found, -, hskip⟩ := Option.bind_eq_some_iff.mp h
    exact startsName_of_skipSlashes hskip

/-- The text of a link, and what remains behind it. -/
theorem cstr_joined {target buf : List UInt8} (next : Option (List UInt8)) (hzero : 0 ∉ target)
    (hbuf : target <+: buf) : cstr (joinPath buf target.length next) =
      target ++ next.elim [] fun rest => slash :: cstr rest := by
  obtain ⟨behind, rfl⟩ := hbuf
  have htake : (target ++ behind ++ List.replicate target.length 0).take target.length = target := by
    rw [List.append_assoc, List.take_left']
    rfl
  have hne : ∀ b ∈ target, b ≠ 0 := fun b hb hz => hzero (hz ▸ hb)
  rw [joinPath, htake, List.append_assoc, cstr_append hne]
  cases next with
  | none =>
    rw [Option.elim_none, Option.elim_none, List.cons_append, cstr_cons_zero]
  | some rest =>
    rw [Option.elim_some, Option.elim_some, List.cons_append, cstr_cons slash_ne_zero,
      List.append_assoc, List.cons_append, List.nil_append, cstr_start]

/-- The target of a link in front of the rest of the path has the parts of both. -/
theorem partsOf_joined {target buf : List UInt8} {next : Option (List UInt8)} (hzero : 0 ∉ target)
    (hbuf : target <+: buf) (hne : target ≠ []) (hnext : ∀ rest ∈ next, StartsName rest) :
    partsOf slash (cstr (joinPath buf target.length next)) =
      partsOf slash target ++ restParts next := by
  rw [cstr_joined next hzero hbuf]
  cases next with
  | none => rw [Option.elim_none, List.append_nil, restParts, Option.elim_none, List.append_nil]
  | some rest => exact partsOf_join hne (hnext rest rfl).2

/-! ## Chains -/

variable {ops : FsOps W} {T : FileTree N UInt8} {node : Attrs → N} {s s' : Inodes} {x : Nat}
  {stack : List N} {refs refs' : List Nat} {limit links root : Nat} {parts : List (Part UInt8)}
  {st st' : Search W}

/-- An inode and its parents stand for some nodes. -/
inductive Chain (node : Attrs → N) (s : Inodes) : Nat → List N → Prop
  | top {x : Nat} {i : Inode} : s.node x = some i → i.parent = none → Chain node s x [node i.attrs]
  | child {x p : Nat} {i : Inode} {stack : List N} : s.node x = some i → i.parent = some p →
      Chain node s p stack → Chain node s x (node i.attrs :: stack)

/-- The chain of an inode stays as long as the inode is in memory. -/
theorem Chain.keeps (h : Chain node s x stack) (hs : s.Held refs) (hs' : s'.Held refs')
    (hk : Keeps s.nextId s s') (hx : s'.node x ≠ none) : Chain node s' x stack := by
  have hsame : ∀ {x : Nat} {i : Inode}, s.node x = some i → s'.node x ≠ none →
      ∃ j, s'.node x = some j ∧ j.parent = i.parent ∧ j.attrs = i.attrs := by
    intro x i hi hx
    have hlive : s.shape x ≠ none := shape_ne_none.mpr (by rw [hi]; exact Option.some_ne_none i)
    rcases hk.old x (Counted.lt hs hlive) with hnone | hbody
    · exact absurd hnone hx
    · obtain ⟨j, hj⟩ := Option.ne_none_iff_exists'.mp hx
      rw [hi, hj] at hbody
      have hparent : j.body.parent = i.body.parent := by rw [Option.some.inj hbody]
      have hattrs : j.body.attrs = i.body.attrs := by rw [Option.some.inj hbody]
      exact ⟨j, hj, hparent, hattrs⟩
  induction h with
  | top hi hparent =>
    obtain ⟨j, hj, hp, ha⟩ := hsame hi hx
    rw [← ha]
    exact .top hj (hp.trans hparent)
  | child hi hparent _ ih =>
    obtain ⟨j, hj, hp, ha⟩ := hsame hi hx
    rw [← ha]
    exact .child hj (hp.trans hparent) (ih (hs'.parent hj (hp.trans hparent)))

/-- A chain of parents is one list of nodes. -/
theorem Chain.unique {stack' : List N} (h : Chain node s x stack) (h' : Chain node s x stack') :
    stack = stack' := by
  induction h generalizing stack' with
  | top hi hparent =>
    cases h' with
    | top hi' _ =>
      rw [hi] at hi'
      cases hi'
      rfl
    | child hi' hparent' _ =>
      rw [hi] at hi'
      cases hi'
      rw [hparent] at hparent'
      cases hparent'
  | child hi hparent _ ih =>
    cases h' with
    | top hi' hparent' =>
      rw [hi] at hi'
      cases hi'
      rw [hparent] at hparent'
      cases hparent'
    | child hi' hparent' hchain' =>
      rw [hi] at hi'
      cases hi'
      rw [hparent] at hparent'
      cases hparent'
      rw [ih hchain']

/-- The last of the nodes is that of the inode. -/
theorem Chain.head (h : Chain node s x stack) :
    ∃ i, s.node x = some i ∧ stack.head? = some (node i.attrs) := by
  cases h with
  | top hi _ => exact ⟨_, hi, rfl⟩
  | child hi _ _ => exact ⟨_, hi, rfl⟩

/-- The chain of the parent. -/
theorem Chain.upFrom {p : Nat} {i : Inode} (h : Chain node s x stack) (hi : s.node x = some i)
    (hparent : i.parent = some p) : Chain node s p (upFrom stack) := by
  cases h with
  | top hi' hparent' =>
    rw [hi] at hi'
    cases hi'
    rw [hparent] at hparent'
    cases hparent'
  | child hi' hparent' hchain =>
    rw [hi] at hi'
    cases hi'
    rw [hparent] at hparent'
    cases hparent'
    cases hchain with
    | top hi hparent => exact .top hi hparent
    | child hi hparent hchain => exact .child hi hparent hchain

/-- The root is its own parent. -/
theorem Chain.upFrom_eq {i : Inode} (h : Chain node s x stack) (hi : s.node x = some i)
    (hparent : i.parent = none) : Liigboot.upFrom stack = stack := by
  cases h with
  | top _ _ => rfl
  | child hi' hparent' _ =>
    rw [hi] at hi'
    cases hi'
    rw [hparent] at hparent'
    cases hparent'

/-! ## The simulation -/

/-- A state of the loop, and a walk in the tree: the inode that was reached stands for the end of the
walk, with the directories on the way as its parents. -/
structure Sim (T : FileTree N UInt8) (node : Attrs → N) (root : Nat) (refs : List Nat)
    (st : Search W) (links : Nat) (stack : List N) (parts : List (Part UInt8)) : Prop where
  held : st.inodes.Held (st.inode :: refs)
  chain : Chain node st.inodes st.inode stack
  root : Chain node st.inodes root [T.root]
  count : st.symlinkCount = links + 1
  parts : parts = restParts st.next
  text : ∀ path ∈ st.next, cstr path ≠ []
  dirs : st.next ≠ none → ∀ n ∈ stack, T.kind n = .dir

/-- The joined paths fit into the limit of the source, as long as no link is longer than a limit. -/
def Room (limit links : Nat) (next : Option (List UInt8)) : Prop :=
  (next.elim 0 fun path => (cstr path).length) + links * (limit + 1) + 1 < 4096

/-- A round that goes on takes a step of the walk; one that does not finds that the walk ends, or is
out of memory. -/
def Round.Walks (ops : FsOps W) (T : FileTree N UInt8) (node : Attrs → N) (root : Nat)
    (refs : List Nat) (st : Search W) (links : Nat) (stack : List N) (parts : List (Part UInt8)) :
    Round W → Prop
  | .next st' => ∃ links' stack' parts', Sim T node root refs st' links' stack' parts' ∧
      T.resolve slash dot links stack parts = T.resolve slash dot links' stack' parts' ∧
      ∀ limit, Ample ops T node limit → Room limit links st.next → Room limit links' st'.next
  | .notFound _ _ => ∀ limit, Ample ops T node limit → Room limit links st.next →
      T.resolve slash dot links stack parts = none

/-- Giving up leaves the counts right. -/
theorem giveUp_some {w : W} (h : s.Held (x :: refs)) :
    ∃ s', giveUp w s x = some (.notFound w s') := by
  obtain ⟨s', hput, -⟩ := h.put
  exact ⟨s', by rw [giveUp, hput, Option.map_some]⟩

/-- What remains of a path is not longer. -/
theorem Room.component {path : List UInt8} (h : Room limit links (some path))
    (hne : cstr path ≠ []) : Room limit links (component path).2 := by
  rw [Room] at h ⊢
  cases hnext : (Vfs.component path).2 with
  | none =>
    rw [Option.elim_some] at h
    rw [Option.elim_none]
    omega
  | some rest =>
    obtain ⟨pre, hpath, hpre, -⟩ := component_rest hne hnext
    rw [Option.elim_some, hpath, cstr_append hpre, List.length_append] at h
    rw [Option.elim_some]
    omega

/-- The buffer of a link that is short enough is allowed. -/
theorem newLen_le {size : UInt32} {next : Option (List UInt8)} (hsize : size.toNat ≤ limit)
    (hroom : Room limit (links + 1) next) : newLen size next ≤ maxSymlinkBuf := by
  have hneeded : newLen size next = Int.bmod (LinkCall.needed ⟨size, next, 0, []⟩) (2 ^ 32) := rfl
  have hle : LinkCall.needed ⟨size, next, 0, []⟩ ≤ 4096 := by
    rw [Room, Nat.add_one_mul] at hroom
    simp only [LinkCall.needed]
    cases next with
    | none =>
      rw [Option.elim_none] at hroom ⊢
      omega
    | some rest =>
      rw [Option.elim_some] at hroom ⊢
      omega
  generalize LinkCall.needed ⟨size, next, 0, []⟩ = len at hneeded hle
  rw [hneeded, Int.bmod_eq_of_le_mul_two (by omega) (by omega), maxSymlinkBuf]
  omega

/-- What a link leaves of the room. -/
theorem Room.follow {target buf : List UInt8} {next : Option (List UInt8)} (hzero : 0 ∉ target)
    (hbuf : target <+: buf) (hlen : target.length ≤ limit) (h : Room limit (links + 1) next) :
    Room limit links (some (joinPath buf target.length next)) := by
  rw [Room, Nat.add_one_mul] at h
  rw [Room, Option.elim_some, cstr_joined next hzero hbuf, List.length_append]
  cases next with
  | none =>
    rw [Option.elim_none] at h ⊢
    rw [List.length_nil]
    omega
  | some rest =>
    rw [Option.elim_some] at h ⊢
    rw [List.length_cons]
    omega

/-- How the handling of a link ends. -/
def Round.Follows (ops : FsOps W) (T : FileTree N UInt8) (node : Attrs → N) (root : Nat)
    (refs : List Nat) (links : Nat) (next : Option (List UInt8)) (stack : List N)
    (target : List UInt8) : Round W → Prop
  | .next st' => ∃ links', links = links' + 1 ∧ target ≠ [] ∧
      Sim T node root refs st' links' stack (partsOf slash target ++ restParts next) ∧
      ∀ limit, Ample ops T node limit → Room limit links next → Room limit links' st'.next
  | .notFound _ _ => ∀ limit, Ample ops T node limit → Room limit links next →
      links = 0 ∨ target = []

/-- The text of a link has been read: the search goes on in the directory that holds the link. -/
theorem follow_copied {link : Inode} {p : Nat} {target buf : List UInt8} {w : W}
    (hroot : root ∈ refs) (hheld : st.inodes.Held (st.inode :: refs))
    (hlink : st.inodes.node st.inode = some link) (hparent : link.parent = some p)
    (hchain : Chain node st.inodes p stack) (hrootChain : Chain node st.inodes root [T.root])
    (hcount : st.symlinkCount = links + 1 + 1) (hne : target ≠ []) (hzero : 0 ∉ target)
    (hbuf : target <+: buf) (hkind : T.kind (node link.attrs) = .link target)
    (hnext : ∀ rest ∈ st.next, StartsName rest) (hdirs : ∀ n ∈ stack, T.kind n = .dir) :
    ∃ out, (link.parent.bind fun parent => (st.inodes.getInode parent).bind fun s =>
        (s.putInode st.inode).map fun s => Round.next ⟨w, s, parent, st.symlinkCount - 1,
          some (joinPath buf target.length st.next)⟩) = some out ∧
      out.Follows ops T node root refs (links + 1) st.next stack target := by
  -- the parent is held before the link is released
  obtain ⟨s₁, s₂, hget, hput, hheld', hkeeps⟩ := hheld.exchange (hheld.parent hlink hparent)
  rw [hparent, Option.bind_some, hget, Option.bind_some, hput, Option.map_some]
  have hlive : ∀ x ∈ p :: refs, s₂.node x ≠ none := fun x hx =>
    shape_ne_none.mp (hheld'.alive x hx)
  refine ⟨_, rfl, links, rfl, hne, ⟨hheld', ?_, ?_, ?_, ?_, ?_, fun _ => hdirs⟩, ?_⟩
  · exact hchain.keeps hheld hheld' (hkeeps _) (hlive p List.mem_cons_self)
  · exact hrootChain.keeps hheld hheld' (hkeeps _) (hlive root (List.mem_cons_of_mem _ hroot))
  · dsimp only
    omega
  · exact (partsOf_joined hzero hbuf hne hnext).symm
  · rintro path ⟨⟩
    rw [cstr_joined _ hzero hbuf]
    exact List.append_ne_nil_of_left_ne_nil hne _
  · exact fun limit hample hroom => Room.follow hzero hbuf (hample.short _ _ hkind) hroom

/-- A link is followed as the walk follows it. -/
theorem followLink_sim {link : Inode} {p : Nat} {target : List UInt8} (hserves : Serves ops T node)
    (hroot : root ∈ refs) (hheld : st.inodes.Held (st.inode :: refs))
    (hlink : st.inodes.node st.inode = some link) (hparent : link.parent = some p)
    (hchain : Chain node st.inodes p stack) (hrootChain : Chain node st.inodes root [T.root])
    (hcount : st.symlinkCount = links + 1) (hkind : T.kind (node link.attrs) = .link target)
    (hnext : ∀ rest ∈ st.next, StartsName rest) (hdirs : ∀ n ∈ stack, T.kind n = .dir) :
    ∃ out, followLink ops st link = some out ∧
      out.Follows ops T node root refs links st.next stack target := by
  rw [followLink]
  cases hread : ops.readlink with
  | none =>
    obtain ⟨s, hgive⟩ := @giveUp_some W _ _ _ st.world hheld
    refine ⟨_, hgive, fun limit hample _ => Or.inr ?_⟩
    by_contra hne
    obtain ⟨read, hsome, -⟩ := hample.readlink _ _ hkind hne
    rw [hread] at hsome
    cases hsome
  | some read =>
    dsimp only
    by_cases hlimit : st.symlinkCount - 1 = 0 ∨ maxSymlinkBuf < newLen link.attrs.size st.next
    · rw [if_pos hlimit]
      obtain ⟨s, hgive⟩ := @giveUp_some W _ _ _ st.world hheld
      refine ⟨_, hgive, fun limit hample hroom => Or.inl ?_⟩
      by_contra hpos
      obtain ⟨links', rfl⟩ := Nat.exists_eq_succ_of_ne_zero hpos
      have hsize : link.attrs.size.toNat ≤ limit :=
        (hample.size _ _ hkind).trans_le (hample.short _ _ hkind)
      have hle := newLen_le hsize hroom
      omega
    · rw [if_neg hlimit]
      obtain ⟨links', rfl⟩ := Nat.exists_eq_succ_of_ne_zero (show links ≠ 0 by omega)
      cases hmalloc : ops.malloc st.world (newLen link.attrs.size st.next) with
      | mk got w =>
        cases got with
        | false =>
          obtain ⟨s, hgive⟩ := @giveUp_some W _ _ _ w hheld
          refine ⟨_, hgive, fun limit hample _ => ?_⟩
          have hgot := hample.malloc st.world (newLen link.attrs.size st.next)
          rw [hmalloc] at hgot
          cases hgot
        | true =>
          dsimp only
          by_cases hcopied : (read w link.attrs).1.1 ≤ 0
          · rw [if_pos hcopied]
            obtain ⟨s, hgive⟩ := @giveUp_some W _ _ _ (read w link.attrs).2 hheld
            refine ⟨_, hgive, fun limit hample _ => Or.inr ?_⟩
            by_contra hne
            obtain ⟨read', hsome, hpos⟩ := hample.readlink _ _ hkind hne
            rw [hread] at hsome
            cases hsome
            have := hpos w
            omega
          · rw [if_neg hcopied]
            obtain ⟨hlen, hbuf⟩ := hserves.readlink _ w _ _ hread hkind (by omega)
            have hne : target ≠ [] := by
              rintro rfl
              rw [List.length_nil] at hlen
              omega
            rw [hlen, Int.toNat_natCast]
            exact follow_copied hroot hheld hlink hparent hchain hrootChain hcount hne
              (hserves.text _ _ hkind) hbuf hkind hnext hdirs

/-- What remains of a path is not empty. -/
theorem component_text {path rest : List UInt8} (h : rest ∈ (component path).2) : cstr rest ≠ [] :=
  (startsName_of_component h).1

/-- There are parts as long as something remains. -/
theorem restParts_ne_nil {path : List UInt8} (h : (component path).2 ≠ none) :
    restParts (component path).2 ≠ [] := by
  obtain ⟨rest, hrest⟩ := Option.ne_none_iff_exists'.mp h
  rw [hrest, restParts, Option.elim_some, partsOf_component (component_text hrest)]
  exact List.cons_ne_nil _ _

/-- The fresh inode of an entry is in the directory, and the chains stay. -/
theorem Sim.entry (h : Sim T node root refs st links stack parts) (hroot : root ∈ refs)
    (attrs : Attrs) (name : Option (List UInt8)) : ∃ s i,
      (st.inodes.allocInode attrs).attach st.inodes.nextId st.inode name = some s ∧
      s.node st.inodes.nextId = some i ∧ i.attrs = attrs ∧ i.parent = some st.inode ∧
      s.Held (st.inodes.nextId :: refs) ∧ Chain node s st.inode stack ∧
      Chain node s root [T.root] := by
  obtain ⟨s, i, hattach, hi, hparent, hheld, hkeeps⟩ :=
    (h.held.alloc attrs).attach (shape_allocInode attrs) (h.held.lt List.mem_cons_self) name
  have hk : Keeps st.inodes.nextId st.inodes s :=
    (keeps_allocInode attrs le_rfl).trans (hkeeps _ le_rfl)
  have hchain : Chain node s st.inode stack :=
    h.chain.keeps h.held hheld hk (hheld.parent hi hparent)
  have hrootChain : Chain node s root [T.root] := h.root.keeps h.held hheld hk
    (shape_ne_none.mp (hheld.alive root (List.mem_cons_of_mem _ hroot)))
  exact ⟨s, i, hattach, hi, attrs_attach hattach hi, hparent, hheld, hchain, hrootChain⟩

section

variable (h : Sim T node root refs st links stack parts) {path : List UInt8}
  (hnext : st.next = some path)
include h hnext

/-- The first part of the path, and the others. -/
theorem Sim.parts_eq : parts = firstPart path :: restParts (component path).2 := by
  rw [h.parts, hnext, restParts, Option.elim_some, partsOf_component (h.text path hnext)]

/-- The first part is a name if there is no slash in front. -/
theorem Sim.parts_name (hslash : ¬ path.head? = some slash) :
    parts = .name (component path).1 :: restParts (component path).2 := by
  rw [h.parts_eq hnext, firstPart, if_neg hslash]

/-- There is room for what remains. -/
theorem Sim.room (hroom : Room limit links st.next) : Room limit links (component path).2 := by
  rw [hnext] at hroom
  exact hroom.component (h.text path hnext)

/-- As something remains, all is directories so far. -/
theorem Sim.all_dirs : ∀ n ∈ stack, T.kind n = .dir :=
  h.dirs (by rw [hnext]; exact Option.some_ne_none _)

/-- A path that starts with a slash goes on from the root. -/
theorem round_root (hserves : Serves ops T node) (hroot : root ∈ refs)
    (hslash : path.head? = some slash) : ∃ out, searchRound ops root st path = some out ∧
      out.Walks ops T node root refs st links stack parts := by
  obtain ⟨s₁, hput, hheld₁, hkeeps₁⟩ := h.held.put
  obtain ⟨s₂, hget, hheld₂, hkeeps₂⟩ := hheld₁.get (shape_ne_none.mp (hheld₁.alive root hroot))
  have hrootChain := h.root.keeps h.held hheld₂ ((hkeeps₁ _).trans (hkeeps₂ _))
    (shape_ne_none.mp (hheld₂.alive root List.mem_cons_self))
  rw [searchRound, if_pos hslash, hput, Option.bind_some, hget, Option.map_some]
  refine ⟨_, rfl, links, [T.root], restParts (component path).2,
    ⟨hheld₂, hrootChain, hrootChain, h.count, rfl, fun _ => component_text, ?_⟩, ?_,
    fun limit _ hroom => h.room hnext hroom⟩
  · exact fun _ => List.forall_mem_singleton.mpr hserves.rootDir
  · rw [h.parts_eq hnext, firstPart, if_pos hslash, FileTree.resolve_root]

/-- A dot stays where it is, and so do two dots at the root. -/
theorem round_stays (hslash : ¬ path.head? = some slash)
    (hstay : T.resolve slash dot links stack
        (.name (component path).1 :: restParts (component path).2) =
      T.resolve slash dot links stack (restParts (component path).2)) :
    (Round.next { st with next := (component path).2 }).Walks ops T node root refs st links stack
      parts := by
  refine ⟨links, stack, restParts (component path).2, ⟨h.held, h.chain, h.root, h.count, rfl,
    fun _ => component_text, fun _ => h.all_dirs hnext⟩, ?_, fun limit _ hroom => h.room hnext hroom⟩
  rw [h.parts_name hnext hslash, hstay]

/-- Two dots go back to the parent. -/
theorem round_up {dir : Inode} (hroot : root ∈ refs) (hdir : st.inodes.node st.inode = some dir)
    (hslash : ¬ path.head? = some slash) (hdots : (component path).1 = [dot, dot]) :
    ∃ out, searchRound ops root st path = some out ∧
      out.Walks ops T node root refs st links stack parts := by
  have hdot : ¬ (component path).1 = [dot] := by
    rw [hdots]
    exact fun heq => absurd (List.cons.inj heq).2 (List.cons_ne_nil _ _)
  rw [searchRound, if_neg hslash, if_neg hdot, hdir, Option.bind_some, if_pos hdots]
  cases hparent : dir.parent with
  | none =>
    refine ⟨_, rfl, round_stays h hnext hslash ?_⟩
    rw [hdots, FileTree.resolve_up, h.chain.upFrom_eq hdir hparent]
  | some p =>
    obtain ⟨s₁, s₂, hget, hput, hheld, hkeeps⟩ := h.held.exchange (h.held.parent hdir hparent)
    have hlive : ∀ x ∈ p :: refs, s₂.node x ≠ none := fun x hx =>
      shape_ne_none.mp (hheld.alive x hx)
    dsimp only
    rw [hget, Option.bind_some, hput, Option.map_some]
    refine ⟨_, rfl, links, upFrom stack, restParts (component path).2,
      ⟨hheld, ?_, ?_, h.count, rfl, fun _ => component_text, ?_⟩, ?_,
      fun limit _ hroom => h.room hnext hroom⟩
    · exact (h.chain.upFrom hdir hparent).keeps h.held hheld (hkeeps _) (hlive p List.mem_cons_self)
    · exact h.root.keeps h.held hheld (hkeeps _) (hlive root (List.mem_cons_of_mem _ hroot))
    · exact fun _ n hn => h.all_dirs hnext n (upFrom_subset stack hn)
    · rw [h.parts_name hnext hslash, hdots, FileTree.resolve_up]

/-- A name is looked up in the directory. -/
theorem round_entry {dir : Inode} (hserves : Serves ops T node) (hroot : root ∈ refs)
    (hdir : st.inodes.node st.inode = some dir) (hslash : ¬ path.head? = some slash)
    (hord : Ordinary dot (component path).1) : ∃ out, searchRound ops root st path = some out ∧
      out.Walks ops T node root refs st links stack parts := by
  have hdirs := h.all_dirs hnext
  have hparts := h.parts_name hnext hslash
  have hhead : stack.head? = some (node dir.attrs) := by
    obtain ⟨i, hi, hhead⟩ := h.chain.head
    rw [hdir] at hi
    cases hi
    exact hhead
  have hmode : dir.attrs.mode = dtDir :=
    (hserves.dir _).mpr (hdirs _ (List.mem_of_mem_head? hhead))
  rw [searchRound, if_neg hslash, if_neg hord.ne_dot, hdir, Option.bind_some, if_neg hord.ne_up]
  cases higet : ops.iget st.world (component path).1 dir.attrs with
  | mk found w =>
    cases found with
    | none =>
      obtain ⟨s, hgive⟩ := @giveUp_some W _ _ _ w h.held
      refine ⟨_, hgive, fun limit hample _ => ?_⟩
      rw [hparts]
      refine FileTree.resolve_missing hord ?_
      rw [hhead, Option.bind_some]
      exact hample.iget st.world _ _ hmode (by rw [higet])
    | some attrs =>
      have hlookup : (stack.head?.bind fun x => T.lookup x (component path).1) =
          some (node attrs) := by
        rw [hhead, Option.bind_some]
        exact hserves.iget _ _ _ _ _ hmode higet
      -- the fresh inode holds the directory
      dsimp only
      obtain ⟨s, i, hattach, hi, hattrs, hparent, hheld, hchain, hrootChain⟩ := h.entry hroot attrs
        ((ops.strdup w (component path).1).1.map fun _ => (component path).1)
      rw [hattach, Option.bind_some, hi, Option.bind_some, hattrs]
      have hrest : ∀ limit, Room limit links st.next → Room limit links (component path).2 :=
        fun _ => h.room hnext
      rw [hparts]
      rcases (T.kind (node attrs)).dir_or_link_or_leaf with hkind | ⟨target, hkind⟩ | hkind
      · have hdir' := (hserves.dir _).mpr hkind
        have hlnk : ¬ attrs.mode = dtLnk := by
          rw [hdir']
          decide
        rw [if_neg hlnk, if_neg fun hlost => hlost.2 hdir']
        refine ⟨_, rfl, links, node attrs :: stack, _, ⟨hheld, ?_, hrootChain, h.count, rfl,
          fun _ => component_text, fun _ => List.forall_mem_cons.mpr ⟨hkind, hdirs⟩⟩,
          FileTree.resolve_dir hord hlookup hkind, fun limit _ => hrest limit⟩
        rw [← hattrs]
        exact .child hi hparent hchain
      · rw [if_pos ((hserves.link _).mpr ⟨target, hkind⟩)]
        obtain ⟨out, hfollow, hout⟩ := @followLink_sim W N ops T node stack refs links root
          ⟨(ops.strdup w (component path).1).2, s, st.inodes.nextId, st.symlinkCount,
            (component path).2⟩ i st.inode target hserves hroot hheld hi hparent hchain
          hrootChain h.count (hattrs ▸ hkind) (fun _ => startsName_of_component) hdirs
        refine ⟨out, hfollow, ?_⟩
        cases out with
        | next st' =>
          obtain ⟨links', rfl, hne', hsim, hroom⟩ := hout
          exact ⟨links', stack, _, hsim, FileTree.resolve_link hord hlookup hkind hne',
            fun limit hample hr => hroom limit hample (hrest limit hr)⟩
        | notFound w s =>
          exact fun limit hample hr =>
            FileTree.resolve_link_fails hord hlookup hkind (hout limit hample (hrest limit hr))
      · obtain ⟨hlnk, hnot⟩ := hserves.leaf hkind
        rw [if_neg hlnk]
        cases hleft : (component path).2 with
        | none =>
          -- the path ends here
          rw [if_neg (by simp)]
          refine ⟨_, rfl, links, node attrs :: stack, [], ⟨hheld, ?_, hrootChain, h.count, rfl,
            fun _ hsome => absurd hsome (Option.not_mem_none _), fun hsome => absurd rfl hsome⟩, ?_,
            fun limit _ hroom => by rw [← hleft]; exact hrest limit hroom⟩
          · rw [← hattrs]
            exact .child hi hparent hchain
          · rw [FileTree.resolve_leaf hord hlookup hkind, FileTree.resolve_nil]
            rfl
        | some rest =>
          rw [if_pos ⟨rfl, hnot⟩]
          obtain ⟨s', hgive⟩ := @giveUp_some W _ _ _ (ops.strdup w (component path).1).2 hheld
          refine ⟨_, hgive, fun limit _ _ => ?_⟩
          have hsome : restParts (some rest) ≠ [] := by
            rw [← hleft]
            exact restParts_ne_nil (by rw [hleft]; exact Option.some_ne_none _)
          rw [FileTree.resolve_leaf hord hlookup hkind, if_neg (by simpa using hsome)]

/-- A round takes a step of the walk. -/
theorem searchRound_sim (hserves : Serves ops T node) (hroot : root ∈ refs) :
    ∃ out, searchRound ops root st path = some out ∧
      out.Walks ops T node root refs st links stack parts := by
  obtain ⟨dir, hdir⟩ := h.held.node List.mem_cons_self
  by_cases hslash : path.head? = some slash
  · exact round_root h hnext hserves hroot hslash
  by_cases hdot : (component path).1 = [dot]
  · refine ⟨_, by rw [searchRound, if_neg hslash, if_pos hdot], round_stays h hnext hslash ?_⟩
    rw [hdot, FileTree.resolve_dot]
  by_cases hdots : (component path).1 = [dot, dot]
  · exact round_up h hnext hroot hdir hslash hdots
  · exact round_entry h hnext hserves hroot hdir hslash ⟨hdot, hdots⟩

end

/-! ## The search -/

/-- How a walk of the loop ends. -/
def Ends (ops : FsOps W) (T : FileTree N UInt8) (node : Attrs → N) (refs : List Nat)
    (next : Option (List UInt8)) (links : Nat) (stack : List N) (parts : List (Part UInt8))
    (s : Inodes) : Option Nat → Prop
  | some x => s.Held (x :: refs) ∧
      ∃ stack', T.resolve slash dot links stack parts = some stack' ∧ Chain node s x stack'
  | none => ∀ limit, Ample ops T node limit → Room limit links next →
      T.resolve slash dot links stack parts = none

/-- The whole loop ends at what the path leads to. -/
theorem searchLoop_sim {rounds : Nat} {w : W} {found : Option Nat} (hserves : Serves ops T node)
    (hroot : root ∈ refs) (h : Sim T node root refs st links stack parts)
    (hrun : searchLoop ops root rounds st = some (w, s, found)) :
    Ends ops T node refs st.next links stack parts s found := by
  induction rounds generalizing st links stack parts with
  | zero => cases hrun
  | succ rounds ih =>
    cases hnext : st.next with
    | none =>
      rw [searchLoop_done hnext] at hrun
      cases hrun
      refine ⟨h.held, stack, ?_, h.chain⟩
      rw [h.parts, hnext]
      exact FileTree.resolve_nil
    | some path =>
      obtain ⟨out, hround, hwalks⟩ := searchRound_sim h hnext hserves hroot
      cases out with
      | notFound w' s' =>
        rw [searchLoop_notFound hnext hround] at hrun
        cases hrun
        rw [← hnext]
        exact hwalks
      | next st' =>
        rw [searchLoop_next hnext hround] at hrun
        obtain ⟨links', stack', parts', hsim, hresolve, hroom⟩ := hwalks
        have hends := ih hsim hrun
        rw [hnext] at hroom
        cases found with
        | none =>
          exact fun limit hample hr => hresolve.trans (hends limit hample (hroom limit hample hr))
        | some x =>
          obtain ⟨hheld, out, hout, hchain⟩ := hends
          exact ⟨hheld, out, hresolve.trans hout, hchain⟩

/-! ## Open files and the current directory -/

/-- Where a name leads from the current directory: `--symlink_count` lets nineteen links be
followed. -/
def walkFrom (T : FileTree N UInt8) (cwd : List N) (name : List UInt8) : Option (List N) :=
  T.resolve slash dot (maxSymlinkCnt - 1) cwd (partsOf slash (cstr name))

/-- The current directory stands for a walk from the root. -/
structure Stands (T : FileTree N UInt8) (node : Attrs → N) (fs : FsState) (cwd : List N) : Prop
    where
  inv : fs.Inv
  root : Chain node fs.inodes fs.root [T.root]
  here : Chain node fs.inodes fs.cwd cwd
  dirs : ∀ n ∈ cwd, T.kind n = .dir

variable {fs fs' : FsState} {cwd : List N} {name : List UInt8} {w w' : W} {rounds : Nat}

/-- The root stays, and the current directory is one whose chain is known. -/
theorem Stands.moved {cwd' : List N} (h : Stands T node fs cwd) (hinv : fs'.Inv)
    (hroot : fs'.root = fs.root) (hhere : Chain node fs.inodes fs'.cwd cwd')
    (hk : Keeps fs.inodes.nextId fs.inodes fs'.inodes) (hdirs : ∀ n ∈ cwd', T.kind n = .dir) :
    Stands T node fs' cwd' := by
  have hlive : ∀ x ∈ fs'.refs, fs'.inodes.node x ≠ none := fun x hx =>
    shape_ne_none.mp (hinv.held.alive x hx)
  refine ⟨hinv, ?_, ?_, hdirs⟩
  · rw [hroot]
    exact h.root.keeps h.inv.held hinv.held hk (hlive _ (hroot ▸ List.mem_cons_self))
  · exact hhere.keeps h.inv.held hinv.held hk
      (hlive _ (List.mem_cons_of_mem _ List.mem_cons_self))

/-- Opening a file leaves the directory where it stands. -/
theorem Stands.opened {rv : Option (Fin maxOpen)} (h : Stands T node fs cwd)
    (ho : Opened fs fs' rv) : Stands T node fs' cwd :=
  h.moved ho.inv ho.root (ho.cwd ▸ h.here) ho.keeps h.dirs

/-- The search starts in the current directory. -/
theorem searchStart_sim (h : Stands T node fs cwd) (hname : cstr name ≠ [])
    {search : Search W} (hstart : searchStart ops w fs name = some search) :
    Sim T node fs.root fs.refs search (maxSymlinkCnt - 1) cwd (partsOf slash (cstr name)) := by
  obtain ⟨hcount, behind, hnext⟩ := searchStart_spec hstart
  obtain ⟨i, -, hstart⟩ := Option.bind_eq_some_iff.mp hstart
  cases hdup : ops.strdup w (cstr name) with
  | mk copy w' =>
    rw [hdup] at hstart
    cases copy with
    | none => cases hstart
    | some behind' =>
      obtain ⟨s, hget, rfl⟩ := Option.map_eq_some_iff.mp hstart
      have hcwd : fs.inodes.node fs.cwd ≠ none :=
        shape_ne_none.mp (h.inv.held.alive _ (List.mem_cons_of_mem _ List.mem_cons_self))
      obtain ⟨s', hget', hheld, hkeeps⟩ := h.inv.held.get hcwd
      rw [hget] at hget'
      cases hget'
      have hlive : ∀ x ∈ fs.cwd :: fs.refs, s.node x ≠ none := fun x hx =>
        shape_ne_none.mp (hheld.alive x hx)
      refine ⟨hheld, ?_, ?_, hcount, ?_, ?_, fun _ => h.dirs⟩
      · exact h.here.keeps h.inv.held hheld (hkeeps _) (hlive _ List.mem_cons_self)
      · exact h.root.keeps h.inv.held hheld (hkeeps _)
          (hlive _ (List.mem_cons_of_mem _ List.mem_cons_self))
      · rw [restParts, Option.elim_some, cstr_start]
      · rintro path ⟨⟩
        rwa [cstr_start]

/-- A link and the name fit into the limit of the source, nineteen times. -/
def Short (limit : Nat) (name : List UInt8) : Prop :=
  (cstr name).length + (maxSymlinkCnt - 1) * (limit + 1) + 1 < 4096

/-- A search finds where the name leads, if anything, and fails only if there is no such place, or
no slot or no memory. -/
def Leads (ops : FsOps W) (T : FileTree N UInt8) (node : Attrs → N) (fs : FsState) (cwd : List N)
    (name : List UInt8) (fs' : FsState) : Option (Fin maxOpen) → Prop
  | some i => ∃ x stack, walkFrom T cwd name = some stack ∧ (fs'.files i).inode = some x ∧
      Chain node fs'.inodes x stack
  | none => ∀ limit, Ample ops T node limit → Short limit name → fs.allocFile ≠ none →
      walkFrom T cwd name = none

/-- The loop is not reached without a slot or without memory. -/
theorem leads_of_no_start {rv : Option (Fin maxOpen)} (h : Stands T node fs cwd)
    (hstart : searchStart ops w fs name = none)
    (hrun : searchdir ops rounds w fs name = some (w', fs', rv)) :
    Leads ops T node fs cwd name fs' rv := by
  rw [searchStart] at hstart
  rw [searchdir] at hrun
  cases halloc : fs.allocFile with
  | none =>
    rw [halloc] at hrun
    cases hrun
    exact fun _ _ _ hslot => absurd halloc hslot
  | some i =>
    rw [halloc] at hstart hrun
    cases hdup : ops.strdup w (cstr name) with
    | mk copy w₁ =>
      dsimp only [Option.bind_some] at hstart hrun
      rw [hdup] at hstart hrun
      cases copy with
      | none =>
        obtain ⟨fs₁, -, heq⟩ := Option.map_eq_some_iff.mp hrun
        cases heq
        exact fun _ hample _ _ => absurd (by rw [hdup]) (hample.strdup w (cstr name))
      | some behind =>
        have hcwd : fs.inodes.node fs.cwd ≠ none :=
          shape_ne_none.mp (h.inv.held.alive _ (List.mem_cons_of_mem _ List.mem_cons_self))
        obtain ⟨s, hget, -⟩ := h.inv.held.get hcwd
        rw [hget] at hstart
        cases hstart

/-- A search finds what the path leads to. -/
theorem searchdir_leads {rv : Option (Fin maxOpen)} (hserves : Serves ops T node)
    (h : Stands T node fs cwd) (hname : cstr name ≠ [])
    (hrun : searchdir ops rounds w fs name = some (w', fs', rv)) :
    Leads ops T node fs cwd name fs' rv := by
  cases hstart : searchStart ops w fs name with
  | none => exact leads_of_no_start h hstart hrun
  | some search =>
    obtain ⟨i, hloop⟩ : ∃ i, searchdir ops rounds w fs name = _ := searchdir_of_start hstart
    rw [hloop] at hrun
    obtain ⟨⟨w₁, s, found⟩, hsearch, hend⟩ := Option.bind_eq_some_iff.mp hrun
    have hends := searchLoop_sim hserves List.mem_cons_self (searchStart_sim h hname hstart) hsearch
    cases found with
    | none =>
      obtain ⟨fs₁, -, heq⟩ := Option.map_eq_some_iff.mp hend
      cases heq
      obtain ⟨-, behind, hnext⟩ := searchStart_spec hstart
      intro limit hample hshort _
      refine hends limit hample ?_
      rw [hnext, Room, Option.elim_some, cstr_start]
      exact hshort
    | some x =>
      cases hend
      obtain ⟨-, stack, hresolve, hchain⟩ := hends
      exact ⟨x, stack, hresolve, by simp [FsState.setFile], hchain⟩

end Liigboot.Vfs
