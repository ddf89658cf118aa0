import Liigboot.Vfs.PathReads
import Liigboot.Vfs.Run

/-!
# The rounds of a path search

Every round of `searchdir` takes a component of the path, or one of the links that may be followed.
A path that is not empty is read up to its end only. The buffer for the target of a link has the
size that the target and the rest of the path need, unless 32 bits do not hold that size.
-/

namespace Liigboot.Vfs

open Inodes

variable {W : Type}

/-! ## Links -/

/-- A call of `readlink`: the size of the link, what remains of the path, and what it returns. -/
structure LinkCall where
  size : UInt32
  next : Option (List UInt8)
  copied : Int
  buf : List UInt8

/-- The target path and a NUL, or the target path, a slash, and the remaining path with its NUL. -/
def LinkCall.needed (call : LinkCall) : Nat :=
  call.size.toNat + 1 + call.next.elim 0 fun rest => (cstr rest).length + 1

/-- The bytes of the buffer: `new_len` as a `size_t`. -/
def LinkCall.allocated (call : LinkCall) : Nat := (newLen call.size call.next % 2 ^ 32).toNat

/-- The call of `readlink` in `followLink`, if there is one. -/
def followCall (ops : FsOps W) (st : Search W) (attrs : Attrs) : Option LinkCall :=
  match ops.readlink with
  | none => none
  | some readlink =>
    let len := newLen attrs.size st.next
    if st.symlinkCount - 1 = 0 ∨ maxSymlinkBuf < len then none
    else
      match ops.malloc st.world len with
      | (false, _) => none
      | (true, w) => some ⟨attrs.size, st.next, (readlink w attrs).1.1, (readlink w attrs).1.2⟩

/-- The call of `readlink` in a round, if there is one. -/
def roundCall (ops : FsOps W) (st : Search W) (path : List UInt8) : Option LinkCall :=
  let name := (component path).1
  let next := (component path).2
  if path.head? = some slash then none
  else if name = [dot] then none
  else
    (st.inodes.node st.inode).bind fun dir =>
      if name = [dot, dot] then none
      else
        match ops.iget st.world name dir.attrs with
        | (none, _) => none
        | (some attrs, w) =>
          if attrs.mode = dtLnk then
            followCall ops ⟨(ops.strdup w name).2, st.inodes, st.inode, st.symlinkCount, next⟩ attrs
          else none

/-! ## Rounds -/

/-- Some rounds lead from a state of the loop to another. -/
inductive Rounds (ops : FsOps W) (root : Nat) : Search W → Search W → Prop
  | refl (st : Search W) : Rounds ops root st st
  | round {st st' st'' : Search W} {path : List UInt8} : Rounds ops root st st' →
      st'.next = some path → searchRound ops root st' path = some (.next st'') →
      Rounds ops root st st''

/-- The state in which `searchdir` comes to its loop. -/
def searchStart (ops : FsOps W) (w : W) (st : FsState) (name : List UInt8) : Option (Search W) :=
  st.allocFile.bind fun _ =>
    match ops.strdup w (cstr name) with
    | (none, _) => none
    | (some behind, w) => (st.inodes.getInode st.cwd).map fun s =>
        ⟨w, s, st.cwd, maxSymlinkCnt, some (cstr name ++ 0 :: behind)⟩

variable {ops : FsOps W} {root : Nat} {w : W} {st st' st'' search : Search W} {path : List UInt8}
  {call : LinkCall} {fs : FsState} {name : List UInt8}

theorem searchStart_spec (h : searchStart ops w fs name = some search) :
    search.symlinkCount = maxSymlinkCnt ∧
      ∃ behind, search.next = some (cstr name ++ 0 :: behind) := by
  obtain ⟨i, -, h⟩ := Option.bind_eq_some_iff.mp h
  cases hdup : ops.strdup w (cstr name) with
  | mk copy w' =>
    rw [hdup] at h
    cases copy with
    | none => cases h
    | some behind =>
      obtain ⟨s, -, rfl⟩ := Option.map_eq_some_iff.mp h
      exact ⟨rfl, behind, rfl⟩

/-- `searchdir` runs its loop from there. -/
theorem searchdir_of_start {rounds : Nat} (h : searchStart ops w fs name = some search) :
    ∃ i, searchdir ops rounds w fs name = (searchLoop ops fs.root rounds search).bind
      (endSearch (fs.setFile i { fs.files i with fs := true }) i) := by
  obtain ⟨i, halloc, h⟩ := Option.bind_eq_some_iff.mp h
  refine ⟨i, ?_⟩
  rw [searchdir, halloc]
  dsimp only
  cases hdup : ops.strdup w (cstr name) with
  | mk copy w' =>
    rw [hdup] at h
    cases copy with
    | none => cases h
    | some behind =>
      obtain ⟨s, hget, rfl⟩ := Option.map_eq_some_iff.mp h
      exact congrArg (Option.bind · _) hget

/-- A round that goes on behind a link has read its target. -/
theorem followLink_next {link : Inode} (h : followLink ops st link = some (.next st')) :
    ∃ call, followCall ops st link.attrs = some call ∧
      st'.next = some (joinPath call.buf call.copied.toNat call.next) ∧ 0 < call.copied ∧
      st'.symlinkCount + 1 = st.symlinkCount ∧ 0 < st'.symlinkCount := by
  rw [followLink] at h
  rw [followCall]
  cases hread : ops.readlink with
  | none =>
    rw [hread] at h
    obtain ⟨s, -, hs⟩ := Option.map_eq_some_iff.mp h
    cases hs
  | some readlink =>
    rw [hread] at h
    dsimp only at h ⊢
    by_cases hlimit : st.symlinkCount - 1 = 0 ∨ maxSymlinkBuf < newLen link.attrs.size st.next
    · rw [if_pos hlimit] at h
      obtain ⟨s, -, hs⟩ := Option.map_eq_some_iff.mp h
      cases hs
    · rw [if_neg hlimit] at h ⊢
      cases hmalloc : ops.malloc st.world (newLen link.attrs.size st.next) with
      | mk got w =>
        rw [hmalloc] at h
        cases got with
        | false =>
          obtain ⟨s, -, hs⟩ := Option.map_eq_some_iff.mp h
          cases hs
        | true =>
          dsimp only at h ⊢
          by_cases hcopied : (readlink w link.attrs).1.1 ≤ 0
          · rw [if_pos hcopied] at h
            obtain ⟨s, -, hs⟩ := Option.map_eq_some_iff.mp h
            cases hs
          · rw [if_neg hcopied] at h
            obtain ⟨parent, -, h⟩ := Option.bind_eq_some_iff.mp h
            obtain ⟨s, -, h⟩ := Option.bind_eq_some_iff.mp h
            obtain ⟨s', -, h⟩ := Option.map_eq_some_iff.mp h
            cases h
            refine ⟨_, rfl, rfl, Int.not_le.mp hcopied, ?_, ?_⟩ <;> dsimp only <;> omega

/-- A fresh inode keeps what the driver filled in. -/
theorem attrs_attach {s s' : Inodes} {attrs : Attrs} {parent : Nat} {name : Option (List UInt8)}
    {i : Inode} (hattach : (s.allocInode attrs).attach s.nextId parent name = some s')
    (hi : s'.node s.nextId = some i) : i.attrs = attrs := by
  obtain ⟨j, hj, rfl⟩ := Option.map_eq_some_iff.mp hattach
  have hfresh : (s.allocInode attrs).node s.nextId = some ⟨none, none, 1, attrs⟩ :=
    Function.update_self _ _ _
  rw [hfresh] at hj
  rw [Inodes.node_set_self] at hi
  rw [← Option.some.inj hi, ← Option.some.inj hj]

/-- What a round that goes on has done: it took a component, or followed a link. -/
theorem searchRound_next (h : searchRound ops root st path = some (.next st')) :
    (st'.next = (component path).2 ∧ st'.symlinkCount = st.symlinkCount) ∨
    ∃ call, roundCall ops st path = some call ∧
      st'.next = some (joinPath call.buf call.copied.toNat call.next) ∧ 0 < call.copied ∧
      st'.symlinkCount + 1 = st.symlinkCount ∧ 0 < st'.symlinkCount := by
  rw [searchRound] at h
  rw [roundCall]
  dsimp only at h ⊢
  split_ifs at h ⊢ with hslash hdot hdots
  · obtain ⟨s, -, h⟩ := Option.bind_eq_some_iff.mp h
    obtain ⟨s', -, h⟩ := Option.map_eq_some_iff.mp h
    cases h
    exact Or.inl ⟨rfl, rfl⟩
  · cases h
    exact Or.inl ⟨rfl, rfl⟩
  · obtain ⟨dir, -, h⟩ := Option.bind_eq_some_iff.mp h
    cases hparent : dir.parent with
    | none =>
      rw [hparent] at h
      cases h
      exact Or.inl ⟨rfl, rfl⟩
    | some parent =>
      rw [hparent] at h
      obtain ⟨s, -, h⟩ := Option.bind_eq_some_iff.mp h
      obtain ⟨s', -, h⟩ := Option.map_eq_some_iff.mp h
      cases h
      exact Or.inl ⟨rfl, rfl⟩
  · obtain ⟨dir, hdir, h⟩ := Option.bind_eq_some_iff.mp h
    rw [hdir, Option.bind_some]
    cases higet : ops.iget st.world (component path).1 dir.attrs with
    | mk found w =>
      rw [higet] at h
      cases found with
      | none =>
        obtain ⟨s, -, hs⟩ := Option.map_eq_some_iff.mp h
        cases hs
      | some attrs =>
        dsimp only at h ⊢
        obtain ⟨s, hattach, h⟩ := Option.bind_eq_some_iff.mp h
        obtain ⟨i, hi, h⟩ := Option.bind_eq_some_iff.mp h
        have hattrs : i.attrs = attrs := attrs_attach hattach hi
        rw [hattrs] at h
        split_ifs at h ⊢ with hlnk hnotDir
        · obtain ⟨call, hcall, hnext, hcopied, hcount, hpos⟩ := followLink_next h
          rw [hattrs] at hcall
          exact Or.inr ⟨call, hcall, hnext, hcopied, hcount, hpos⟩
        · obtain ⟨s, -, hs⟩ := Option.map_eq_some_iff.mp h
          cases hs
        · cases h
          exact Or.inl ⟨rfl, rfl⟩

/-! ## Bounds -/

/-- The buffer is as large as what is needed when 32 bits hold that. -/
theorem LinkCall.allocated_eq (call : LinkCall) : call.allocated = call.needed % 2 ^ 32 := by
  have hlen : newLen call.size call.next = Int.bmod call.needed (2 ^ 32) := rfl
  have hword : Int.bmod call.needed (2 ^ 32) % 2 ^ 32 = (call.needed : Int) % 2 ^ 32 :=
    Int.bmod_emod
  rw [allocated, hlen, hword]
  omega

theorem LinkCall.needed_le_iff : call.needed ≤ call.allocated ↔ call.needed < 2 ^ 32 := by
  rw [call.allocated_eq]
  omega

/-- The path behind a link starts with the target. -/
theorem cstr_joinPath {buf : List UInt8} {copied : Nat} {next : Option (List UInt8)}
    (hcopied : 0 < copied) : cstr (joinPath buf copied next) ≠ [] ↔ buf.headD 0 ≠ 0 := by
  obtain ⟨n, rfl⟩ := Nat.exists_eq_succ_of_ne_zero (Nat.ne_of_gt hcopied)
  cases buf with
  | nil =>
    rw [joinPath, List.nil_append, List.replicate_succ, List.take_succ_cons, List.cons_append,
      List.cons_append, cstr_cons_zero]
    exact iff_of_false (fun h => h rfl) (fun h => h rfl)
  | cons b buf =>
    rw [joinPath, List.cons_append, List.take_succ_cons, List.cons_append, List.cons_append,
      List.headD_cons]
    by_cases hb : b = 0
    · rw [hb, cstr_cons_zero]
      exact iff_of_false (fun h => h rfl) (fun h => h rfl)
    · rw [cstr_cons hb]
      exact iff_of_true (List.cons_ne_nil _ _) hb

/-- The path of the first round is the name. -/
theorem cstr_start {behind : List UInt8} : cstr (cstr name ++ 0 :: behind) = cstr name := by
  rw [cstr_append fun b hb => ne_zero_of_mem_cstr hb, cstr_cons_zero, List.append_nil]

/-- A round follows a link: it reads the target and goes on. -/
def Follows (ops : FsOps W) (root : Nat) (st : Search W) (path : List UInt8) (call : LinkCall) :
    Prop :=
  roundCall ops st path = some call ∧ 0 < call.copied ∧ ∃ st', searchRound ops root st path =
    some (.next st') ∧ st'.next = some (joinPath call.buf call.copied.toNat call.next)

/-- When no link that is followed has an empty target, no path is empty. -/
theorem rounds_nonempty (hstart : searchStart ops w fs name = some search) (hname : cstr name ≠ [])
    (htargets : ∀ st path call, Rounds ops root search st → st.next = some path →
      Follows ops root st path call → call.buf.headD 0 ≠ 0)
    (hrounds : Rounds ops root search st) (hpath : st.next = some path) : cstr path ≠ [] := by
  induction hrounds generalizing path with
  | refl =>
    obtain ⟨-, behind, hnext⟩ := searchStart_spec hstart
    obtain rfl := Option.some.inj (hnext.symm.trans hpath)
    rw [cstr_start]
    exact hname
  | round hrounds hnext hround ih =>
    obtain ⟨htaken, -⟩ | ⟨call, hcall, hjoined, hcopied, -, -⟩ := searchRound_next hround
    · obtain ⟨pre, -, -, hrest⟩ := component_rest (ih hnext) (htaken.symm.trans hpath)
      exact hrest
    · have hhead := htargets _ _ call hrounds hnext ⟨hcall, hcopied, _, hround, hjoined⟩
      obtain rfl := Option.some.inj (hjoined.symm.trans hpath)
      exact (cstr_joinPath (Int.pos_iff_toNat_pos.mp hcopied)).mpr hhead

/-- No round of a search looks behind the end of its path, and every buffer for a target is large
enough, exactly when the name is not empty, no link that is followed has an empty target, and 32
bits hold the size that each call of `readlink` needs. -/
theorem searchdir_bounds_iff (ops : FsOps W) (root : Nat) (w : W) (fs : FsState)
    (name : List UInt8) (search : Search W) (hstart : searchStart ops w fs name = some search) :
    (∀ st path, Rounds ops root search st → st.next = some path →
      roundReads path ≤ (cstr path).length + 1 ∧
      ∀ call, roundCall ops st path = some call → call.needed ≤ call.allocated) ↔
    cstr name ≠ [] ∧ ∀ st path call, Rounds ops root search st → st.next = some path →
      (Follows ops root st path call → call.buf.headD 0 ≠ 0) ∧
      (roundCall ops st path = some call → call.needed < 2 ^ 32) := by
  constructor
  · intro h
    refine ⟨?_, fun st path call hrounds hpath => ⟨?_, fun hcall => ?_⟩⟩
    · obtain ⟨-, behind, hnext⟩ := searchStart_spec hstart
      have hreads := roundReads_le_iff.mp (h search _ (.refl search) hnext).1
      rw [cstr_start] at hreads
      exact hreads
    · rintro ⟨-, hcopied, st', hround, hjoined⟩
      have hreads := roundReads_le_iff.mp (h st' _ (.round hrounds hpath hround) hjoined).1
      exact (cstr_joinPath (Int.pos_iff_toNat_pos.mp hcopied)).mp hreads
    · exact LinkCall.needed_le_iff.mp ((h st path hrounds hpath).2 call hcall)
  · rintro ⟨hname, hlinks⟩ st path hrounds hpath
    refine ⟨roundReads_le_iff.mpr ?_, fun call hcall => ?_⟩
    · exact rounds_nonempty hstart hname (fun st path call hr hp => (hlinks st path call hr hp).1)
        hrounds hpath
    · exact LinkCall.needed_le_iff.mpr ((hlinks st path call hrounds hpath).2 hcall)

/-- A link whose size leaves no room for its NUL in 32 bits. -/
def wrapOps : FsOps Unit where
  strdup w _ := (some [], w)
  malloc w _ := (true, w)
  igetRoot := ⟨dtDir, 0, 1⟩
  iget w _ _ := (some ⟨dtLnk, 0xffffffff, 4⟩, w)
  readlink := some fun w _ => ((1, [100]), w)
  mangleName := id

theorem searchdir_bounds_iff_sample : ∃ fs search,
    searchStart sampleOps () fs [108, 47, 102] = some search ∧
    ((∀ st path, Rounds sampleOps fs.root search st → st.next = some path →
      roundReads path ≤ (cstr path).length + 1 ∧
      ∀ call, roundCall sampleOps st path = some call → call.needed ≤ call.allocated) ↔
    cstr [108, 47, 102] ≠ [] ∧ ∀ st path call, Rounds sampleOps fs.root search st →
      st.next = some path → (Follows sampleOps fs.root st path call → call.buf.headD 0 ≠ 0) ∧
      (roundCall sampleOps st path = some call → call.needed < 2 ^ 32)) := by
  have hsome : ((fsInit sampleOps 9).bind fun fs =>
      searchStart sampleOps () fs [108, 47, 102]).isSome = true := by decide +kernel
  obtain ⟨search, hsearch⟩ := Option.isSome_iff_exists.mp hsome
  obtain ⟨fs, -, hstart⟩ := Option.bind_eq_some_iff.mp hsearch
  exact ⟨fs, search, hstart, searchdir_bounds_iff sampleOps fs.root () fs _ search hstart⟩

/-- The search for an empty name looks behind its end, and the buffer for the target of a large link
has two bytes. -/
theorem searchdir_bounds_fail :
    (¬ ∀ (ops : FsOps Unit) (fs : FsState) (name : List UInt8) (search st : Search Unit)
      (path : List UInt8), searchStart ops () fs name = some search →
        Rounds ops fs.root search st → st.next = some path →
        roundReads path ≤ (cstr path).length + 1) ∧
    ¬ ∀ (ops : FsOps Unit) (fs : FsState) (name : List UInt8) (search st : Search Unit)
      (path : List UInt8) (call : LinkCall), searchStart ops () fs name = some search →
        Rounds ops fs.root search st → st.next = some path → roundCall ops st path = some call →
        call.needed ≤ call.allocated := by
  constructor
  · intro h
    have hreads : ((fsInit sampleOps 9).bind fun fs => (searchStart sampleOps () fs []).bind
        fun search => search.next.map fun path => (roundReads path, (cstr path).length)) =
        some (2, 0) := by
      decide +kernel
    obtain ⟨fs, -, hreads⟩ := Option.bind_eq_some_iff.mp hreads
    obtain ⟨search, hstart, hreads⟩ := Option.bind_eq_some_iff.mp hreads
    obtain ⟨path, hpath, hreads⟩ := Option.map_eq_some_iff.mp hreads
    obtain ⟨htwo, hzero⟩ := Prod.mk.inj hreads
    have hle := h sampleOps fs [] search search path hstart (.refl search) hpath
    rw [htwo, hzero] at hle
    omega
  · intro h
    have hsizes : ((fsInit wrapOps 9).bind fun fs =>
        (searchStart wrapOps () fs [108, 47, 102]).bind fun search => search.next.bind fun path =>
          (roundCall wrapOps search path).map fun call => (call.needed, call.allocated)) =
        some (4294967298, 2) := by
      decide +kernel
    obtain ⟨fs, -, hsizes⟩ := Option.bind_eq_some_iff.mp hsizes
    obtain ⟨search, hstart, hsizes⟩ := Option.bind_eq_some_iff.mp hsizes
    obtain ⟨path, hpath, hsizes⟩ := Option.bind_eq_some_iff.mp hsizes
    obtain ⟨call, hcall, hsizes⟩ := Option.map_eq_some_iff.mp hsizes
    obtain ⟨hneeded, hallocated⟩ := Prod.mk.inj hsizes
    have hle := h wrapOps fs _ search search path call hstart (.refl search) hpath hcall
    rw [hneeded, hallocated] at hle
    omega

/-! ## Termination -/

/-- Rounds do not give links back, and leave one at least. -/
theorem Rounds.count (h : Rounds ops root st st') (hpos : 0 < st.symlinkCount) :
    0 < st'.symlinkCount ∧ st'.symlinkCount ≤ st.symlinkCount := by
  induction h with
  | refl => exact ⟨hpos, Nat.le_refl _⟩
  | round _ _ hround ih =>
    obtain ⟨-, hsame⟩ | ⟨-, -, -, -, hless, hleft⟩ := searchRound_next hround <;> omega

/-- `readlink` returns what its call has. -/
theorem roundCall_returns (h : roundCall ops st path = some call) :
    ∃ readlink w attrs, ops.readlink = some readlink ∧
      (readlink w attrs).1 = (call.copied, call.buf) := by
  rw [roundCall] at h
  split_ifs at h with hslash hdot hdots
  · obtain ⟨dir, -, h⟩ := Option.bind_eq_some_iff.mp h
    cases h
  obtain ⟨dir, -, h⟩ := Option.bind_eq_some_iff.mp h
  cases higet : ops.iget st.world (component path).1 dir.attrs with
  | mk found w =>
    rw [higet] at h
    cases found with
    | none => cases h
    | some attrs =>
      dsimp only at h
      split_ifs at h
      rw [followCall] at h
      cases hread : ops.readlink with
      | none =>
        rw [hread] at h
        cases h
      | some readlink =>
        rw [hread] at h
        dsimp only at h
        split_ifs at h
        split at h
        · cases h
        · cases h
          exact ⟨readlink, _, attrs, rfl, rfl⟩

/-- From every state that a run reaches, the search for a name that is not empty ends when no link
that is followed has an empty target: every round that goes on takes one component of the path, or
one of the links, of which there are twenty. -/
theorem searchdir_terminates (ops : FsOps W) (w : W) (fs : FsState) (hr : Reachable ops fs)
    (name : List UInt8) (hname : cstr name ≠ [])
    (htargets : ∀ search st path call, searchStart ops w fs name = some search →
      Rounds ops fs.root search st → st.next = some path →
      Follows ops fs.root st path call → call.buf.headD 0 ≠ 0) :
    (∃ rounds r, searchdir ops rounds w fs name = some r) ∧
    ∀ search st path st', searchStart ops w fs name = some search →
      Rounds ops fs.root search st → st.next = some path →
      searchRound ops fs.root st path = some (.next st') →
      (st'.symlinkCount = st.symlinkCount ∧
          componentsLeft st'.next + 1 = componentsLeft st.next ∨
        st'.symlinkCount + 1 = st.symlinkCount) ∧
      0 < st'.symlinkCount ∧ st.symlinkCount ≤ maxSymlinkCnt := by
  refine ⟨searchdir_returns ops w name hr.inv, ?_⟩
  intro search st path st' hstart hrounds hpath hround
  obtain ⟨hcount, -⟩ := searchStart_spec hstart
  obtain ⟨hpos, hle⟩ := hrounds.count (by rw [hcount]; decide)
  have hnonempty : cstr path ≠ [] :=
    rounds_nonempty hstart hname (fun st path call => htargets search st path call hstart) hrounds
      hpath
  rw [hcount] at hle
  obtain ⟨hnext, hsame⟩ | ⟨-, -, -, -, hless, hleft⟩ := searchRound_next hround
  · refine ⟨Or.inl ⟨hsame, ?_⟩, hsame ▸ hpos, hle⟩
    rw [hnext, hpath, component_takes hnonempty, componentsLeft, Option.elim_some]
  · exact ⟨Or.inr hless, hleft, hle⟩

theorem searchdir_terminates_sample : ∃ fs, Reachable sampleOps fs ∧
    (∃ rounds r, searchdir sampleOps rounds () fs [108, 47, 102] = some r) ∧
    ∀ search st path st', searchStart sampleOps () fs [108, 47, 102] = some search →
      Rounds sampleOps fs.root search st → st.next = some path →
      searchRound sampleOps fs.root st path = some (.next st') →
      (st'.symlinkCount = st.symlinkCount ∧
          componentsLeft st'.next + 1 = componentsLeft st.next ∨
        st'.symlinkCount + 1 = st.symlinkCount) ∧
      0 < st'.symlinkCount ∧ st.symlinkCount ≤ maxSymlinkCnt := by
  obtain ⟨fs, hinit, -⟩ := fsInit_inv sampleOps 9
  have hr : Reachable sampleOps fs := Reachable.init hinit
  refine ⟨fs, hr, searchdir_terminates sampleOps () fs hr [108, 47, 102] (by decide) ?_⟩
  rintro search st path call - - - ⟨hcall, -⟩
  obtain ⟨readlink, w, attrs, hread, hreturns⟩ := roundCall_returns hcall
  obtain rfl := Option.some.inj hread
  rw [← (Prod.mk.inj hreturns).2]
  decide

end Liigboot.Vfs
