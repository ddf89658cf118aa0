import Liigboot.Vfs.Resolve
import Liigboot.Vfs.Run

/-!
# Where the calls lead

In a run from `fs_init` on, the current directory is where the names that `chdir` was called with
lead, one behind the other, from the root of the tree that the driver serves. Each search starts
there.
-/

namespace Liigboot.Vfs

open Inodes

variable {W N : Type} {ops : FsOps W} {T : FileTree N UInt8} {node : Attrs → N} {cwd : List N}
  {st st' : FsState} {name : List UInt8} {rounds : Nat} {w w' : W} {c : Call} {ok : Bool}

/-- A directory to change to has a name. -/
def Call.Named : Call → Prop
  | .chdir src => cstr src ≠ []
  | _ => True

/-- The current directory after a call. -/
def Call.moves (T : FileTree N UInt8) (cwd : List N) : Call × Bool → Option (List N)
  | (.chdir src, true) => walkFrom T cwd src
  | _ => some cwd

/-- The runs that start with `fs_init`: the calls, with what they returned, and the state that they
leave. -/
inductive Runs (ops : FsOps W) : List (Call × Bool) → FsState → Prop
  | init {sectorShift : Nat} {st : FsState} : fsInit ops sectorShift = some st → Runs ops [] st
  | call {calls : List (Call × Bool)} {st st' : FsState} {c : Call} {rounds : Nat} {w w' : W}
      {ok : Bool} : Runs ops calls st → c.Valid → c.Named →
      st.call ops rounds w c = some (w', st', ok) → Runs ops (calls ++ [(c, ok)]) st'

/-! ## One call -/

theorem Stands.closeFile {handle : Nat} (h : Stands T node st cwd) (hv : handle ≤ maxOpen)
    (hclose : st.closeFile handle = some st') : Stands T node st' cwd := by
  rw [FsState.closeFile] at hclose
  split_ifs at hclose with hzero
  · cases hclose
    exact h
  · rw [FsState.handleToFile, dif_pos ⟨Nat.pos_of_ne_zero hzero, hv⟩, Option.bind_some] at hclose
    obtain ⟨s, heq, hinv, hkeeps⟩ := h.inv.close ⟨handle - 1, by omega⟩
    rw [heq] at hclose
    cases hclose
    exact h.moved hinv rfl h.here (hkeeps _) h.dirs

theorem Stands.searchMode {mode : Int} {rv : Option (Fin maxOpen × Nat × Attrs)}
    (h : Stands T node st cwd) (hrun : searchMode ops rounds w st mode name = some (w', st', rv)) :
    Stands T node st' cwd :=
  h.opened (searchMode_opened h.inv hrun).1

/-- What `searchMode` finds is what `searchdir` found, and it has the type. -/
theorem searchMode_found {mode : Int} {i : Fin maxOpen} {x : Nat} {attrs : Attrs}
    (hrun : Vfs.searchMode ops rounds w st mode name = some (w', st', some (i, x, attrs))) :
    searchdir ops rounds w st name = some (w', st', some i) ∧
      (st'.files i).inode = some x ∧ ∃ inode, st'.inodes.node x = some inode ∧
        inode.attrs.mode = mode := by
  obtain ⟨⟨w₁, st₁, rv⟩, hsearch, hmode⟩ := Option.bind_eq_some_iff.mp hrun
  cases rv with
  | none => cases hmode
  | some j =>
    obtain ⟨y, hfile, hmode⟩ := Option.bind_eq_some_iff.mp hmode
    obtain ⟨inode, hinode, hmode⟩ := Option.bind_eq_some_iff.mp hmode
    split_ifs at hmode with hne
    · obtain ⟨st₂, -, heq⟩ := Option.map_eq_some_iff.mp hmode
      cases heq
    · cases hmode
      exact ⟨hsearch, hfile, inode, hinode, not_not.mp hne⟩

/-- The new directory is where the name leads. -/
theorem Stands.chdir (hserves : Serves ops T node) (h : Stands T node st cwd)
    (hname : cstr name ≠ []) (hrun : chdir ops rounds w st name = some (w', st', ok)) :
    ∃ cwd', Call.moves T cwd (.chdir name, ok) = some cwd' ∧ Stands T node st' cwd' := by
  obtain ⟨⟨w₁, st₁, rv⟩, hsearch, henter⟩ := Option.bind_eq_some_iff.mp hrun
  have h₁ : Stands T node st₁ cwd := h.searchMode hsearch
  cases rv with
  | none =>
    cases henter
    exact ⟨cwd, rfl, h₁⟩
  | some found =>
    obtain ⟨i, x, attrs⟩ := found
    obtain ⟨hfound, hfile, inode, hinode, hmode⟩ := searchMode_found hsearch
    obtain ⟨y, stack, hwalk, hy, hchain⟩ := searchdir_leads hserves h hname hfound
    obtain rfl : x = y := Option.some.inj (hfile.symm.trans hy)
    obtain ⟨s₁, s₂, st₂, hput, hget, hclose, hinv, hroot, hcwd, hkeeps⟩ := enter_dir h₁.inv hfile
    dsimp only at henter
    rw [hput, Option.bind_some, hget, Option.bind_some, hclose, Option.map_some] at henter
    cases henter
    refine ⟨stack, hwalk, h₁.moved hinv hroot (hcwd ▸ hchain) (hkeeps _) fun n hn => ?_⟩
    -- the last one is a directory because `chdir` looks at it, the others because the walk
    -- came through them
    obtain ⟨j, hj, hhead⟩ := hchain.head
    rw [hinode] at hj
    cases hj
    obtain ⟨front, rfl⟩ : ∃ front, stack = node inode.attrs :: front :=
      ⟨stack.tail, List.eq_cons_of_mem_head? hhead⟩
    rcases List.mem_cons.mp hn with rfl | hn
    · exact (hserves.dir _).mp hmode
    · exact FileTree.resolve_dirs hserves.rootDir h.dirs hwalk n hn

/-- A call moves the current directory as its name says. -/
theorem Stands.call (hserves : Serves ops T node) (h : Stands T node st cwd) (hv : c.Valid)
    (hnamed : c.Named) (hcall : st.call ops rounds w c = some (w', st', ok)) :
    ∃ cwd', Call.moves T cwd (c, ok) = some cwd' ∧ Stands T node st' cwd' := by
  cases c with
  | searchdir name =>
    obtain ⟨⟨w₁, st₁, rv⟩, hrun, heq⟩ := Option.map_eq_some_iff.mp hcall
    cases heq
    exact ⟨cwd, rfl, h.opened (searchdir_opened h.inv hrun)⟩
  | openFile name | opendir name =>
    obtain ⟨⟨w₁, st₁, rv⟩, hrun, heq⟩ := Option.map_eq_some_iff.mp hcall
    cases heq
    obtain ⟨⟨w₂, st₂, rv₂⟩, hmode, heq⟩ := Option.map_eq_some_iff.mp hrun
    rcases rv₂ with _ | ⟨i, x, attrs⟩
    · cases heq
      exact ⟨cwd, rfl, h.searchMode hmode⟩
    · cases heq
      exact ⟨cwd, rfl, h.searchMode hmode⟩
  | chdir src => exact h.chdir hserves hnamed hcall
  | closeFile handle =>
    obtain ⟨st₁, hclose, heq⟩ := Option.map_eq_some_iff.mp hcall
    cases heq
    exact ⟨cwd, rfl, h.closeFile hv hclose⟩

/-! ## Runs -/

theorem stands_init {sectorShift : Nat} (hserves : Serves ops T node)
    (hinit : fsInit ops sectorShift = some st) : Stands T node st [T.root] := by
  obtain ⟨st₁, hinit₁, hinv⟩ := fsInit_inv ops sectorShift
  rw [hinit₁] at hinit
  cases hinit
  obtain ⟨s, hget, rfl⟩ := Option.map_eq_some_iff.mp hinit₁
  obtain ⟨i, hi, rfl⟩ := Option.map_eq_some_iff.mp hget
  have hfresh : (allocInode ⟨fun _ => none, 0⟩ ops.igetRoot).node 0 =
      some ⟨none, none, 1, ops.igetRoot⟩ := by
    simp only [allocInode, Function.update_self]
  rw [hfresh] at hi
  cases hi
  have hroot : ((allocInode ⟨fun _ => none, 0⟩ ops.igetRoot).set 0
      (some ⟨none, none, 1 + 1, ops.igetRoot⟩)).node 0 =
        some ⟨none, none, 1 + 1, ops.igetRoot⟩ := node_set_self
  have htop : Chain node _ 0 [node ops.igetRoot] := .top hroot rfl
  rw [hserves.root] at htop
  exact ⟨hinv, htop, htop, List.forall_mem_singleton.mpr hserves.rootDir⟩

theorem Runs.stands {calls : List (Call × Bool)} (hserves : Serves ops T node)
    (hr : Runs ops calls st) :
    ∃ cwd, calls.foldlM (Call.moves T) [T.root] = some cwd ∧ Stands T node st cwd := by
  induction hr with
  | init hinit => exact ⟨_, rfl, stands_init hserves hinit⟩
  | call _ hv hnamed hcall ih =>
    obtain ⟨cwd, hcalls, h⟩ := ih
    obtain ⟨cwd', hmoves, h'⟩ := h.call hserves hv hnamed hcall
    refine ⟨cwd', ?_, h'⟩
    rw [List.foldlM_append, hcalls]
    simpa using hmoves

/-- In every run the current directory is where the calls of `chdir` that succeeded lead in the
tree, and a search finds what its name leads to from there. -/
theorem runs_lead {calls : List (Call × Bool)} (hserves : Serves ops T node)
    (hr : Runs ops calls st) : ∃ cwd, calls.foldlM (Call.moves T) [T.root] = some cwd ∧
      Chain node st.inodes st.cwd cwd ∧ ∀ name rounds w w' st' rv, cstr name ≠ [] →
        searchdir ops rounds w st name = some (w', st', rv) →
          Leads ops T node st cwd name st' rv := by
  obtain ⟨cwd, hcalls, h⟩ := hr.stands hserves
  exact ⟨cwd, hcalls, h.here, fun name rounds w w' st' rv hname hrun =>
    searchdir_leads hserves h hname hrun⟩

/-- The attributes of the inodes, as the nodes of a tree. -/
def sampleTree : FileTree Attrs UInt8 where
  root := sampleOps.igetRoot
  kind a :=
    if a.mode = dtDir then .dir
    else if a.mode = dtReg then .file
    else if a.mode = dtLnk then .link [100]
    else .other
  lookup a name := (sampleOps.iget () name a).1

theorem sample_serves : Serves sampleOps sampleTree id where
  root := rfl
  rootDir := rfl
  dir a := by
    dsimp only [sampleTree, id]
    split_ifs with hdir <;> simp [hdir]
  file a := by
    dsimp only [sampleTree, id]
    split_ifs with hdir hreg <;> simp_all [dtDir, dtReg]
  link a := by
    dsimp only [sampleTree, id]
    split_ifs with hdir hreg hlnk <;> simp_all [dtDir, dtReg, dtLnk]
  text x target hkind := by
    dsimp only [sampleTree] at hkind
    split_ifs at hkind
    cases hkind
    decide
  iget w name a found w' _ higet := congrArg Prod.fst higet
  readlink read w a target hread hkind _ := by
    cases hread
    dsimp only [sampleTree, id] at hkind
    split_ifs at hkind
    cases hkind
    exact ⟨rfl, List.prefix_refl _⟩

/-- After `chdir` to the link `l`, the current directory is `d`, and `f` is found there. -/
theorem runs_lead_sample : ∃ st cwd, Runs sampleOps [(.chdir [108], true)] st ∧
    walkFrom sampleTree [sampleTree.root] [108] = some cwd ∧ Chain id st.inodes st.cwd cwd ∧
      ∃ st' i, Leads sampleOps sampleTree id st cwd [102] st' (some i) := by
  have hrun : ((fsInit sampleOps 9).bind fun st₀ =>
      (st₀.call sampleOps 10 () (.chdir [108])).bind fun r =>
        (searchdir sampleOps 10 () r.2.1 [102]).map fun r' => (r, r')).map (fun r =>
          (r.1.2.2, r.2.2.2)) = some (true, some ⟨0, by decide⟩) := by
    decide +kernel
  obtain ⟨⟨⟨w, st, ok⟩, w', st', rv⟩, hcalls, hresult⟩ := Option.map_eq_some_iff.mp hrun
  obtain ⟨st₀, hinit, hcalls⟩ := Option.bind_eq_some_iff.mp hcalls
  obtain ⟨⟨w₁, st₁, ok₁⟩, hchdir, hcalls⟩ := Option.bind_eq_some_iff.mp hcalls
  obtain ⟨⟨w₂, st₂, rv₂⟩, hsearch, heq⟩ := Option.map_eq_some_iff.mp hcalls
  cases heq
  cases hresult
  have hnamed : cstr [108] ≠ [] := by decide
  have hr : Runs sampleOps [(.chdir [108], true)] st :=
    (Runs.init hinit).call trivial hnamed hchdir
  obtain ⟨cwd, hcwd, hchain, hleads⟩ := runs_lead sample_serves hr
  have hmoves : Call.moves sampleTree [sampleTree.root] (.chdir [108], true) = some cwd := by
    simpa using hcwd
  refine ⟨st, cwd, hr, hmoves, hchain, st', ⟨0, by decide⟩, ?_⟩
  exact hleads _ _ _ _ _ _ (by decide) hsearch

end Liigboot.Vfs
