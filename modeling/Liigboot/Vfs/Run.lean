import Liigboot.Vfs.Open

/-!
# Runs of the file layer

From `fs_init` on, paths are searched, files and directories opened, handles closed
and the current directory changed, in any order and with any answers of the driver.
In every state such a run reaches, the count of an inode is the number of its holders,
and an inode is in memory as long as it has one.
-/

namespace Liigboot.Vfs

/-- What the rest of the program calls. -/
inductive Call
  | searchdir (name : List UInt8)
  | openFile (name : List UInt8)
  | opendir (path : List UInt8)
  | chdir (src : List UInt8)
  | closeFile (handle : Nat)
  deriving DecidableEq, Repr

/-- A handle is zero or names a slot of the table, whether that is in use or not. -/
def Call.Valid : Call → Prop
  | .closeFile handle => handle ≤ maxOpen
  | _ => True

variable {W : Type}

/-- A call, with the world that the driver and the allocator find; the flag says whether it
succeeded. -/
def FsState.call (ops : FsOps W) (rounds : Nat) (w : W) (st : FsState) :
    Call → Option (W × FsState × Bool)
  | .searchdir name => (Vfs.searchdir ops rounds w st name).map fun (w, st, rv) =>
      (w, st, rv.isSome)
  | .openFile name => (Vfs.openFile ops rounds w st name).map fun (w, st, rv) =>
      (w, st, rv.isSome)
  | .opendir path => (Vfs.opendir ops rounds w st path).map fun (w, st, rv) => (w, st, rv.isSome)
  | .chdir src => Vfs.chdir ops rounds w st src
  | .closeFile handle => (st.closeFile handle).map fun st => (w, st, true)

/-- The states of the runs that start with `fs_init`. Between two calls the world may change. -/
inductive Reachable (ops : FsOps W) : FsState → Prop
  | init {sectorShift : Nat} {st : FsState} : fsInit ops sectorShift = some st → Reachable ops st
  | call {st st' : FsState} {c : Call} {rounds : Nat} {w w' : W} {ok : Bool} :
      Reachable ops st → c.Valid → st.call ops rounds w c = some (w', st', ok) → Reachable ops st'

/-- The holders of an inode: the open files, the current directory, the root and the live
children. -/
def FsState.holders (st : FsState) (x : Nat) : Nat :=
  ((List.finRange maxOpen).countP fun i => (st.files i).inode = some x) +
    (if st.cwd = x then 1 else 0) + (if st.root = x then 1 else 0) +
    (List.range st.inodes.nextId).countP fun y => (st.inodes.node y).bind Inode.parent = some x

/-- Every count is the number of holders, and what is in memory is what has a holder. -/
structure Sound (st : FsState) : Prop where
  refcnt : ∀ x i, st.inodes.node x = some i → i.refcnt = st.holders x
  freed : ∀ x, st.inodes.node x = none ↔ st.holders x = 0

variable {ops : FsOps W} {st st' : FsState} {rounds : Nat} {w w' : W} {c : Call} {ok : Bool}

theorem FsState.holders_eq (st : FsState) (x : Nat) :
    st.holders x = st.refs.count x + children st.inodes.shape st.inodes.nextId x := by
  have hfiles : ((List.finRange maxOpen).filterMap fun i => (st.files i).inode).count x =
      (List.finRange maxOpen).countP fun i => (st.files i).inode = some x := by
    rw [List.count_filterMap]
    exact List.countP_congr fun i _ => by simp
  have hchildren : children st.inodes.shape st.inodes.nextId x =
      (List.range st.inodes.nextId).countP fun y =>
        (st.inodes.node y).bind Inode.parent = some x := by
    refine List.countP_congr fun y _ => ?_
    simp only [decide_eq_true_eq, Inodes.shape, Option.map_eq_some_iff, Option.bind_eq_some_iff]
  rw [holders, refs, List.count_cons, List.count_cons, hfiles, hchildren]
  simp only [beq_iff_eq]

theorem FsState.Inv.sound (hi : st.Inv) : Sound st := by
  refine ⟨fun x i hx => ?_, fun x => ⟨fun hx => ?_, fun hzero => ?_⟩⟩
  · have hlive : st.inodes.shape x ≠ none :=
      Inodes.shape_ne_none.mpr (by rw [hx]; exact Option.some_ne_none i)
    rw [st.holders_eq, ← Inodes.refcnt_eq hx, hi.held.count x hlive]
    exact (Int.natCast_add _ _).symm
  · rw [st.holders_eq]
    exact Counted.dead hi.held (by rw [Inodes.shape, hx, Option.map_none])
  · by_contra hx
    have hlive := Inodes.shape_ne_none.mpr hx
    have hpos := hi.held.held x hlive
    have hcount := hi.held.count x hlive
    rw [st.holders_eq] at hzero
    omega

/-! ## One call -/

theorem FsState.Inv.closeFile (hi : st.Inv) {handle : Nat} (hv : handle ≤ maxOpen) :
    ∃ st', st.closeFile handle = some st' ∧ st'.Inv := by
  rw [FsState.closeFile]
  split_ifs with hzero
  · exact ⟨st, rfl, hi⟩
  · rw [FsState.handleToFile, dif_pos ⟨Nat.pos_of_ne_zero hzero, hv⟩, Option.bind_some]
    obtain ⟨s, hclose, hinv, -⟩ := hi.close ⟨handle - 1, by omega⟩
    exact ⟨_, hclose, hinv⟩

/-- A call keeps the invariant, and one that fails changes nothing. -/
theorem FsState.Inv.call (hi : st.Inv) (hv : c.Valid)
    (hcall : st.call ops rounds w c = some (w', st', ok)) :
    st'.Inv ∧ (ok = false → Unchanged st st') := by
  have hopened : ∀ {rv : Option (Fin maxOpen)}, Opened st st' rv → rv.isSome = ok →
      st'.Inv ∧ (ok = false → Unchanged st st') := by
    rintro rv h rfl
    refine ⟨h.inv, fun hfail => Opened.unchanged hi ?_⟩
    rwa [Option.isSome_eq_false_iff.mp hfail |> Option.isNone_iff_eq_none.mp] at h
  cases c with
  | searchdir name =>
    obtain ⟨⟨w₁, st₁, rv⟩, hrun, heq⟩ := Option.map_eq_some_iff.mp hcall
    cases heq
    exact hopened (searchdir_opened hi hrun) rfl
  | openFile name =>
    obtain ⟨⟨w₁, st₁, rv⟩, hrun, heq⟩ := Option.map_eq_some_iff.mp hcall
    cases heq
    obtain ⟨⟨w₂, st₂, rv₂⟩, hmode, heq⟩ := Option.map_eq_some_iff.mp hrun
    rcases rv₂ with _ | ⟨i, x, attrs⟩
    · cases heq
      exact hopened (searchMode_opened hi hmode).1 rfl
    · cases heq
      exact hopened (searchMode_opened hi hmode).1 rfl
  | opendir path =>
    obtain ⟨⟨w₁, st₁, rv⟩, hrun, heq⟩ := Option.map_eq_some_iff.mp hcall
    cases heq
    obtain ⟨⟨w₂, st₂, rv₂⟩, hmode, heq⟩ := Option.map_eq_some_iff.mp hrun
    rcases rv₂ with _ | ⟨i, x, attrs⟩
    · cases heq
      exact hopened (searchMode_opened hi hmode).1 rfl
    · cases heq
      exact hopened (searchMode_opened hi hmode).1 rfl
  | chdir src => exact chdir_inv hi hcall
  | closeFile handle =>
    obtain ⟨st₁, hclose, hinv⟩ := hi.closeFile hv
    rw [FsState.call, hclose] at hcall
    cases hcall
    exact ⟨hinv, fun h => nomatch h⟩

theorem FsState.Inv.call_returns (ops : FsOps W) (w : W) (hi : st.Inv) (hv : c.Valid) :
    ∃ rounds r, st.call ops rounds w c = some r := by
  cases c with
  | searchdir name =>
    obtain ⟨rounds, r, hr⟩ := searchdir_returns ops w name hi
    exact ⟨rounds, _, congrArg (Option.map _) hr⟩
  | openFile name =>
    obtain ⟨rounds, r, hr⟩ := searchMode_returns ops w dtReg (ops.mangleName name) hi
    exact ⟨rounds, _, congrArg (Option.map _) (congrArg (Option.map _) hr)⟩
  | opendir path =>
    obtain ⟨rounds, r, hr⟩ := searchMode_returns ops w dtDir path hi
    exact ⟨rounds, _, congrArg (Option.map _) (congrArg (Option.map _) hr)⟩
  | chdir src => exact chdir_returns ops w src hi
  | closeFile handle =>
    obtain ⟨st₁, hclose, -⟩ := hi.closeFile hv
    exact ⟨0, _, congrArg (Option.map _) hclose⟩

/-! ## Runs -/

theorem Reachable.inv (hr : Reachable ops st) : st.Inv := by
  induction hr with
  | @init sectorShift st hinit =>
    obtain ⟨st', hinit', hinv⟩ := fsInit_inv ops sectorShift
    rw [hinit'] at hinit
    cases hinit
    exact hinv
  | call _ hv hcall ih => exact (ih.call hv hcall).1

/-- In every state that a run reaches the counts are right; a call returns, and a search, an
open or a change of the directory that fails leaves every inode and the table of open files
as they were. -/
theorem refcounts_sound (hr : Reachable ops st) :
    Sound st ∧ ∀ c : Call, c.Valid → ∀ w, (∃ rounds r, st.call ops rounds w c = some r) ∧
      ∀ rounds w' st', st.call ops rounds w c = some (w', st', false) → Unchanged st st' := by
  refine ⟨hr.inv.sound, fun c hv w => ⟨hr.inv.call_returns ops w hv, ?_⟩⟩
  intro rounds w' st' hcall
  exact (hr.inv.call hv hcall).2 rfl

/-- A directory `d` with a file `f`, and a link `l` to the directory. -/
def sampleOps : FsOps Unit where
  strdup w _ := (some [], w)
  malloc w _ := (true, w)
  igetRoot := ⟨dtDir, 0, 1⟩
  iget w name dir :=
    (if dir.ino = 1 ∧ name = [100] then some ⟨dtDir, 0, 2⟩
      else if dir.ino = 2 ∧ name = [102] then some ⟨dtReg, 7, 3⟩
      else if dir.ino = 1 ∧ name = [108] then some ⟨dtLnk, 1, 4⟩
      else none, w)
  readlink := some fun w _ => ((1, [100]), w)
  mangleName := id

/-- Opening `l/f`: the inode of the link is gone, and the root has one holder more. Then a
search for `x` fails. -/
theorem refcounts_sound_openLink :
    ∃ st st' : FsState, (List.range 4).map (fun x => (st.inodes.node x).map Inode.refcnt) =
      [some 3, none, some 1, some 1] ∧ Sound st ∧ Unchanged st st' := by
  have hrun : ((fsInit sampleOps 9).bind fun st₀ =>
      (st₀.call sampleOps 10 () (.openFile [108, 47, 102])).bind fun r =>
        (r.2.1.call sampleOps 10 () (.searchdir [120])).map fun r' => (r, r')).map (fun r =>
          ((List.range 4).map fun x => (r.1.2.1.inodes.node x).map Inode.refcnt, r.2.2.2)) =
      some ([some 3, none, some 1, some 1], false) := by
    decide +kernel
  obtain ⟨⟨⟨w, st, ok⟩, r'⟩, hcalls, hresult⟩ := Option.map_eq_some_iff.mp hrun
  obtain ⟨hcounts, hok⟩ := Prod.ext_iff.mp hresult
  obtain ⟨st₀, hinit, hcalls⟩ := Option.bind_eq_some_iff.mp hcalls
  obtain ⟨⟨w₁, st₁, ok₁⟩, hopen, hcalls⟩ := Option.bind_eq_some_iff.mp hcalls
  obtain ⟨⟨w', st', ok'⟩, hsearch, heq⟩ := Option.map_eq_some_iff.mp hcalls
  cases heq
  obtain rfl : ok' = false := hok
  have hv₀ : (Call.openFile [108, 47, 102]).Valid := trivial
  have hr : Reachable sampleOps st := (Reachable.init hinit).call hv₀ hopen
  have hv : (Call.searchdir [120]).Valid := trivial
  exact ⟨st, st', hcounts, (refcounts_sound hr).1,
    ((refcounts_sound hr).2 _ hv ()).2 10 w' st' hsearch⟩

end Liigboot.Vfs
