import Liigboot.Vfs.SearchDir
import Mathlib.Data.List.FinRange

/-!
# Open files and the current directory

The callers of the path search: `searchdir` with its slot in the table of open files,
`open_file`, `opendir`, `chdir`, `close_file`, and `fs_init`.
-/

namespace Liigboot.Vfs

open Inodes

def maxOpen : Nat := 32

structure File where
  /-- Set while the slot is in use, where the source points to the file system. -/
  fs : Bool
  offset : Nat
  inode : Option Nat
  deriving DecidableEq, Repr

/-- `memset(file, 0, sizeof *file)`. -/
def File.clear : File := ⟨false, 0, none⟩

/-- `this_fs` and `files`. -/
structure FsState where
  inodes : Inodes
  root : Nat
  cwd : Nat
  sectorShift : Nat
  files : Fin maxOpen → File

variable {W : Type}

namespace FsState

def setFile (st : FsState) (i : Fin maxOpen) (file : File) : FsState :=
  { st with files := Function.update st.files i file }

def allocFile (st : FsState) : Option (Fin maxOpen) :=
  (List.finRange maxOpen).find? fun i => !(st.files i).fs

/-- `generic_close_file`; the offset it clears is cleared again by its caller. -/
def genericCloseFile (s : Inodes) (file : File) : Option Inodes :=
  match file.inode with
  | none => some s
  | some x => s.putInode x

/-- `_close_file`. -/
def closeFileAt (st : FsState) (i : Fin maxOpen) : Option FsState :=
  (if (st.files i).fs then genericCloseFile st.inodes (st.files i) else some st.inodes).map
    fun s => { st with inodes := s }.setFile i .clear

/-- A handle is one more than an index of the table. -/
def handleToFile (handle : Nat) : Option (Fin maxOpen) :=
  if h : 0 < handle ∧ handle ≤ maxOpen then some ⟨handle - 1, by omega⟩ else none

def closeFile (st : FsState) (handle : Nat) : Option FsState :=
  if handle = 0 then some st else (handleToFile handle).bind st.closeFileAt

end FsState

/-- The end of `searchdir`: the slot gets the inode that was found, or is closed. -/
def endSearch (st : FsState) (i : Fin maxOpen) :
    W × Inodes × Option Nat → Option (W × FsState × Option (Fin maxOpen))
  | (w, s, none) => ({ st with inodes := s }.closeFileAt i).map fun st => (w, st, none)
  | (w, s, some x) => some (w, { st with inodes := s }.setFile i ⟨true, 0, some x⟩, some i)

/-- The slot of the file that was found stands for its handle, and `none` for -1. -/
def searchdir (ops : FsOps W) (rounds : Nat) (w : W) (st : FsState) (name : List UInt8) :
    Option (W × FsState × Option (Fin maxOpen)) :=
  match st.allocFile with
  | none => some (w, st, none)
  | some i =>
    let st := st.setFile i { st.files i with fs := true }
    match ops.strdup w (cstr name) with
    | (none, w) => (st.closeFileAt i).map fun st => (w, st, none)
    | (some behind, w) =>
      (st.inodes.getInode st.cwd).bind fun s =>
        (searchLoop ops st.root rounds
          ⟨w, s, st.cwd, maxSymlinkCnt, some (cstr name ++ 0 :: behind)⟩).bind (endSearch st i)

/-- Search a path and close the file again unless its inode has the given type. -/
def searchMode (ops : FsOps W) (rounds : Nat) (w : W) (st : FsState) (mode : Int)
    (name : List UInt8) : Option (W × FsState × Option (Fin maxOpen × Nat × Attrs)) :=
  (searchdir ops rounds w st name).bind fun
    | (w, st, none) => some (w, st, none)
    | (w, st, some i) =>
      (st.files i).inode.bind fun x =>
        (st.inodes.node x).bind fun inode =>
          if inode.attrs.mode ≠ mode then (st.closeFileAt i).map fun st => (w, st, none)
          else some (w, st, some (i, x, inode.attrs))

/-- `struct com32_filedata`. -/
structure Com32Filedata where
  size : UInt32
  blocklg2 : Nat
  handle : Nat
  deriving DecidableEq, Repr

def openFile (ops : FsOps W) (rounds : Nat) (w : W) (st : FsState) (name : List UInt8) :
    Option (W × FsState × Option Com32Filedata) :=
  (searchMode ops rounds w st dtReg (ops.mangleName name)).map fun
    | (w, st, none) => (w, st, none)
    | (w, st, some (i, _, attrs)) => (w, st, some ⟨attrs.size, st.sectorShift, i + 1⟩)

def opendir (ops : FsOps W) (rounds : Nat) (w : W) (st : FsState) (path : List UInt8) :
    Option (W × FsState × Option (Fin maxOpen)) :=
  (searchMode ops rounds w st dtDir path).map fun
    | (w, st, none) => (w, st, none)
    | (w, st, some (i, _, _)) => (w, st, some i)

/-- `chdir` up to the text of the new directory's name; the flag says whether it got there. -/
def chdir (ops : FsOps W) (rounds : Nat) (w : W) (st : FsState) (src : List UInt8) :
    Option (W × FsState × Bool) :=
  (searchMode ops rounds w st dtDir src).bind fun
    | (w, st, none) => some (w, st, false)
    | (w, st, some (i, x, _)) =>
      (st.inodes.putInode st.cwd).bind fun s =>
        (s.getInode x).bind fun s =>
          ({ st with inodes := s, cwd := x }.closeFileAt i).map fun st => (w, st, true)

/-- The end of `fs_init`: start out in the root directory. -/
def fsInit (ops : FsOps W) (sectorShift : Nat) : Option FsState :=
  (Inodes.getInode (Inodes.allocInode ⟨fun _ => none, 0⟩ ops.igetRoot) 0).map fun s =>
    ⟨s, 0, 0, sectorShift, fun _ => .clear⟩

/-! ## The invariant -/

namespace FsState

/-- The references from outside of the inodes: the root, the current directory and the open
files. -/
def refs (st : FsState) : List Nat :=
  st.root :: st.cwd :: (List.finRange maxOpen).filterMap fun i => (st.files i).inode

structure Inv (st : FsState) : Prop where
  held : st.inodes.Held st.refs
  cleared : ∀ i, (st.files i).fs = false → st.files i = .clear

variable {st st' : FsState} {i : Fin maxOpen} {s : Inodes} {x : Nat}

/-- Setting a file updates its handle. -/
theorem files_setFile (st : FsState) (i : Fin maxOpen) (file : File) :
    (st.setFile i file).files = Function.update st.files i file := rfl

/-- The references through one slot, apart from the others. -/
theorem refs_setFile (st : FsState) (i : Fin maxOpen) :
    ∃ others, st.refs.Perm ((st.files i).inode.toList ++ others) ∧
      ∀ file, (st.setFile i file).refs.Perm (file.inode.toList ++ others) := by
  obtain ⟨xs, ys, hsplit⟩ := List.append_of_mem (List.mem_finRange i)
  have hnodup := List.nodup_finRange maxOpen
  rw [hsplit] at hnodup
  obtain ⟨hout, -⟩ := List.nodup_cons.mp (List.nodup_middle.mp hnodup)
  have hrefs : ∀ files : Fin maxOpen → File, (∀ j, j ≠ i → files j = st.files j) →
      (st.root :: st.cwd :: (List.finRange maxOpen).filterMap fun j => (files j).inode).Perm
        ((files i).inode.toList ++
          ([st.root, st.cwd] ++ (xs ++ ys).filterMap fun j => (st.files j).inode)) := by
    intro files hfiles
    have hrest : ∀ zs ⊆ xs ++ ys, (zs.filterMap fun j => (files j).inode) =
        zs.filterMap fun j => (st.files j).inode := by
      intro zs hzs
      refine List.filterMap_congr fun j hj => ?_
      rw [hfiles j fun heq => hout (hzs (heq ▸ hj))]
    have hslot : ((List.finRange maxOpen).filterMap fun j => (files j).inode).Perm
        ((files i).inode.toList ++ (xs ++ ys).filterMap fun j => (st.files j).inode) := by
      rw [hsplit, List.filterMap_append, List.filterMap_cons, List.filterMap_append,
        hrest xs (List.subset_append_left xs ys), hrest ys (List.subset_append_right xs ys)]
      rcases (files i).inode with _ | y
      · exact List.Perm.refl _
      · exact List.perm_middle
    exact (hslot.append_left [st.root, st.cwd]).trans (List.perm_append_comm_assoc _ _ _)
  refine ⟨_, hrefs st.files fun _ _ => rfl, fun file => ?_⟩
  have hset := hrefs (Function.update st.files i file) fun j hj => Function.update_of_ne hj _ _
  rwa [Function.update_self] at hset

/-- Filling a slot that holds no inode. -/
theorem Inv.fill (h : st.Inv) {file : File} (hi : (st.files i).inode = none)
    (hfs : file.fs = true) (hheld : s.Held (file.inode.toList ++ st.refs)) :
    ({ st with inodes := s }.setFile i file).Inv := by
  obtain ⟨others, hrefs, hset⟩ := refs_setFile st i
  rw [hi] at hrefs
  refine ⟨?_, fun j hj => ?_⟩
  · exact Counted.perm hheld (((List.Perm.refl _).append hrefs).trans (hset file).symm)
  · by_cases heq : j = i
    · subst heq
      rw [files_setFile, Function.update_self, hfs] at hj
      cases hj
    · rw [files_setFile, Function.update_of_ne heq] at hj ⊢
      exact h.cleared j hj

/-- Closing a slot gives back the reference it holds. -/
theorem Inv.close (h : st.Inv) (i : Fin maxOpen) :
    ∃ s, st.closeFileAt i = some ({ st with inodes := s }.setFile i .clear) ∧
      ({ st with inodes := s }.setFile i .clear).Inv ∧ ∀ n, Keeps n st.inodes s := by
  obtain ⟨others, hrefs, hset⟩ := refs_setFile st i
  have hcleared : ∀ s : Inodes, s.Held others → ({ st with inodes := s }.setFile i .clear).Inv := by
    intro s hs
    refine ⟨Counted.perm hs (hset .clear).symm, fun j hj => ?_⟩
    by_cases heq : j = i
    · rw [heq, files_setFile, Function.update_self]
    · rw [files_setFile, Function.update_of_ne heq] at hj ⊢
      exact h.cleared j hj
  have hheld := Counted.perm h.held hrefs
  rw [closeFileAt]
  rcases hfs : (st.files i).fs
  · rw [h.cleared i hfs] at hheld
    exact ⟨st.inodes, rfl, hcleared _ hheld, fun _ => .refl⟩
  · rw [if_pos rfl, genericCloseFile]
    rcases hinode : (st.files i).inode with _ | x
    · rw [hinode] at hheld
      exact ⟨st.inodes, rfl, hcleared _ hheld, fun _ => .refl⟩
    · rw [hinode] at hheld
      obtain ⟨s, hput, hs, hkeeps⟩ := Held.put hheld
      refine ⟨s, ?_, hcleared s hs, hkeeps⟩
      dsimp only
      rw [hput, Option.map_some]

end FsState

/-! ## Opening -/

/-- What an attempt to open leaves: a failure nothing at all, a success one slot that was free
and now holds an inode. -/
structure Opened (st st' : FsState) (rv : Option (Fin maxOpen)) : Prop where
  inv : st'.Inv
  root : st'.root = st.root
  cwd : st'.cwd = st.cwd
  keeps : Keeps st.inodes.nextId st.inodes st'.inodes
  failed : rv = none → st'.files = st.files
  found : ∀ i, rv = some i → st.files i = .clear ∧
    ∃ x, st'.files = Function.update st.files i ⟨true, 0, some x⟩

/-- Nothing is gained and nothing is lost. -/
structure Unchanged (st st' : FsState) : Prop where
  root : st'.root = st.root
  cwd : st'.cwd = st.cwd
  files : st'.files = st.files
  node : st'.inodes.node = st.inodes.node

variable {ops : FsOps W} {rounds : Nat} {w w' : W} {st st' : FsState} {name : List UInt8}

/-- A search that opened nothing changed nothing. -/
theorem Opened.unchanged (hi : st.Inv) (h : Opened st st' none) : Unchanged st st' := by
  have hfiles := h.failed rfl
  have hrefs : st'.refs = st.refs := by
    rw [FsState.refs, FsState.refs, h.root, h.cwd, hfiles]
  exact ⟨h.root, h.cwd, hfiles, hi.held.same (hrefs ▸ h.inv.held) h.keeps⟩

/-- The slot that was filled holds an inode that is in memory. -/
theorem Opened.file {i : Fin maxOpen} (h : Opened st st' (some i)) :
    ∃ x inode, st'.files i = ⟨true, 0, some x⟩ ∧ x ∈ st'.refs ∧
      st'.inodes.node x = some inode := by
  obtain ⟨-, x, hfiles⟩ := h.found i rfl
  have hfile : st'.files i = ⟨true, 0, some x⟩ := by rw [hfiles, Function.update_self]
  have hmem : x ∈ st'.refs := by
    refine List.mem_cons_of_mem _ (List.mem_cons_of_mem _ ?_)
    exact List.mem_filterMap.mpr ⟨i, List.mem_finRange i, by rw [hfile]⟩
  obtain ⟨inode, hinode⟩ := h.inv.held.node hmem
  exact ⟨x, inode, hfile, hmem, hinode⟩

/-- The slot that `searchdir` takes. -/
private theorem allocFile_clear (hi : st.Inv) {i : Fin maxOpen} (h : st.allocFile = some i) :
    st.files i = .clear := by
  have hfs := List.find?_some h
  exact hi.cleared i (by simpa using hfs)

/-- Taking the slot changes nothing else. -/
private theorem inv_taken (hi : st.Inv) {i : Fin maxOpen} (hclear : st.files i = .clear) :
    (st.setFile i { st.files i with fs := true }).Inv := by
  refine FsState.Inv.fill (s := st.inodes) hi ?_ rfl ?_
  · rw [hclear]
    rfl
  · rw [hclear]
    exact hi.held

/-- Closing the slot after a failure. -/
private theorem opened_close {i : Fin maxOpen} {s : Inodes} {file : File}
    (hclear : st.files i = .clear) (hinv : ({ st with inodes := s }.setFile i file).Inv)
    (hkeeps : Keeps st.inodes.nextId st.inodes s) :
    ∃ st', ({ st with inodes := s }.setFile i file).closeFileAt i = some st' ∧
      Opened st st' none := by
  obtain ⟨s', hclose, hinv', hkeeps'⟩ := hinv.close i
  refine ⟨_, hclose, hinv', rfl, rfl, hkeeps.trans (hkeeps' _), fun _ => ?_, fun _ h => nomatch h⟩
  rw [FsState.files_setFile, FsState.files_setFile, Function.update_idem, ← hclear,
    Function.update_eq_self]

private theorem endSearch_opened (hi : st.Inv) {i : Fin maxOpen} (hclear : st.files i = .clear)
    {s : Inodes} {found : Option Nat} (hheld : s.Held (found.toList ++ st.refs))
    (hkeeps : Keeps st.inodes.nextId st.inodes s) :
    ∃ st' rv, endSearch (st.setFile i { st.files i with fs := true }) i (w, s, found) =
      some (w, st', rv) ∧ Opened st st' rv := by
  have hinode : (st.files i).inode = none := by rw [hclear]; rfl
  rcases found with _ | x
  · have hinv : ({ st with inodes := s }.setFile i { st.files i with fs := true }).Inv := by
      refine hi.fill hinode rfl ?_
      rw [hinode]
      exact hheld
    obtain ⟨st', hclose, hopened⟩ := opened_close hclear hinv hkeeps
    exact ⟨st', none, congrArg (Option.map _) hclose, hopened⟩
  · have hidem : (({ st.setFile i { st.files i with fs := true } with inodes := s } : FsState).setFile
        i ⟨true, 0, some x⟩) = { st with inodes := s }.setFile i ⟨true, 0, some x⟩ := by
      rw [FsState.setFile, FsState.setFile, FsState.setFile, Function.update_idem]
    refine ⟨_, some i, congrArg (fun st => some (w, st, some i)) hidem,
      hi.fill hinode rfl hheld, rfl, rfl, hkeeps, fun h => (nomatch h), fun j hj => ?_⟩
    obtain rfl := Option.some.inj hj
    exact ⟨hclear, x, FsState.files_setFile _ _ _⟩

/-- `searchdir` fails before it looks at the path, or is its loop. -/
private theorem searchdir_cases (ops : FsOps W) (w : W) (name : List UInt8) (hi : st.Inv) :
    (∃ w' st', Opened st st' none ∧ ∀ rounds, searchdir ops rounds w st name =
      some (w', st', none)) ∨
    ∃ i search, st.files i = .clear ∧ search.inodes.Held (search.inode :: st.refs) ∧
      search.symlinkCount = maxSymlinkCnt ∧ Keeps st.inodes.nextId st.inodes search.inodes ∧
      ∀ rounds, searchdir ops rounds w st name = (searchLoop ops st.root rounds search).bind
        (endSearch (st.setFile i { st.files i with fs := true }) i) := by
  rcases halloc : st.allocFile with _ | i
  · refine Or.inl ⟨w, st, ⟨hi, rfl, rfl, .refl, fun _ => rfl, fun _ h => nomatch h⟩, fun _ => ?_⟩
    rw [searchdir, halloc]
  · have hclear := allocFile_clear hi halloc
    rcases hdup : ops.strdup w (cstr name) with ⟨_ | behind, w'⟩
    · obtain ⟨st', hclose, hopened⟩ := opened_close (s := st.inodes) hclear (inv_taken hi hclear)
        .refl
      refine Or.inl ⟨w', st', hopened, fun _ => ?_⟩
      rw [searchdir, halloc]
      dsimp only
      rw [hdup]
      exact congrArg (Option.map _) hclose
    · have hcwd : st.inodes.node st.cwd ≠ none :=
        shape_ne_none.mp (hi.held.alive _ (List.mem_cons_of_mem _ List.mem_cons_self))
      obtain ⟨s, hget, hheld, hkeeps⟩ := hi.held.get hcwd
      refine Or.inr ⟨i, ⟨w', s, st.cwd, maxSymlinkCnt, some (cstr name ++ 0 :: behind)⟩, hclear,
        hheld, rfl, hkeeps _, fun _ => ?_⟩
      rw [searchdir, halloc]
      dsimp only
      rw [hdup]
      exact congrArg (Option.bind · _) hget

/-- A search opens a handle or changes nothing. -/
theorem searchdir_opened {rv : Option (Fin maxOpen)} (hi : st.Inv)
    (hrun : searchdir ops rounds w st name = some (w', st', rv)) : Opened st st' rv := by
  rcases searchdir_cases ops w name hi with ⟨w₁, st₁, hopened, heq⟩ | hloop
  · rw [heq] at hrun
    cases hrun
    exact hopened
  · obtain ⟨i, search, hclear, hheld, hcount, hkeeps, heq⟩ := hloop
    rw [heq] at hrun
    obtain ⟨⟨w₁, s, found⟩, hsearch, hend⟩ := Option.bind_eq_some_iff.mp hrun
    obtain ⟨hheld', hkeeps'⟩ := searchLoop_held hheld List.mem_cons_self
      (by rw [hcount]; decide) hkeeps.grows hsearch
    obtain ⟨st₁, rv₁, hend₁, hopened⟩ := endSearch_opened hi hclear hheld' (hkeeps.trans hkeeps')
    rw [hend₁] at hend
    cases hend
    exact hopened

/-- A search ends. -/
theorem searchdir_returns (ops : FsOps W) (w : W) (name : List UInt8) (hi : st.Inv) :
    ∃ rounds r, searchdir ops rounds w st name = some r := by
  rcases searchdir_cases ops w name hi with ⟨w₁, st₁, -, heq⟩ | hloop
  · exact ⟨0, _, heq 0⟩
  · obtain ⟨i, search, hclear, hheld, hcount, hkeeps, heq⟩ := hloop
    have hpos : 0 < search.symlinkCount := by rw [hcount]; decide
    obtain ⟨rounds, ⟨w₁, s, found⟩, hsearch⟩ :=
      @searchLoop_returns W ops st.root st.refs search hheld List.mem_cons_self hpos
    obtain ⟨hheld', hkeeps'⟩ :=
      searchLoop_held hheld List.mem_cons_self hpos hkeeps.grows hsearch
    obtain ⟨st₁, rv, hend, -⟩ := endSearch_opened hi hclear hheld' (hkeeps.trans hkeeps')
    exact ⟨rounds, (w₁, st₁, rv), by rw [heq, hsearch, Option.bind_some, hend]⟩

/-- After the search an inode of another type is closed again. -/
private theorem searchMode_after {rv : Option (Fin maxOpen)} (hopened : Opened st st' rv)
    (mode : Int) (hsearch : searchdir ops rounds w st name = some (w', st', rv)) :
    ∃ st₂ rv₂, searchMode ops rounds w st mode name = some (w', st₂, rv₂) ∧
      Opened st st₂ (rv₂.map Prod.fst) ∧
      ∀ i x attrs, rv₂ = some (i, x, attrs) → (st₂.files i).inode = some x := by
  rw [searchMode, hsearch, Option.bind_some]
  rcases rv with _ | i
  · exact ⟨st', none, rfl, hopened, fun _ _ _ h => nomatch h⟩
  · obtain ⟨hclear, y, hfiles⟩ := hopened.found i rfl
    obtain ⟨x, inode, hfile, -, hinode⟩ := hopened.file
    dsimp only
    rw [hfile, Option.bind_some, hinode, Option.bind_some]
    split_ifs with hmode
    · obtain ⟨s, hclose, hinv, hkeeps⟩ := hopened.inv.close i
      refine ⟨_, none, congrArg (Option.map _) hclose, ⟨hinv, hopened.root, hopened.cwd,
        hopened.keeps.trans (hkeeps _), fun _ => ?_, fun _ h => nomatch h⟩,
        fun _ _ _ h => nomatch h⟩
      rw [FsState.files_setFile, hfiles, Function.update_idem, ← hclear, Function.update_eq_self]
    · refine ⟨st', some (i, x, inode.attrs), rfl, hopened, fun j y attrs h => ?_⟩
      cases h
      rw [hfile]

/-- A search by mode opens a handle on the inode it gives. -/
theorem searchMode_opened {mode : Int} {rv : Option (Fin maxOpen × Nat × Attrs)} (hi : st.Inv)
    (hrun : searchMode ops rounds w st mode name = some (w', st', rv)) :
    Opened st st' (rv.map Prod.fst) ∧
      ∀ i x attrs, rv = some (i, x, attrs) → (st'.files i).inode = some x := by
  obtain ⟨⟨w₁, st₁, rv₁⟩, hsearch, -⟩ := Option.bind_eq_some_iff.mp hrun
  obtain ⟨st₂, rv₂, hmode, hopened⟩ :=
    searchMode_after (searchdir_opened hi hsearch) mode hsearch
  rw [hmode] at hrun
  cases hrun
  exact hopened

/-- A search by mode ends. -/
theorem searchMode_returns (ops : FsOps W) (w : W) (mode : Int) (name : List UInt8)
    (hi : st.Inv) : ∃ rounds r, searchMode ops rounds w st mode name = some r := by
  obtain ⟨rounds, ⟨w₁, st₁, rv₁⟩, hsearch⟩ := searchdir_returns ops w name hi
  obtain ⟨st₂, rv₂, hmode, -⟩ := searchMode_after (searchdir_opened hi hsearch) mode hsearch
  exact ⟨rounds, _, hmode⟩

/-! ## Changing the directory -/

/-- The reference of the current directory moves from the old directory to the new one. -/
theorem enter_dir (hi : st.Inv) {i : Fin maxOpen} {x : Nat}
    (hx : (st.files i).inode = some x) :
    ∃ s₁ s₂ st', st.inodes.putInode st.cwd = some s₁ ∧ s₁.getInode x = some s₂ ∧
      ({ st with inodes := s₂, cwd := x } : FsState).closeFileAt i = some st' ∧ st'.Inv ∧
      st'.root = st.root ∧ st'.cwd = x ∧ ∀ n, Keeps n st.inodes st'.inodes := by
  have hswap : st.refs.Perm (st.cwd :: st.root ::
      (List.finRange maxOpen).filterMap fun i => (st.files i).inode) := List.Perm.swap _ _ _
  obtain ⟨s₁, hput, hheld₁, hkeeps₁⟩ := Held.put (Counted.perm hi.held hswap)
  -- the open file keeps the new directory alive
  have hmem : x ∈ (List.finRange maxOpen).filterMap fun i => (st.files i).inode :=
    List.mem_filterMap.mpr ⟨i, List.mem_finRange i, hx⟩
  obtain ⟨s₂, hget, hheld₂, hkeeps₂⟩ :=
    hheld₁.get (shape_ne_none.mp (hheld₁.alive x (List.mem_cons_of_mem _ hmem)))
  have hinv : ({ st with inodes := s₂, cwd := x } : FsState).Inv :=
    ⟨Counted.perm hheld₂ (List.Perm.swap _ _ _), hi.cleared⟩
  obtain ⟨s₃, hclose, hinv', hkeeps₃⟩ := hinv.close i
  exact ⟨s₁, s₂, _, hput, hget, hclose, hinv', rfl, rfl,
    fun n => ((hkeeps₁ n).trans (hkeeps₂ n)).trans (hkeeps₃ n)⟩

private theorem chdir_after (hi : st.Inv) {rv : Option (Fin maxOpen × Nat × Attrs)}
    (hsearch : searchMode ops rounds w st dtDir name = some (w', st', rv)) :
    ∃ st₂ ok, chdir ops rounds w st name = some (w', st₂, ok) ∧ st₂.Inv ∧
      (ok = false → Unchanged st st₂) := by
  obtain ⟨hopened, hfile⟩ := searchMode_opened hi hsearch
  rw [chdir, hsearch, Option.bind_some]
  rcases rv with _ | ⟨i, x, attrs⟩
  · exact ⟨st', false, rfl, hopened.inv, fun _ => hopened.unchanged hi⟩
  · obtain ⟨s₁, s₂, st₂, hput, hget, hclose, hinv, -⟩ :=
      enter_dir hopened.inv (hfile i x attrs rfl)
    dsimp only
    rw [hput, Option.bind_some, hget, Option.bind_some, hclose, Option.map_some]
    exact ⟨st₂, true, rfl, hinv, fun h => nomatch h⟩

/-- `chdir` keeps the invariant, and changes nothing when it fails. -/
theorem chdir_inv {ok : Bool} (hi : st.Inv)
    (hrun : chdir ops rounds w st name = some (w', st', ok)) :
    st'.Inv ∧ (ok = false → Unchanged st st') := by
  obtain ⟨⟨w₁, st₁, rv₁⟩, hsearch, -⟩ := Option.bind_eq_some_iff.mp hrun
  obtain ⟨st₂, ok₂, hchdir, hinv⟩ := chdir_after hi hsearch
  rw [hchdir] at hrun
  cases hrun
  exact hinv

/-- `chdir` ends. -/
theorem chdir_returns (ops : FsOps W) (w : W) (name : List UInt8) (hi : st.Inv) :
    ∃ rounds r, chdir ops rounds w st name = some r := by
  obtain ⟨rounds, ⟨w₁, st₁, rv₁⟩, hsearch⟩ := searchMode_returns ops w dtDir name hi
  obtain ⟨st₂, ok, hchdir, -⟩ := chdir_after hi hsearch
  exact ⟨rounds, _, hchdir⟩

/-! ## The start -/

/-- The state after the set-up has the invariant. -/
theorem fsInit_inv (ops : FsOps W) (sectorShift : Nat) :
    ∃ st, fsInit ops sectorShift = some st ∧ st.Inv := by
  have hempty : Held ⟨fun _ => none, 0⟩ [] :=
    ⟨fun _ _ => rfl, fun _ _ h => (nomatch h), fun _ h => (nomatch h), fun _ h => absurd rfl h,
      fun _ h => absurd rfl h⟩
  have hroot := hempty.alloc ops.igetRoot
  obtain ⟨s, hget, hheld, -⟩ := hroot.get (shape_ne_none.mp (hroot.alive 0 List.mem_cons_self))
  have hfiles : (List.finRange maxOpen).filterMap (fun _ => File.clear.inode) = [] :=
    List.filterMap_eq_nil_iff.mpr fun _ _ => rfl
  refine ⟨_, congrArg (Option.map _) hget, ?_, fun _ _ => rfl⟩
  rw [FsState.refs]
  exact hfiles ▸ hheld

end Liigboot.Vfs
