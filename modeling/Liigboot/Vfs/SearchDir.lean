import Liigboot.Vfs.Inode
import Mathlib.Algebra.Group.Int.Defs
import Mathlib.Algebra.Group.Nat.Defs

/-!
# The generic path search

`searchdir` walks a path from the current directory, one component a round. It holds
one reference, to the inode it has reached; that inode holds its parents. A path is
the memory from its first byte on, with its end marked by a NUL, since the source
splits and joins paths in place. The file system driver and the allocator are
arbitrary functions of a world that they may also change.
-/

namespace Liigboot.Vfs

open Inodes

def maxSymlinkCnt : Nat := 20

def maxSymlinkBuf : Int := 4096

/-- What `fs_ops`, `malloc` and `strdup` do, all from the state of a world `W`. The drivers that
use the generic search set neither `searchdir` nor `chdir`, and close with
`generic_close_file`. -/
structure FsOps (W : Type) where
  /-- What lies behind the copy in memory, or `none` when there is no room for it. -/
  strdup : W → List UInt8 → Option (List UInt8) × W
  malloc : W → Int → Bool × W
  igetRoot : Attrs
  /-- The inode of a name in a directory: `alloc_inode` with these attributes, or a failure. -/
  iget : W → List UInt8 → Attrs → Option Attrs × W
  /-- The result, and the memory from the buffer on. -/
  readlink : Option (W → Attrs → (Int × List UInt8) × W)
  mangleName : List UInt8 → List UInt8

variable {W : Type}

/-! ## Paths -/

def slash : UInt8 := 47

def dot : UInt8 := 46

/-- The string at the start of some memory. -/
def cstr (raw : List UInt8) : List UInt8 := raw.takeWhile (· ≠ 0)

/-- The memory from the first `c` on, if it comes before a NUL. -/
def strchr (c : UInt8) : List UInt8 → Option (List UInt8)
  | [] => none
  | b :: raw => if b = c then some (b :: raw) else if b = 0 then none else strchr c raw

/-- Advance beyond redundant slashes, and stop at the end. -/
def skipSlashes (raw : List UInt8) : Option (List UInt8) :=
  let rest := raw.dropWhile (· = slash)
  if rest.headD 0 = 0 then none else some rest

/-- `inode_name` and `next_inode_name`. The search for the next slash starts at the second
byte. -/
def component (path : List UInt8) : List UInt8 × Option (List UInt8) :=
  if path.head? = some slash then ([slash], skipSlashes path.tail)
  else ((cstr path).takeWhile (· ≠ slash), (strchr slash path.tail).bind fun raw =>
    skipSlashes raw.tail)

/-- Target path and NUL, and slash and remaining path if there is one, in the `int` of the
source. -/
def newLen (size : UInt32) (next : Option (List UInt8)) : Int :=
  Int.bmod (size.toNat + 1 + next.elim 0 fun rest => (cstr rest).length + 1) (2 ^ 32)

/-- The buffer after the target has been terminated, or joined with the remaining path. -/
def joinPath (buf : List UInt8) (copied : Nat) (next : Option (List UInt8)) : List UInt8 :=
  let added := next.elim [0] fun rest => slash :: (cstr rest ++ [0])
  (buf ++ List.replicate copied 0).take copied ++ added ++ buf.drop (copied + added.length)

/-! ## The walk -/

/-- The variables of the loop. -/
structure Search (W : Type) where
  world : W
  inodes : Inodes
  inode : Nat
  symlinkCount : Nat
  next : Option (List UInt8)

/-- How a round ends: with the next one, or out of the loop without an inode. -/
inductive Round (W : Type)
  | next (st : Search W)
  | notFound (world : W) (inodes : Inodes)

/-- Leave the loop: release the chain. -/
def giveUp (world : W) (inodes : Inodes) (inode : Nat) : Option (Round W) :=
  (inodes.putInode inode).map (Round.notFound world)

/-- Symlink handling. The next round starts on the new path from the parent, which gets a
reference before the link is released. -/
def followLink (ops : FsOps W) (st : Search W) (link : Inode) : Option (Round W) :=
  match ops.readlink with
  | none => giveUp st.world st.inodes st.inode
  | some readlink =>
    let count := st.symlinkCount - 1
    let len := newLen link.attrs.size st.next
    if count = 0 ∨ maxSymlinkBuf < len then giveUp st.world st.inodes st.inode
    else
      match ops.malloc st.world len with
      | (false, w) => giveUp w st.inodes st.inode
      | (true, w) =>
        match readlink w link.attrs with
        | ((copied, buf), w) =>
          if copied ≤ 0 then giveUp w st.inodes st.inode
          else
            link.parent.bind fun parent =>
              (st.inodes.getInode parent).bind fun s =>
                (s.putInode st.inode).map fun s =>
                  .next ⟨w, s, parent, count, some (joinPath buf copied.toNat st.next)⟩

/-- One round of the loop. -/
def searchRound (ops : FsOps W) (root : Nat) (st : Search W) (path : List UInt8) :
    Option (Round W) :=
  let name := (component path).1
  let next := (component path).2
  if path.head? = some slash then
    -- release any chain that's already been established
    (st.inodes.putInode st.inode).bind fun s =>
      (s.getInode root).map fun s => .next { st with inodes := s, inode := root, next := next }
  else if name = [dot] then some (.next { st with next := next })
  else
    (st.inodes.node st.inode).bind fun dir =>
      if name = [dot, dot] then
        match dir.parent with
        | none => some (.next { st with next := next })
        | some parent =>
          (st.inodes.getInode parent).bind fun s =>
            (s.putInode st.inode).map fun s =>
              .next { st with inodes := s, inode := parent, next := next }
      else
        match ops.iget st.world name dir.attrs with
        | (none, w) => giveUp w st.inodes st.inode
        | (some attrs, w) =>
          -- a fresh inode has no parent, so it passes the sanity check
          let x := st.inodes.nextId
          let copy := ops.strdup w name
          ((st.inodes.allocInode attrs).attach x st.inode (copy.1.map fun _ => name)).bind
            fun s =>
              (s.node x).bind fun i =>
                let st' : Search W := ⟨copy.2, s, x, st.symlinkCount, next⟩
                if i.attrs.mode = dtLnk then followLink ops st' i
                else if next.isSome ∧ i.attrs.mode ≠ dtDir then giveUp copy.2 s x
                else some (.next st')

/-- The loop; it ends with the inode that was found, if any, or when the rounds are used up. -/
def searchLoop (ops : FsOps W) (root : Nat) : Nat → Search W → Option (W × Inodes × Option Nat)
  | 0, _ => none
  | rounds + 1, st =>
    match st.next with
    | none => some (st.world, st.inodes, some st.inode)
    | some path =>
      (searchRound ops root st path).bind fun
        | .next st => searchLoop ops root rounds st
        | .notFound w s => some (w, s, none)

/-! ## What a round does -/

section

variable {ops : FsOps W} {root n : Nat} {refs : List Nat} {st : Search W} {path : List UInt8}

theorem strchr_length {c : UInt8} {raw rest : List UInt8} (h : strchr c raw = some rest) :
    rest.length ≤ raw.length := by
  induction raw with
  | nil => cases h
  | cons b raw ih =>
    rw [strchr] at h
    split_ifs at h with hc hz
    · exact Nat.le_of_eq (congrArg List.length (Option.some.inj h).symm)
    · exact Nat.le_succ_of_le (ih h)

theorem skipSlashes_length {raw rest : List UInt8} (h : skipSlashes raw = some rest) :
    rest.length ≤ raw.length := by
  rw [skipSlashes] at h
  split_ifs at h
  obtain rfl := Option.some.inj h
  exact (List.dropWhile_sublist _).length_le

/-- What remains of a path is shorter. -/
theorem component_length {rest : List UInt8} (h : (component path).2 = some rest) :
    rest.length < path.length := by
  cases path with
  | nil => cases h
  | cons b raw =>
    rw [component] at h
    split_ifs at h
    · exact Nat.lt_succ_of_le (skipSlashes_length h)
    · obtain ⟨raw', hraw', hrest⟩ := Option.bind_eq_some_iff.mp h
      have hskip := skipSlashes_length hrest
      have hlen := strchr_length hraw'
      rw [List.length_tail] at hskip
      simp only [List.tail_cons] at hlen
      exact Nat.lt_succ_of_le (by omega)

/-- What a round leaves: the references of the others, and one to the inode reached unless the
search ends. A round that goes on has followed a link or left less of the path. -/
def Round.Good (refs : List Nat) (st : Search W) (pathLength : Nat) : Round W → Prop
  | .next st' => st'.inodes.Held (st'.inode :: refs) ∧
      (∀ n ≤ st.inodes.nextId, Keeps n st.inodes st'.inodes) ∧ 0 < st'.symlinkCount ∧
      (st'.symlinkCount < st.symlinkCount ∨ st'.symlinkCount = st.symlinkCount ∧
        ∀ rest, st'.next = some rest → rest.length < pathLength)
  | .notFound _ s => s.Held refs ∧ ∀ n ≤ st.inodes.nextId, Keeps n st.inodes s

/-- The chain of an inode is released on the way out. -/
theorem giveUp_good {w : W} {s : Inodes} {x len : Nat} (h : s.Held (x :: refs))
    (hk : ∀ n ≤ st.inodes.nextId, Keeps n st.inodes s) :
    ∃ out, giveUp w s x = some out ∧ out.Good refs st len := by
  obtain ⟨s', hput, hheld, hkeeps⟩ := h.put
  refine ⟨.notFound w s', ?_, hheld, fun n hn => (hk n hn).trans (hkeeps n)⟩
  rw [giveUp, hput, Option.map_some]

theorem followLink_good {st' : Search W} {link : Inode} {len p : Nat}
    (h : st'.inodes.Held (st'.inode :: refs)) (hi : st'.inodes.node st'.inode = some link)
    (hp : link.parent = some p) (hcount : st'.symlinkCount = st.symlinkCount)
    (hpos : 0 < st.symlinkCount) (hk : ∀ n ≤ st.inodes.nextId, Keeps n st.inodes st'.inodes) :
    ∃ out, followLink ops st' link = some out ∧ out.Good refs st len := by
  rw [followLink]
  rcases ops.readlink with _ | readlink
  · exact giveUp_good h hk
  · dsimp only
    split_ifs with hlimit
    · exact giveUp_good h hk
    · rcases ops.malloc st'.world (newLen link.attrs.size st'.next) with ⟨_ | _, w⟩
      · exact giveUp_good h hk
      · dsimp only
        rcases readlink w link.attrs with ⟨⟨copied, buf⟩, w'⟩
        dsimp only
        split_ifs with hcopied
        · exact giveUp_good h hk
        · -- the parent is held before the link is released
          obtain ⟨s₁, s₂, hget, hput, hheld, hkeeps⟩ := h.exchange (h.parent hi hp)
          rw [hp, Option.bind_some, hget, Option.bind_some, hput, Option.map_some]
          have hless : st'.symlinkCount - 1 < st.symlinkCount := by omega
          have hleft : 0 < st'.symlinkCount - 1 := by omega
          exact ⟨_, rfl, hheld, fun n hn => (hk n hn).trans (hkeeps n), hleft, Or.inl hless⟩

/-- A round has a result, whatever the driver answers. -/
theorem searchRound_good (h : st.inodes.Held (st.inode :: refs)) (hroot : root ∈ refs)
    (hpos : 0 < st.symlinkCount) :
    ∃ out, searchRound ops root st path = some out ∧ out.Good refs st path.length := by
  have hshort := fun rest => @component_length path rest
  obtain ⟨dir, hdir⟩ := h.node List.mem_cons_self
  rw [searchRound, hdir]
  split_ifs with hslash hdot hdots
  · -- the root
    obtain ⟨s₁, hput, hheld₁, hkeeps₁⟩ := h.put
    obtain ⟨s₂, hget, hheld₂, hkeeps₂⟩ := hheld₁.get (shape_ne_none.mp (hheld₁.alive root hroot))
    rw [hput, Option.bind_some, hget, Option.map_some]
    exact ⟨_, rfl, hheld₂, fun n _ => (hkeeps₁ n).trans (hkeeps₂ n), hpos, Or.inr ⟨rfl, hshort⟩⟩
  · exact ⟨_, rfl, h, fun n _ => .refl, hpos, Or.inr ⟨rfl, hshort⟩⟩
  · -- the parent
    rw [Option.bind_some]
    rcases hparent : dir.parent with _ | p
    · exact ⟨_, rfl, h, fun n _ => .refl, hpos, Or.inr ⟨rfl, hshort⟩⟩
    · obtain ⟨s₁, s₂, hget, hput, hheld, hkeeps⟩ := h.exchange (h.parent hdir hparent)
      dsimp only
      rw [hget, Option.bind_some, hput, Option.map_some]
      exact ⟨_, rfl, hheld, fun n _ => hkeeps n, hpos, Or.inr ⟨rfl, hshort⟩⟩
  · rw [Option.bind_some]
    rcases ops.iget st.world (component path).1 dir.attrs with ⟨_ | attrs, w⟩
    · exact giveUp_good h fun n _ => .refl
    · -- the fresh inode holds the one that was reached
      dsimp only
      obtain ⟨s, i, hattach, hi, hparent, hheld, hkeeps⟩ :=
        (h.alloc attrs).attach (shape_allocInode attrs) (h.lt List.mem_cons_self)
          ((ops.strdup w (component path).1).1.map fun _ => (component path).1)
      have hk : ∀ n ≤ st.inodes.nextId, Keeps n st.inodes s := fun n hn =>
        (keeps_allocInode attrs hn).trans (hkeeps n hn)
      rw [hattach, Option.bind_some, hi, Option.bind_some]
      split_ifs with hlnk hnotDir
      · exact followLink_good hheld hi hparent rfl hpos hk
      · exact giveUp_good hheld hk
      · exact ⟨_, rfl, hheld, hk, hpos, Or.inr ⟨rfl, hshort⟩⟩

/-! ## What the loop does -/

theorem searchLoop_done {rounds : Nat} (h : st.next = none) :
    searchLoop ops root (rounds + 1) st = some (st.world, st.inodes, some st.inode) := by
  rw [searchLoop, h]

theorem searchLoop_next {rounds : Nat} {st' : Search W} (h : st.next = some path)
    (hround : searchRound ops root st path = some (.next st')) :
    searchLoop ops root (rounds + 1) st = searchLoop ops root rounds st' := by
  rw [searchLoop, h]
  exact congrArg (Option.bind · _) hround

theorem searchLoop_notFound {rounds : Nat} {w : W} {s : Inodes} (h : st.next = some path)
    (hround : searchRound ops root st path = some (.notFound w s)) :
    searchLoop ops root (rounds + 1) st = some (w, s, none) := by
  rw [searchLoop, h]
  exact congrArg (Option.bind · _) hround

/-- Whatever rounds it takes, the loop keeps the references of the others and adds one to the
inode it finds. -/
theorem searchLoop_held {rounds : Nat} {w : W} {s : Inodes} {found : Option Nat}
    (h : st.inodes.Held (st.inode :: refs)) (hroot : root ∈ refs) (hpos : 0 < st.symlinkCount)
    (hn : n ≤ st.inodes.nextId) (hrun : searchLoop ops root rounds st = some (w, s, found)) :
    s.Held (found.toList ++ refs) ∧ Keeps n st.inodes s := by
  induction rounds generalizing st with
  | zero => cases hrun
  | succ rounds ih =>
    rcases hnext : st.next with _ | path
    · rw [searchLoop_done hnext] at hrun
      cases hrun
      exact ⟨h, .refl⟩
    · obtain ⟨out, hround, hgood⟩ := @searchRound_good W ops root refs st path h hroot hpos
      rcases out with st' | ⟨w', s'⟩
      · rw [searchLoop_next hnext hround] at hrun
        obtain ⟨hheld, hkeeps, hpos', -⟩ := hgood
        obtain ⟨hheld', hkeeps'⟩ := ih hheld hpos' (Nat.le_trans hn (hkeeps n hn).grows) hrun
        exact ⟨hheld', (hkeeps n hn).trans hkeeps'⟩
      · rw [searchLoop_notFound hnext hround] at hrun
        cases hrun
        exact ⟨hgood.1, hgood.2 n hn⟩

/-- The loop ends: a link uses up one of the twenty that may be followed, and every other round
shortens the path. -/
theorem searchLoop_returns (h : st.inodes.Held (st.inode :: refs)) (hroot : root ∈ refs)
    (hpos : 0 < st.symlinkCount) : ∃ rounds r, searchLoop ops root rounds st = some r := by
  obtain ⟨count, hcount⟩ : ∃ count, st.symlinkCount = count := ⟨_, rfl⟩
  obtain ⟨len, hlen⟩ : ∃ len, st.next.elim 0 (fun path => path.length + 1) = len := ⟨_, rfl⟩
  induction count using Nat.strongRecOn generalizing st len with
  | ind count ihCount =>
  induction len using Nat.strongRecOn generalizing st with
  | ind len ihLen =>
    rcases hnext : st.next with _ | path
    · exact ⟨1, _, searchLoop_done hnext⟩
    · obtain ⟨out, hround, hgood⟩ := @searchRound_good W ops root refs st path h hroot hpos
      rcases out with st' | ⟨w, s⟩
      · obtain ⟨hheld, -, hpos', hless⟩ := hgood
        have hrest : ∃ rounds r, searchLoop ops root rounds st' = some r := by
          rcases hless with hless | ⟨hsame, hshort⟩
          · exact ihCount _ (hcount ▸ hless) hheld hpos' rfl _ rfl
          · refine ihLen _ ?_ hheld hpos' (hsame.trans hcount) rfl
            rw [← hlen, hnext]
            rcases hrest : st'.next with _ | rest
            · exact Nat.succ_pos _
            · exact Nat.succ_lt_succ (hshort rest hrest)
        obtain ⟨rounds, r, hr⟩ := hrest
        exact ⟨rounds + 1, r, (searchLoop_next hnext hround).trans hr⟩
      · exact ⟨1, _, searchLoop_notFound hnext hround⟩

end

end Liigboot.Vfs
