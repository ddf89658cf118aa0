import Liigboot.Vfs.PathText
import Liigboot.Vfs.Run

/-!
# The name of the current directory

`realpath` and `chdir` find an inode and put its path together. The length of the path keeps
counting behind the end of the buffer. `realpath` leaves the last byte as it was when the path
runs over it in the middle of a name, and `chdir` indexes its own buffer with the length, which
may also be the error value.
-/

namespace Liigboot.Vfs

/-! ## The source -/

/-- `CURRENTDIR_MAX`. -/
def currentdirMax : Nat := 256

variable {W : Type}

/-- `realpath` of a conventional file system: the buffer, and no size where the source returns
-1. -/
def realpath (ops : FsOps W) (rounds : Nat) (w : W) (st : FsState) (dst : Nat → UInt8)
    (src : List UInt8) (bufsize : Nat) :
    Option (W × FsState × (Nat → UInt8) × Option Nat) :=
  (searchdir ops rounds w st src).bind fun
    | (w, st, none) => some (w, st, dst, none)
    | (w, st, some i) =>
      (st.files i).inode.bind fun x =>
        (genericInodeToPath st.inodes bufsize st.inodes.nextId x dst).bind fun (dst, s) =>
          let out := if s = some 0 then copyString bufsize [slash] (dst, 0) else (dst, s.getD 0)
          (st.closeFileAt i).map fun st => (w, st, out.1, s.map fun _ => out.2)

/-- Make sure the name ends in a slash. There is no result where the source looks at a byte
outside of `cwd_buf` or stores there. -/
def endInSlash (cwdBuf : Nat → UInt8) (s : Nat) : Option ((Nat → UInt8) × Nat) :=
  if s < 1 then some (put cwdBuf s slash, s + 1)
  else if currentdirMax ≤ s - 1 then none
  else if cwdBuf (s - 1) = slash then some (cwdBuf, s)
  else if currentdirMax ≤ s then none
  else some (put cwdBuf s slash, s + 1)

/-- Save the current working directory. -/
def saveCwd (cwdBuf : Nat → UInt8) (s : Nat) (cwdName : Nat → UInt8) : Option (Nat → UInt8) :=
  (endInSlash cwdBuf s).map fun (cwdBuf, s) =>
    let s := if currentdirMax ≤ s then currentdirMax - 1 else s
    fun i => if i < s + 1 then put cwdBuf s 0 i else cwdName i

/-- The text of the name at the end of `chdir`; `cwdBuf` is what its stack holds. The error value
of `generic_inode_to_path` is the largest `size_t`. -/
def nameCwd (st : FsState) (cwdBuf cwdName : Nat → UInt8) : Option (Nat → UInt8) :=
  (genericInodeToPath st.inodes (currentdirMax - 1) st.inodes.nextId st.cwd cwdBuf).bind
    fun (cwdBuf, s) => saveCwd cwdBuf (s.getD (2 ^ 32 - 1)) cwdName

/-- `chdir` with the text of the name. -/
def chdirName (ops : FsOps W) (rounds : Nat) (w : W) (st : FsState) (cwdBuf cwdName : Nat → UInt8)
    (src : List UInt8) : Option (W × FsState × (Nat → UInt8) × Bool) :=
  (chdir ops rounds w st src).bind fun (w, st, ok) =>
    (if ok then nameCwd st cwdBuf cwdName else some cwdName).map fun cwdName => (w, st, cwdName, ok)

/-! ## The name that is saved -/

/-- A string that ends in a slash, within the 256 bytes. -/
def CwdOk (cwdName : Nat → UInt8) : Prop :=
  ∃ k, 1 ≤ k ∧ k < currentdirMax ∧ cwdName k = 0 ∧ cwdName (k - 1) = slash ∧
    ∀ j < k, cwdName j ≠ 0

variable {buf stack cwdName : Nat → UInt8} {s t : Nat} {pieces : List (List UInt8)}
  {r : (Nat → UInt8) × Nat}

/-- A path that ends in a slash and fits is kept as the current directory's name. -/
theorem cwdOk_of_slash (h : endInSlash stack t = some (buf, s)) (hpos : 1 ≤ s)
    (hs : s < currentdirMax) (hslash : buf (s - 1) = slash) (hne : ∀ j < s, buf j ≠ 0) :
    ∃ name, saveCwd stack t cwdName = some name ∧ CwdOk name := by
  refine ⟨_, by rw [saveCwd, h, Option.map_some], s, hpos, hs, ?_, ?_, fun j hj => ?_⟩
  all_goals dsimp only; rw [if_neg (Nat.not_le.mpr hs), if_pos (by omega)]
  · exact put_self s 0
  · rw [put_of_ne _ (by omega), hslash]
  · rw [put_of_ne _ (by omega)]
    exact hne j hj

/-- The text that was copied has no zeros. -/
theorem Copied.ne_zero (h : Copied (currentdirMax - 1) pieces stack r)
    (hne : ∀ b ∈ pieces.flatten, b ≠ 0) {j : Nat} (hj : j < pieces.flatten.length)
    (hroom : j < 254) : r.1 j ≠ 0 := by
  rw [h.text j hj (Nat.succ_lt_succ hroom), List.getD_eq_getElem _ _ hj]
  exact hne _ (List.getElem_mem hj)

/-- A path that fits is saved, with a slash if it has none at its end. -/
theorem saveCwd_short (h : Copied (currentdirMax - 1) pieces stack r)
    (hne : ∀ b ∈ pieces.flatten, b ≠ 0) (hlen : pieces.flatten.length ≤ 254) :
    ∃ name, saveCwd r.1 r.2 cwdName = some name ∧ CwdOk name := by
  have hmax : currentdirMax = 256 := rfl
  have htext : ∀ j < pieces.flatten.length, r.1 j ≠ 0 := fun j hj =>
    h.ne_zero hne hj (by omega)
  rw [h.length]
  by_cases hzero : pieces.flatten.length < 1
  · have hend : endInSlash r.1 pieces.flatten.length = some (put r.1 0 slash, 1) := by
      rw [endInSlash, if_pos hzero, Nat.lt_one_iff.mp hzero]
    refine cwdOk_of_slash hend (Nat.le_refl 1) (by decide) (put_self 0 slash) fun j hj => ?_
    rw [Nat.lt_one_iff.mp hj, put_self]
    exact slash_ne_zero
  · by_cases hlast : r.1 (pieces.flatten.length - 1) = slash
    · have hend : endInSlash r.1 pieces.flatten.length = some (r.1, pieces.flatten.length) := by
        rw [endInSlash, if_neg hzero, if_neg (by omega), if_pos hlast]
      exact cwdOk_of_slash hend (by omega) (by omega) hlast htext
    · have hend : endInSlash r.1 pieces.flatten.length =
          some (put r.1 pieces.flatten.length slash, pieces.flatten.length + 1) := by
        rw [endInSlash, if_neg hzero, if_neg (by omega), if_neg hlast, if_neg (by omega)]
      refine cwdOk_of_slash hend (by omega) (by omega) (put_self _ slash) fun j hj => ?_
      by_cases heq : j = pieces.flatten.length
      · rw [heq, put_self]
        exact slash_ne_zero
      · rw [put_of_ne _ heq]
        exact htext j (by omega)

/-- A path of 255 bytes has no room for the slash behind it. -/
theorem saveCwd_full (cwdName : Nat → UInt8) (hlast : buf 254 ≠ slash) : ∃ name,
    saveCwd buf 255 cwdName = some name ∧ (∀ i < 255, name i = buf i) ∧ name 255 = 0 := by
  have hend : endInSlash buf 255 = some (put buf 255 slash, 256) := by
    rw [endInSlash, if_neg (by decide), if_neg (by decide), if_neg hlast, if_neg (by decide)]
  refine ⟨fun i => if i < 256 then put (put buf 255 slash) 255 0 i else cwdName i, ?_,
    fun i hi => ?_, ?_⟩
  · rw [saveCwd, hend, Option.map_some]
    rfl
  · dsimp only
    rw [if_pos (by omega), put_of_ne _ (by omega), put_of_ne _ (by omega)]
  · dsimp only
    rw [if_pos (by decide), put_self]

/-- Behind that, a byte outside of the buffer is looked at or stored. -/
theorem saveCwd_outside (hs : 256 ≤ s) (hlast : s = 256 → stack 255 ≠ slash) :
    saveCwd stack s cwdName = none := by
  have hend : endInSlash stack s = none := by
    rw [endInSlash, if_neg (by omega)]
    by_cases hout : currentdirMax ≤ s - 1
    · rw [if_pos hout]
    · rw [currentdirMax] at hout
      obtain rfl : s = 256 := by omega
      rw [if_neg (by decide), if_neg (hlast rfl), if_pos (by decide)]
  rw [saveCwd, hend, Option.map_none]

/-- The paths that `chdir` has room for: up to 254 bytes, and 255 when the last but one string
ends the first 254 in a slash. -/
def CwdFits (pieces : List (List UInt8)) : Prop :=
  pieces.flatten.length ≤ 254 ∨ pieces.flatten.length = 255 ∧ EndsAt pieces 254 ∧
    pieces.flatten.getD 253 0 = slash

/-- A name that fits is kept whole, with its slash at the end. -/
theorem saveCwd_ok (h : Copied (currentdirMax - 1) pieces stack r)
    (hne : ∀ b ∈ pieces.flatten, b ≠ 0) (hfits : CwdFits pieces) :
    ∃ name, saveCwd r.1 r.2 cwdName = some name ∧ CwdOk name := by
  rcases hfits with hshort | ⟨hlen, hends, hslash⟩
  · exact saveCwd_short h hne hshort
  · have hzero : r.1 254 = 0 := h.terminated 254 hends (Or.inl rfl)
    obtain ⟨name, hsave, hname, -⟩ :=
      saveCwd_full cwdName (show r.1 254 ≠ slash by rw [hzero]; decide)
    refine ⟨name, by rw [h.length, hlen, hsave], 254, by decide, by decide, ?_, ?_, ?_⟩
    · rw [hname 254 (by decide), hzero]
    · rw [hname 253 (by decide), h.text 253 (by omega) (by decide), hslash]
    · intro j hj
      rw [hname j (by omega)]
      exact h.ne_zero hne (by omega) hj

/-- When the stack holds neither slashes nor zeros, the others are not saved as they should be. -/
theorem saveCwd_not_ok (h : Copied (currentdirMax - 1) pieces (fun _ => 1) r)
    (hne : ∀ b ∈ pieces.flatten, b ≠ 0) (hfits : ¬CwdFits pieces) :
    ∀ name, saveCwd r.1 r.2 cwdName = some name → ¬CwdOk name := by
  rintro name hsave ⟨k, hpos, hk, hzero, hslash, hbefore⟩
  rw [CwdFits, not_or] at hfits
  rw [h.length] at hsave
  by_cases hlen : pieces.flatten.length = 255
  · have htext : ∀ j < 254, r.1 j ≠ 0 := fun j hj => h.ne_zero hne (by omega) hj
    by_cases hends : EndsAt pieces 254
    · -- a terminator in the last byte of the path, behind a byte of a name
      have hlast : r.1 254 = 0 := h.terminated 254 hends (Or.inl rfl)
      obtain ⟨name', hsave', hname, -⟩ :=
        saveCwd_full cwdName (show r.1 254 ≠ slash by rw [hlast]; decide)
      rw [hlen, hsave'] at hsave
      obtain rfl := Option.some.inj hsave
      have hk' : k = 254 := by
        by_contra hk'
        rcases Nat.lt_or_gt_of_ne hk' with hlt | hgt
        · exact htext k hlt (hname k (by omega) ▸ hzero)
        · exact hbefore 254 hgt (by rw [hname 254 (by decide), hlast])
      rw [hk', hname 253 (by decide), h.text 253 (by omega) (by decide)] at hslash
      exact hfits.2 ⟨hlen, hends, hslash⟩
    · -- the byte of the stack
      have hlast : r.1 254 = 1 := h.old 254 (Or.inl hends) (Or.inr (Nat.le_refl 255))
      obtain ⟨name', hsave', hname, hend⟩ :=
        saveCwd_full cwdName (show r.1 254 ≠ slash by rw [hlast]; decide)
      rw [hlen, hsave'] at hsave
      obtain rfl := Option.some.inj hsave
      have hk' : k = 255 := by
        by_contra hk'
        rw [currentdirMax] at hk
        by_cases heq : k = 254
        · rw [heq, hname 254 (by decide), hlast] at hzero
          exact absurd hzero (by decide)
        · exact htext k (by omega) (hname k (by omega) ▸ hzero)
      rw [hk', hname 254 (by decide), hlast] at hslash
      exact absurd hslash (by decide)
  · have hold : r.1 255 = 1 := h.old 255 (Or.inr (Nat.le_refl 255)) (Or.inr (by decide))
    rw [saveCwd_outside (by omega) fun _ => by rw [hold]; decide] at hsave
    cases hsave

/-! ## The path in the buffer of the caller -/

/-- The longest prefix of a path that fits, and the terminator behind it. -/
structure HoldsPrefix (n : Nat) (path : List UInt8) (dst : Nat → UInt8) : Prop where
  text : ∀ i < min path.length (n - 1), dst i = path.getD i 0
  terminated : dst (min path.length (n - 1)) = 0

/-- A buffer has room for a path, or the path runs over it where a string ends. -/
def Fits (n : Nat) (pieces : List (List UInt8)) : Prop :=
  pieces.flatten.length < n ∨ EndsAt pieces (n - 1)

variable {n : Nat}

/-- Copied pieces that fit are in the buffer from its start. -/
theorem Copied.holdsPrefix (h : Copied n pieces buf r) (hn : 1 ≤ n) (hne : pieces ≠ [])
    (hfits : Fits n pieces) : HoldsPrefix n pieces.flatten r.1 := by
  refine ⟨fun i hi => h.text i (by omega) (by omega), ?_⟩
  by_cases hroom : pieces.flatten.length < n
  · rw [Nat.min_eq_left (by omega)]
    exact h.terminated _ ⟨pieces, List.prefix_rfl, hne, rfl⟩ (Or.inr ⟨rfl, hroom⟩)
  · rw [Nat.min_eq_right (by omega)]
    exact h.terminated _ (hfits.resolve_left hroom) (Or.inl (by omega))

/-- Copied pieces that do not fit are not in the buffer. -/
theorem Copied.not_holdsPrefix (h : Copied n pieces (fun _ => 1) r) (hn : 1 ≤ n)
    (hfits : ¬Fits n pieces) : ¬HoldsPrefix n pieces.flatten r.1 := by
  intro hholds
  rw [Fits, not_or] at hfits
  have hterm := hholds.terminated
  rw [Nat.min_eq_right (by omega),
    h.old (n - 1) (Or.inl hfits.2) (Or.inr (by omega))] at hterm
  exact absurd hterm (by decide)

/-- Every path but that of the root starts with a slash. -/
theorem HasPath.slash {s : Inodes} {x : Nat} (h : HasPath s x pieces) (hne : pieces ≠ []) :
    ∃ rest, pieces = [slash] :: rest := by
  induction h with
  | root => exact absurd rfl hne
  | @child x p i name pieces hx hp hname h ih =>
    by_cases hroot : pieces = []
    · exact ⟨[cstr name], by rw [hroot]; rfl⟩
    · obtain ⟨rest, rfl⟩ := ih hroot
      exact ⟨rest ++ [[Vfs.slash]] ++ [cstr name], rfl⟩

variable {ops : FsOps W} {rounds : Nat} {w w' : W} {st st' : FsState} {src : List UInt8}
  {dst : Nat → UInt8} {x : Nat}

/-- The strings of the full path of the inode that a search finds. -/
def FullPath (ops : FsOps W) (rounds : Nat) (w : W) (st : FsState) (src : List UInt8)
    (pieces : List (List UInt8)) : Prop :=
  ∃ w' st' i x names, searchdir ops rounds w st src = some (w', st', some i) ∧
    (st'.files i).inode = some x ∧ HasPath st'.inodes x names ∧
    pieces = if names = [] then [[slash]] else names

/-- The pieces of a full path are determined. -/
theorem FullPath.unique {pieces' : List (List UInt8)} (h : FullPath ops rounds w st src pieces)
    (h' : FullPath ops rounds w st src pieces') : pieces = pieces' := by
  obtain ⟨w₁, st₁, i₁, x₁, names₁, hrun₁, hfile₁, hpath₁, rfl⟩ := h
  obtain ⟨w₂, st₂, i₂, x₂, names₂, hrun₂, hfile₂, hpath₂, rfl⟩ := h'
  rw [hrun₁] at hrun₂
  cases hrun₂
  rw [hfile₁] at hfile₂
  cases hfile₂
  rw [hpath₁.unique hpath₂]

/-- A full path starts with a slash. -/
theorem FullPath.slash (h : FullPath ops rounds w st src pieces) :
    ∃ rest, pieces = [slash] :: rest := by
  obtain ⟨w', st', i, x, names, -, -, hpath, rfl⟩ := h
  by_cases hroot : names = []
  · exact ⟨[], if_pos hroot⟩
  · rw [if_neg hroot]
    exact hpath.slash hroot

/-- After a search that finds an inode, the full path is copied or there is none. -/
theorem realpath_found {i : Fin maxOpen} (hi : st.Inv)
    (hrun : searchdir ops rounds w st src = some (w', st', some i)) (dst : Nat → UInt8) (n : Nat) :
    ∃ st₂,
      (∃ pieces r, pieces ≠ [] ∧ FullPath ops rounds w st src pieces ∧ Copied n pieces dst r ∧
        realpath ops rounds w st dst src n = some (w', st₂, r.1, some r.2)) ∨
      (¬∃ pieces, FullPath ops rounds w st src pieces) ∧
        realpath ops rounds w st dst src n = some (w', st₂, dst, none) := by
  have hopened := searchdir_opened hi hrun
  obtain ⟨x, inode, hslot, hmem, hinode⟩ := hopened.file
  have hfile : (st'.files i).inode = some x := congrArg File.inode hslot
  obtain ⟨st₂, hclose⟩ : ∃ st₂, st'.closeFileAt i = some st₂ := by
    obtain ⟨s, hclose, -, -⟩ := hopened.inv.close i
    exact ⟨_, hclose⟩
  refine ⟨st₂, ?_⟩
  rw [realpath, hrun, Option.bind_some]
  dsimp only
  rw [hfile, Option.bind_some]
  rcases genericInodeToPath_spec hopened.inv.held
    (show st'.inodes.node x ≠ none by rw [hinode]; exact Option.some_ne_none inode)
    (hopened.inv.held.lt hmem) n dst with ⟨names, r, hpath, hcopied, heq⟩ | ⟨hnone, heq⟩
  · left
    rw [heq, Option.bind_some, hclose, Option.map_some]
    by_cases hroot : names = []
    · obtain rfl := hroot
      have hzero : r.2 = 0 := hcopied.length
      refine ⟨[[slash]], copyString n [slash] r, List.cons_ne_nil _ _,
        ⟨w', st', i, x, [], hrun, hfile, hpath, rfl⟩, hcopied.concat [slash], ?_⟩
      obtain ⟨buf, ix⟩ := r
      obtain rfl : ix = 0 := hzero
      rfl
    · have hpos : 0 < r.2 := by
        obtain ⟨rest, rfl⟩ := hpath.slash hroot
        rw [hcopied.length, List.flatten_cons, List.length_append]
        exact Nat.add_pos_left Nat.one_pos _
      refine ⟨names, r, hroot, ⟨w', st', i, x, names, hrun, hfile, hpath, (if_neg hroot).symm⟩,
        hcopied, ?_⟩
      rw [if_neg fun h => by have := Option.some.inj h; omega]
      rfl
  · right
    rw [heq, Option.bind_some, hclose, Option.map_some]
    refine ⟨?_, rfl⟩
    rintro ⟨pieces, w₁, st₁, i₁, x₁, names, hrun₁, hfile₁, hpath, -⟩
    rw [hrun] at hrun₁
    cases hrun₁
    rw [hfile] at hfile₁
    cases hfile₁
    exact hnone ⟨names, hpath⟩

/-- What a caller of `realpath` relies on, whatever the buffer holds: no byte behind it is stored,
and it holds what fits of the full path. -/
def RealpathRight (ops : FsOps W) (w : W) (st : FsState) (src : List UInt8) (n : Nat) : Prop :=
  ∀ dst, ∃ rounds w' st' dst' s pieces,
    realpath ops rounds w st dst src n = some (w', st', dst', s) ∧
      FullPath ops rounds w st src pieces ∧ (∀ i, n ≤ i → dst' i = dst i) ∧
      HoldsPrefix n pieces.flatten dst'

/-- What `chdir` leaves, whatever its stack holds: it stays within its buffer, and the name is
a string that ends in a slash. -/
def ChdirRight (ops : FsOps W) (w : W) (st : FsState) (src : List UInt8) : Prop :=
  ∀ cwdBuf cwdName, CwdOk cwdName → ∃ rounds w' st' cwdName' ok,
    chdirName ops rounds w st cwdBuf cwdName src = some (w', st', cwdName', ok) ∧ CwdOk cwdName'

/-- `realpath` gives the right path if it finds one that fits into the buffer. -/
theorem realpathRight_iff (hi : st.Inv) (hn : 1 ≤ n) :
    RealpathRight ops w st src n ↔
      ∃ rounds pieces, FullPath ops rounds w st src pieces ∧ Fits n pieces := by
  constructor
  · intro hright
    obtain ⟨rounds, w', st', dst', s, pieces, hrun, hfull, -, hholds⟩ := hright fun _ => 1
    obtain ⟨w₁, st₁, i, x, names, hsearch, -⟩ := id hfull
    obtain ⟨st₂, ⟨pieces₂, r, -, hfull₂, hcopied, hrun₂⟩ | ⟨hnone, -⟩⟩ :=
      realpath_found hi hsearch (fun _ => 1) n
    · refine ⟨rounds, pieces₂, hfull₂, ?_⟩
      by_contra hfits
      rw [hrun₂] at hrun
      cases hrun
      obtain rfl := hfull.unique hfull₂
      exact hcopied.not_holdsPrefix hn hfits hholds
    · exact absurd ⟨pieces, hfull⟩ hnone
  · rintro ⟨rounds, pieces, hfull, hfits⟩ dst
    obtain ⟨w₁, st₁, i, x, names, hsearch, -⟩ := id hfull
    obtain ⟨st₂, ⟨pieces₂, r, hne, hfull₂, hcopied, hrun₂⟩ | ⟨hnone, -⟩⟩ :=
      realpath_found hi hsearch dst n
    · obtain rfl := hfull.unique hfull₂
      exact ⟨rounds, w₁, st₂, r.1, _, pieces, hrun₂, hfull,
        fun i hi => hcopied.old i (Or.inr hi) (Or.inr (by omega)),
        hcopied.holdsPrefix hn hne hfits⟩
    · exact absurd ⟨pieces, hfull⟩ hnone

/-- The current directory is an inode in use. -/
theorem FsState.Inv.cwd_live (hi : st.Inv) :
    st.inodes.node st.cwd ≠ none ∧ st.cwd < st.inodes.nextId := by
  have hmem : st.cwd ∈ st.refs := List.mem_cons_of_mem _ List.mem_cons_self
  exact ⟨Inodes.shape_ne_none.mp (hi.held.alive _ hmem), hi.held.lt hmem⟩

/-- The name of a directory whose path fits is a good one. -/
theorem nameCwd_ok (hi : st.Inv) (hpath : HasPath st.inodes st.cwd pieces) (hfits : CwdFits pieces)
    (cwdBuf cwdName : Nat → UInt8) :
    ∃ name, nameCwd st cwdBuf cwdName = some name ∧ CwdOk name := by
  obtain ⟨pieces', r, hpath', hcopied, heq⟩ | ⟨hnone, -⟩ :=
    genericInodeToPath_spec hi.held hi.cwd_live.1 hi.cwd_live.2 (currentdirMax - 1) cwdBuf
  · obtain rfl := hpath.unique hpath'
    rw [nameCwd, heq, Option.bind_some]
    exact saveCwd_ok hcopied hpath.ne_zero hfits
  · exact absurd ⟨pieces, hpath⟩ hnone

/-- Only a directory whose path fits gets a good name. -/
theorem fits_of_nameCwd {name : Nat → UInt8} (hi : st.Inv)
    (hname : nameCwd st (fun _ => 1) cwdName = some name) (hok : CwdOk name) :
    ∃ pieces, HasPath st.inodes st.cwd pieces ∧ CwdFits pieces := by
  obtain ⟨pieces, r, hpath, hcopied, heq⟩ | ⟨-, heq⟩ :=
    genericInodeToPath_spec hi.held hi.cwd_live.1 hi.cwd_live.2 (currentdirMax - 1) fun _ => 1
  · rw [nameCwd, heq, Option.bind_some] at hname
    refine ⟨pieces, hpath, ?_⟩
    by_contra hfits
    exact saveCwd_not_ok hcopied hpath.ne_zero hfits name hname hok
  · -- the error value is an index far behind the buffer
    rw [nameCwd, heq, Option.bind_some] at hname
    dsimp only at hname
    rw [Option.getD_none, saveCwd_outside (by decide) fun h => absurd h (by decide)] at hname
    cases hname

/-- `chdir` keeps the old name when it fails and takes that of the directory otherwise. -/
theorem chdirName_eq {ok : Bool} (h : chdir ops rounds w st src = some (w', st', ok))
    (cwdBuf cwdName : Nat → UInt8) : chdirName ops rounds w st cwdBuf cwdName src =
      (if ok then nameCwd st' cwdBuf cwdName else some cwdName).map
        fun cwdName => (w', st', cwdName, ok) := by
  rw [chdirName, h, Option.bind_some]

/-- The current directory of `chdir` is the one that its search finds, if it finds one, with the
path that it has then. -/
theorem chdir_enters {found : Option (Fin maxOpen × Nat × Attrs)} (hi : st.Inv)
    (hsearch : searchMode ops rounds w st dtDir src = some (w', st', found)) :
    ∃ st₂, chdir ops rounds w st src = some (w', st₂, found.isSome) ∧ st₂.Inv ∧
      ∀ i x attrs, found = some (i, x, attrs) → ∀ pieces,
        HasPath st'.inodes x pieces ↔ HasPath st₂.inodes st₂.cwd pieces := by
  obtain ⟨hopened, hfile⟩ := searchMode_opened hi hsearch
  rw [chdir, hsearch, Option.bind_some]
  rcases found with _ | ⟨i, x, attrs⟩
  · exact ⟨st', rfl, hopened.inv, fun _ _ _ h => by cases h⟩
  · obtain ⟨s₁, s₂, st₂, hput, hget, hclose, hinv, -, hcwd, hkeeps⟩ :=
      enter_dir hopened.inv (hfile i x attrs rfl)
    dsimp only
    rw [hput, Option.bind_some, hget, Option.bind_some, hclose, Option.map_some]
    refine ⟨st₂, rfl, hinv, fun j y attrs' h pieces => ?_⟩
    cases h
    have hlive := hinv.cwd_live.1
    rw [hcwd] at hlive ⊢
    exact HasPath.keeps_iff hkeeps hinv.held hlive

/-- `chdir` does right if the path of every directory that the search finds fits. -/
theorem chdirRight_iff (hi : st.Inv) :
    ChdirRight ops w st src ↔ ∃ rounds w' st' found,
      searchMode ops rounds w st dtDir src = some (w', st', found) ∧
        ∀ i x attrs, found = some (i, x, attrs) →
          ∃ pieces, HasPath st'.inodes x pieces ∧ CwdFits pieces := by
  constructor
  · intro hright
    have hok : CwdOk (put (fun _ => slash) 1 0) :=
      ⟨1, by decide, by decide, rfl, rfl, fun j hj => by rw [Nat.lt_one_iff.mp hj]; decide⟩
    obtain ⟨rounds, w', st', name, ok, hrun, hname⟩ := hright (fun _ => 1) _ hok
    obtain ⟨r, hchdir, -⟩ := Option.bind_eq_some_iff.mp hrun
    obtain ⟨⟨w₁, st₁, found⟩, hsearch, -⟩ := Option.bind_eq_some_iff.mp hchdir
    obtain ⟨st₂, hchdir₂, hinv, hpath⟩ := chdir_enters hi hsearch
    refine ⟨rounds, w₁, st₁, found, hsearch, fun i x attrs hfound => ?_⟩
    subst hfound
    rw [chdirName_eq hchdir₂, Option.isSome_some, if_pos rfl] at hrun
    obtain ⟨name', hsave, heq⟩ := Option.map_eq_some_iff.mp hrun
    cases heq
    obtain ⟨pieces, hpieces, hfits⟩ := fits_of_nameCwd hinv hsave hname
    exact ⟨pieces, (hpath i x attrs rfl pieces).mpr hpieces, hfits⟩
  · rintro ⟨rounds, w', st', found, hsearch, hfits⟩ cwdBuf cwdName hname
    obtain ⟨st₂, hchdir, hinv, hpath⟩ := chdir_enters hi hsearch
    rcases found with _ | ⟨i, x, attrs⟩
    · exact ⟨rounds, w', st₂, cwdName, false, chdirName_eq hchdir cwdBuf cwdName, hname⟩
    · obtain ⟨pieces, hpieces, hroom⟩ := hfits i x attrs rfl
      obtain ⟨name, hsave, hok⟩ :=
        nameCwd_ok hinv ((hpath i x attrs rfl pieces).mp hpieces) hroom cwdBuf cwdName
      refine ⟨rounds, w', st₂, name, true, ?_, hok⟩
      rw [chdirName_eq hchdir, Option.isSome_some, if_pos rfl, hsave, Option.map_some]

/-- For any depth and names, in any state that a run reaches: `realpath` does its part exactly
when it finds a path that is shorter than the buffer or runs over it where a string ends, and
`chdir` exactly when its search finds no directory or one whose path leaves room for a slash. -/
theorem paths_bounded_iff (hr : Reachable ops st) (w : W) (src : List UInt8) :
    (∀ n, 1 ≤ n → (RealpathRight ops w st src n ↔
      ∃ rounds pieces, FullPath ops rounds w st src pieces ∧ Fits n pieces)) ∧
    (ChdirRight ops w st src ↔ ∃ rounds w' st' found,
      searchMode ops rounds w st dtDir src = some (w', st', found) ∧
        ∀ i x attrs, found = some (i, x, attrs) →
          ∃ pieces, HasPath st'.inodes x pieces ∧ CwdFits pieces) :=
  ⟨fun _ hn => realpathRight_iff hr.inv hn, chdirRight_iff hr.inv⟩

/-- The file `d/f` in a buffer of five bytes, and its directory as the current one. -/
theorem paths_bounded_iff_sub : ∃ st, Reachable sampleOps st ∧
    RealpathRight sampleOps () st [100, slash, 102] 5 ∧ ChdirRight sampleOps () st [100] := by
  have hrun : (fsInit sampleOps 9).bind (fun st =>
      (searchdir sampleOps 9 () st [100, slash, 102]).bind fun r => r.2.2.bind fun i =>
        (r.2.1.files i).inode.bind fun x => (pathOf r.2.1.inodes 3 x).bind fun names =>
          (searchMode sampleOps 9 () st dtDir [100]).bind fun r' => r'.2.2.bind fun found =>
            (pathOf r'.2.1.inodes 3 found.2.1).map fun names' => (names, names')) =
      some ([[slash], [100], [slash], [102]], [[slash], [100]]) := by decide +kernel
  obtain ⟨st, hinit, hrun⟩ := Option.bind_eq_some_iff.mp hrun
  obtain ⟨⟨w', st', rv⟩, hsearch, hrun⟩ := Option.bind_eq_some_iff.mp hrun
  obtain ⟨i, rfl, hrun⟩ := Option.bind_eq_some_iff.mp hrun
  obtain ⟨x, hfile, hrun⟩ := Option.bind_eq_some_iff.mp hrun
  obtain ⟨names, hnames, hrun⟩ := Option.bind_eq_some_iff.mp hrun
  obtain ⟨⟨w₂, st₂, rv₂⟩, hmode, hrun⟩ := Option.bind_eq_some_iff.mp hrun
  obtain ⟨found, rfl, hrun⟩ := Option.bind_eq_some_iff.mp hrun
  obtain ⟨names', hnames', heq⟩ := Option.map_eq_some_iff.mp hrun
  obtain ⟨rfl, rfl⟩ := Prod.mk.inj heq
  have hr : Reachable sampleOps st := .init hinit
  refine ⟨st, hr, ((paths_bounded_iff hr () [100, slash, 102]).1 5 (by decide)).mpr
    ⟨9, _, ⟨w', st', i, x, _, hsearch, hfile, hasPath_of_pathOf hnames, rfl⟩, Or.inl (by decide)⟩,
    (paths_bounded_iff hr () [100]).2.mpr ⟨9, w₂, st₂, some found, hmode, fun j y attrs h => ?_⟩⟩
  cases h
  exact ⟨_, hasPath_of_pathOf hnames', Or.inl (by decide)⟩

/-- The root, in a buffer of one byte: there is no room for the slash, and the terminator comes
behind it. -/
theorem realpath_unterminated : ∃ st, Reachable sampleOps st ∧
    ¬RealpathRight sampleOps () st [slash] 1 := by
  obtain ⟨st, hinit, hinv⟩ := fsInit_inv sampleOps 9
  refine ⟨st, .init hinit, fun hright => ?_⟩
  obtain ⟨rounds, pieces, hfull, hfits⟩ := (realpathRight_iff hinv (Nat.le_refl 1)).mp hright
  obtain ⟨rest, rfl⟩ := hfull.slash
  rcases hfits with hlen | ⟨pre, hpre, hne, hzero⟩
  · rw [List.flatten_cons, List.length_append, List.length_singleton] at hlen
    omega
  · obtain ⟨pre, rfl, -⟩ := (List.prefix_cons_iff.mp hpre).resolve_left hne
    rw [List.flatten_cons, List.length_append, List.length_singleton] at hzero
    omega

end Liigboot.Vfs
