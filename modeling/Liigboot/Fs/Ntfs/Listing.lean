import Liigboot.Lib.Cursor
import Liigboot.Fs.Ntfs.DirectoryReads
import Liigboot.Fs.Ntfs.ReaddirRuns

/-!
# Listing a directory

The calls of `ntfs_readdir` return the printable entries of a directory once each, and then report
the end, as long as the record stays where it was in the first call, no other directory is set up
once the calls are in the index blocks, and the memory at NULL happens to have the flag of a node.
-/

namespace Liigboot.Fs.Ntfs

/-! ## Runs -/

/-- The record with the index root, and the attribute in it. -/
def Volume.rootRecord (v : Volume) (mftNo : Nat) : Option (List UInt8 × Nat) :=
  (v.mftRecordLookup mftNo).bind fun lmrec => v.ntfsAttrLookup atIndexRoot lmrec lmrec

/-- The buffers of a call lie in memory. -/
structure Call.InMemory (c : Call) (v : Volume) (mrec : List UInt8) : Prop where
  addr_pos : 0 < c.addr
  record : c.addr + mrec.length < 2 ^ 32
  block : c.buf + v.fs.blockSize < 2 ^ 32

/-- A call that goes on where the last one left off: in the root, the record lies where it did; in
the blocks, the flags of the entry at NULL are those of a node. -/
structure Call.GoesOn (c : Call) (v : Volume) (mrec : List UInt8) (place : Nat) (s : DirState) :
    Prop where
  inMemory : c.InMemory v mrec
  first : s.readdirState.inIdxRoot = true → s.offset = 0 → c.addr = place
  root : s.readdirState.inIdxRoot = true → At (c.memory mrec) place mrec
  blocks : s.readdirState.inIdxRoot = false →
    IdxEntry.flags (c.memory mrec) 0 &&& indexEntryNode ≠ 0

/-- A call that returns. -/
def Calls (v : Volume) (mftNo : Nat) (ok : DirState → Call → Prop) (s : DirState)
    (r : Option Dirent) (t : DirState) : Prop :=
  ∃ c n, ok s c ∧ ntfsReaddir v mftNo n c s = some (t, r)

/-- A directory is looked up or opened. -/
def SetsUp (ok : DirState → Prop) (s t : DirState) : Prop :=
  ok s ∧ ∃ garbage mftNo, t = indexInodeSetupDir garbage mftNo s

/-- The directory is open, and no entry of it has been read. -/
structure DirState.Opened (s : DirState) : Prop where
  offset : s.offset = 0
  root : s.readdirState.inIdxRoot = true

/-- What is returned for an entry. -/
structure Shows (v : Volume) (de : Dirent) (e : IndexEntry) : Prop where
  dIno : de.dIno = u32 e.indexedFile
  dReclen : de.dReclen = 12 + e.filename.length + 1
  dName : de.dName = e.filename ++ [0]
  isDirectory : ∃ mrec, v.mftRecordLookup (u32 e.indexedFile) = some mrec ∧
    de.isDirectory = isDirectory mrec

/-- The printable entries of a directory, with its index blocks in some order. -/
def Directory.listing (d : Directory) (bs : List Nat) : List IndexEntry :=
  (d.root.entries ++ bs.flatMap fun b => (d.node b).entries).filter IndexEntry.printable

/-- The calls return each printable entry of the root and of the index blocks once, and then the
end: each call returns, and the results so far are the front of these. -/
def ListsDir (l : Layout) (v : Volume) (mftNo : Nat) (d : Directory)
    (okCall : DirState → Call → Prop) (okSetup : DirState → Prop) : Prop :=
  ∃ bs : List Nat, bs.Nodup ∧ (∀ b, b ∈ bs ↔ d.InTree l.vcnStep b) ∧
    ∀ s rs t, s.Opened → Visits (Calls v mftNo okCall) (SetsUp okSetup) s rs t →
      rs.length ≤ (d.listing bs).length + 1 →
      List.Forall₂ (Option.Rel (Shows v)) rs ((visited (d.listing bs)).take rs.length) ∧
      (rs.length ≤ (d.listing bs).length → ∀ c, okCall t c →
        ∃ n u r, ntfsReaddir v mftNo n c t = some (u, r))

/-- The records of the entries are found. Where there are index blocks, the blocks that are read are
those in use, once each. -/
structure Listable (l : Layout) (v : Volume) (d : Directory) : Prop where
  files : ∀ e, d.HasEntry l.vcnStep e → e.printable = true →
    ∃ mrec, v.mftRecordLookup (u32 e.indexedFile) = some mrec
  blocks : d.root.last ≠ none → l.Readable ∧ l.reads.Nodup

variable {l : Layout} {v : Volume} {mftNo attr place m n : Nat} {d : Directory}
  {mrec lmrec : List UInt8} {s t : DirState} {c : Call} {mem : Memory} {ie : Nat}
  {es xs : List IndexEntry} {nodes : List Node} {e : IndexEntry}

/-! ## More iterations -/

/-- More fuel does not change where a descent ends. -/
theorem descendIntoChildNode_le {x : DirState × Option Dirent} (hmn : m ≤ n)
    (h : descendIntoChildNode v m c mem mrec lmrec s ie = some x) :
    descendIntoChildNode v n c mem mrec lmrec s ie = some x := by
  rw [descendIntoChildNode] at h ⊢
  split_ifs at h ⊢ with hnode
  · exact h
  · cases hattr : v.ntfsAttrLookup atIndexAllocation mrec lmrec with
    | none =>
      rw [hattr] at h
      exact h
    | some found =>
      obtain ⟨mrec', attr'⟩ := found
      rw [hattr] at h
      dsimp only at h ⊢
      split_ifs at h ⊢ with hres
      · exact h
      · cases hrun : runLoop (labelStep v.fs v.disk mem c.buf mrec' attr') m
            (s.readdirState, .nextRun) with
        | none =>
          rw [hrun] at h
          cases h
        | some result =>
          rw [hrun] at h
          rw [(steady_const _).runLoop_self_le hrun hmn]
          exact h

/-- More iterations do not change what a call returns. -/
theorem ntfsReaddir_le {x : DirState × Option Dirent} (hmn : m ≤ n)
    (h : ntfsReaddir v mftNo m c s = some x) : ntfsReaddir v mftNo n c s = some x := by
  rw [ntfsReaddir] at h ⊢
  cases hmft : v.mftRecordLookup mftNo with
  | none =>
    rw [hmft] at h
    exact h
  | some lmrec =>
    rw [hmft] at h
    dsimp only at h ⊢
    cases hattr : v.ntfsAttrLookup atIndexRoot lmrec lmrec with
    | none =>
      rw [hattr] at h
      exact h
    | some found =>
      obtain ⟨mrec, attr⟩ := found
      rw [hattr] at h
      dsimp only at h ⊢
      by_cases hroot : s.readdirState.inIdxRoot = true
      · rw [if_pos hroot] at h ⊢
        cases hrun : runLoop (rootStep (c.memory mrec)) m (if s.offset = 0 then
            u32 (c.addr + rootIndex mrec attr + readLe mrec (rootIndex mrec attr) 4)
          else s.offset) with
        | none =>
          rw [hrun] at h
          cases h
        | some result =>
          rw [hrun] at h
          rw [(steady_const _).runLoop_self_le hrun hmn]
          obtain ⟨ie, _ | offset⟩ := result
          · exact descendIntoChildNode_le hmn h
          · exact h
      · rw [if_neg hroot] at h ⊢
        exact descendIntoChildNode_le hmn h

/-- The result of a call does not depend on the fuel. -/
theorem ntfsReaddir_unique {x y : DirState × Option Dirent}
    (hx : ntfsReaddir v mftNo m c s = some x) (hy : ntfsReaddir v mftNo n c s = some y) :
    x = y :=
  Option.some.inj ((ntfsReaddir_le (Nat.le_max_left m n) hx).symm.trans
    (ntfsReaddir_le (Nat.le_max_right m n) hy))

/-! ## The next entry -/

/-- The entries that a place has yet to come to: from the start, in the root behind an address, or
in the blocks. -/
inductive Position (l : Layout) (v : Volume) (d : Directory) (nodes : List Node)
    (mrec : List UInt8) (attr place : Nat) : DirState → List IndexEntry → Prop
  | start {s : DirState} (h : s.Opened) :
      Position l v d nodes mrec attr place s (d.root.entries ++ nodes.flatMap Node.entries)
  | root {s : DirState} {off : Nat} {es : List IndexEntry} (hoffset : s.offset = place + off)
      (hroot : s.readdirState.inIdxRoot = true)
      (h : EntriesAt mrec (indexLimit mrec (rootIndex mrec attr)) off es d.root.last) :
      Position l v d nodes mrec attr place s (es ++ nodes.flatMap Node.entries)
  | blocks {s : DirState} {es : List IndexEntry} (hoffset : s.offset = 0)
      (hroot : s.readdirState.inIdxRoot = false) (hlast : d.root.last ≠ none)
      (h : Remains v.fs v.disk (runChunks 0 l.runs) s.readdirState es) :
      Position l v d nodes mrec attr place s es

/-- The printable entries that remain, whose records are found. -/
def EntriesLeft (l : Layout) (v : Volume) (d : Directory) (nodes : List Node) (mrec : List UInt8)
    (attr place : Nat) (s : DirState) (xs : List IndexEntry) : Prop :=
  (∃ es, Position l v d nodes mrec attr place s es ∧ xs = es.filter IndexEntry.printable) ∧
    ∀ x ∈ xs, ∃ mrec, v.mftRecordLookup (u32 x.indexedFile) = some mrec

/-- What a call returns is the first entry that remains, or the end. -/
def Returns (remains : DirState → List IndexEntry → Prop) (v : Volume) (xs : List IndexEntry)
    (x : DirState × Option Dirent) : Prop :=
  (xs = [] ∧ x.2 = none) ∨
    ∃ de e ys, xs = e :: ys ∧ x.2 = some de ∧ Shows v de e ∧ remains x.1 ys

/-- The code at `done` returns the entry. -/
theorem readdirDone_shows (h : ReadAt mem ie e)
    (hfile : ∃ mrec, v.mftRecordLookup (u32 e.indexedFile) = some mrec) (s : DirState) :
    ∃ de, readdirDone v s mem ie = (s, some de) ∧ Shows v de e := by
  obtain ⟨mrec, hmrec⟩ := hfile
  rw [readdirDone, h.indexedFile, hmrec, h.filename]
  exact ⟨_, rfl, rfl, rfl, rfl, mrec, hmrec, rfl⟩

section Calls

variable (hl : l.WellFormed) (hs : Stored l v mftNo d)
  (hroot : v.rootRecord mftNo = some (mrec, attr))

include hs hroot

/-- The record with the root, and the one with the runs. -/
theorem Stored.records : ∃ lmrec, v.mftRecordLookup mftNo = some lmrec ∧
    v.ntfsAttrLookup atIndexRoot lmrec lmrec = some (mrec, attr) ∧
    NodeAt mrec (rootIndex mrec attr) d.root ∧
    (l.runs ≠ [] → ∃ mrec' attr', v.ntfsAttrLookup atIndexAllocation mrec lmrec =
      some (mrec', attr') ∧ AllocationAt mrec' attr' l.runs) := by
  obtain ⟨lmrec, mrec', attr', hmft, hattr, hnode, halloc⟩ := hs.root
  rw [Volume.rootRecord, hmft, Option.bind_some, hattr] at hroot
  obtain ⟨rfl, rfl⟩ := Prod.mk.inj (Option.some.inj hroot)
  exact ⟨lmrec, hmft, hattr, hnode, halloc⟩

include hl

/-- The code in the blocks gets to the next entry that remains. -/
theorem descend_returns (nodes : List Node) (place : Nat) (hc : c.InMemory v mrec)
    (hcached : l.fs.blockShift < 16) (hlast : d.root.last ≠ none)
    (hmft : v.mftRecordLookup mftNo = some lmrec)
    (hnode : IdxEntry.flags mem ie &&& indexEntryNode ≠ 0) (hoffset : s.offset = 0)
    (hrem : Remains v.fs v.disk (runChunks 0 l.runs) s.readdirState es)
    (hfiles : ∀ x ∈ es.filter IndexEntry.printable,
      ∃ mrec, v.mftRecordLookup (u32 x.indexedFile) = some mrec) :
    ∃ n x, descendIntoChildNode v n c mem mrec lmrec s ie = some x ∧
      Returns (EntriesLeft l v d nodes mrec attr place) v (es.filter IndexEntry.printable) x := by
  obtain ⟨lmrec', hmft', -, -, halloc⟩ := hs.records hroot
  obtain rfl := Option.some.inj (hmft.symm.trans hmft')
  obtain ⟨vcn, hvcn⟩ := Option.ne_none_iff_exists'.mp hlast
  obtain ⟨mrec', attr', hattr, halloc⟩ := halloc (runs_ne_nil hl hs hvcn)
  have hsizes : BlockSizes v.fs c.buf := by
    have hmem := hc.block
    rw [hs.fs] at hmem ⊢
    exact ⟨hcached, Layout.sectorSize_ge hl, Nat.le_add_left _ _,
      Nat.pow_le_pow_right (by decide) (Nat.le_add_left _ _), hmem⟩
  have hreach : ∀ n r, runLoop (labelStep v.fs v.disk mem c.buf mrec' attr') n
      (s.readdirState, .nextRun) = some r →
      descendIntoChildNode v n c mem mrec lmrec s ie =
        some (r.2.elim (readdirOut { s with readdirState := r.1 }) fun found =>
          readdirDone v { s with readdirState := r.1 } found.1 found.2) := by
    intro n r hrun
    rw [descendIntoChildNode, if_neg hnode, hattr]
    dsimp only
    rewrite [if_neg halloc.nonResident, hrun]
    obtain ⟨st, found⟩ := r
    cases found <;> rfl
  rcases remains_next hsizes halloc hl.inRange hl.allocated mem hrem with
    ⟨hnil, n, st, hrun⟩ | ⟨e, rest, hcons, n, st, mem', found, hrun, hread, hrest⟩
  · exact ⟨n, _, hreach n _ hrun, Or.inl ⟨hnil, rfl⟩⟩
  · rw [hcons] at hfiles ⊢
    obtain ⟨hfile, hothers⟩ := List.forall_mem_cons.mp hfiles
    obtain ⟨de, hdone, hshows⟩ := readdirDone_shows hread hfile { s with readdirState := st }
    refine ⟨n, _, hreach n _ hrun, Or.inr ⟨de, e, _, rfl, ?_, hshows, ⟨rest, ?_, rfl⟩, ?_⟩⟩
    · rw [Option.elim_some, hdone]
    · rw [Option.elim_some, hdone]
      obtain ⟨j, i, ch, ns, hplace, heq⟩ := hrest
      exact .blocks hoffset hplace.blocks hlast ⟨j, i, ch, ns, hplace, heq⟩
    · exact hothers

/-- The blocks that are read behind the root. -/
structure BlocksRead (l : Layout) (v : Volume) (d : Directory) (nodes : List Node) : Prop where
  leaf : d.root.last = none → nodes = []
  cached : d.root.last ≠ none → l.fs.blockShift < 16
  remains : d.root.last ≠ none → ∀ mftNo, Remains v.fs v.disk (runChunks 0 l.runs)
    ⟨mftNo, false, 1, 0, 0⟩ (nodes.flatMap Node.entries)

/-- A call in the root gets to the next entry there, or to the first one in the blocks. -/
theorem root_returns (hblocks : BlocksRead l v d nodes) (hplace : place + mrec.length < 2 ^ 32)
    (hc : c.GoesOn v mrec place s) (hin : s.readdirState.inIdxRoot = true) {off : Nat}
    (hstart : (if s.offset = 0 then
        u32 (c.addr + rootIndex mrec attr + readLe mrec (rootIndex mrec attr) 4)
      else s.offset) = place + off)
    (h : EntriesAt mrec (indexLimit mrec (rootIndex mrec attr)) off es d.root.last)
    (hfiles : ∀ x ∈ (es ++ nodes.flatMap Node.entries).filter IndexEntry.printable,
      ∃ mrec, v.mftRecordLookup (u32 x.indexedFile) = some mrec) :
    ∃ n x, ntfsReaddir v mftNo n c s = some x ∧
      Returns (EntriesLeft l v d nodes mrec attr place) v
        ((es ++ nodes.flatMap Node.entries).filter IndexEntry.printable) x := by
  obtain ⟨lmrec, hmft, hattr, hnode, -⟩ := hs.records hroot
  have hlimit := hnode.limit_le
  have hreach : ∀ n r, runLoop (rootStep (c.memory mrec)) n (place + off) = some r →
      ntfsReaddir v mftNo n c s =
        r.2.elim (descendIntoChildNode v n c (c.memory mrec) mrec lmrec
          ⟨0, ⟨s.readdirState.mftNo, false, 1, 0, 0⟩⟩ r.1) fun offset =>
            some (readdirDone v { s with offset } (c.memory mrec) r.1) := by
    intro n r hrun
    rw [ntfsReaddir, hmft]
    dsimp only
    rw [hattr]
    dsimp only
    rewrite [if_pos hin, hstart, hrun]
    obtain ⟨ie, offset⟩ := r
    cases offset <;> rfl
  rcases root_next h hlimit (hc.root hin) (by omega) with
    ⟨hnil, n, last, hrun, hleaf⟩ | ⟨e, rest, hcons, n, found, next, hrun, hread, hrest⟩
  · rw [List.filter_append, hnil, List.nil_append] at hfiles ⊢
    by_cases hlast : d.root.last = none
    · -- there are no index blocks
      have hdescend : descendIntoChildNode v n c (c.memory mrec) mrec lmrec
          ⟨0, ⟨s.readdirState.mftNo, false, 1, 0, 0⟩⟩ (place + last) =
            some (readdirOut ⟨0, ⟨s.readdirState.mftNo, false, 1, 0, 0⟩⟩) := by
        rw [descendIntoChildNode, if_pos (hleaf.mpr hlast)]
      refine ⟨n, _, (hreach n _ hrun).trans hdescend, Or.inl ⟨?_, rfl⟩⟩
      rw [hblocks.leaf hlast, List.flatMap_nil, List.filter_nil]
    · have hnodeFlag : IdxEntry.flags (c.memory mrec) (place + last) &&& indexEntryNode ≠ 0 :=
        fun hzero => hlast (hleaf.mp hzero)
      obtain ⟨k, x, hdescend, hreturns⟩ := descend_returns hl hs hroot nodes place
        hc.inMemory (hblocks.cached hlast) hlast hmft hnodeFlag
        (rfl : (⟨0, ⟨s.readdirState.mftNo, false, 1, 0, 0⟩⟩ : DirState).offset = 0)
        (hblocks.remains hlast _) hfiles
      refine ⟨max n k, x, ?_, hreturns⟩
      rw [hreach _ _ ((steady_const _).runLoop_self_le hrun (Nat.le_max_left n k))]
      exact descendIntoChildNode_le (Nat.le_max_right n k) hdescend
  · rw [List.filter_append, hcons, List.cons_append, ← List.filter_append] at hfiles ⊢
    obtain ⟨hfile, hothers⟩ := List.forall_mem_cons.mp hfiles
    obtain ⟨de, hdone, hshows⟩ := readdirDone_shows hread hfile { s with offset := place + next }
    refine ⟨n, _, hreach n _ hrun, Or.inr ⟨de, e, _, rfl, ?_, hshows, ⟨_, ?_, rfl⟩, hothers⟩⟩
    · rw [hdone]
    · rw [hdone]
      exact .root rfl hin hrest

/-- A call returns the first entry that remains, or the end. -/
theorem readdir_returns (hblocks : BlocksRead l v d nodes) (hplace : 0 < place)
    (hmem : place + mrec.length < 2 ^ 32) (hc : c.GoesOn v mrec place s)
    (h : EntriesLeft l v d nodes mrec attr place s xs) :
    ∃ n x, ntfsReaddir v mftNo n c s = some x ∧
      Returns (EntriesLeft l v d nodes mrec attr place) v xs x := by
  obtain ⟨⟨es, hpos, rfl⟩, hfiles⟩ := h
  obtain ⟨lmrec, hmft, hattr, hnode, -⟩ := hs.records hroot
  have hlimit := hnode.limit_le
  cases hpos with
  | start hopened =>
    have hfirst := hnode.entries.length_le
    refine root_returns hl hs hroot hblocks hmem hc hopened.root ?_ hnode.entries hfiles
    rw [if_pos hopened.offset, hc.first hopened.root hopened.offset, Nat.add_assoc,
      u32_of_lt (by omega)]
  | root hoffset hin hentries =>
    refine root_returns hl hs hroot hblocks hmem hc hin ?_ hentries hfiles
    rw [hoffset, if_neg (by omega)]
  | blocks hoffset hin hlast hrem =>
    obtain ⟨n, x, hdescend, hreturns⟩ := descend_returns hl hs hroot nodes place
      hc.inMemory (hblocks.cached hlast) hlast hmft (hc.blocks hin) hoffset hrem hfiles
    refine ⟨n, x, ?_, hreturns⟩
    rw [ntfsReaddir, hmft]
    dsimp only
    rw [hattr]
    dsimp only
    rw [if_neg (by rw [hin]; decide)]
    exact hdescend

end Calls

/-! ## The blocks in use -/

/-- A block in use at a cluster. -/
def Layout.UsedAt (l : Layout) (k : Int) (b : Nat) : Prop :=
  l.used b = true ∧ ∃ k' : Nat, k = k' ∧ l.Starts b k'

/-- What each element has, the elements have as a list. -/
theorem exists_forall₂ {α β : Type*} {r : α → β → Prop} {as : List α} (h : ∀ a ∈ as, ∃ b, r a b) :
    ∃ bs, List.Forall₂ r as bs := by
  induction as with
  | nil => exact ⟨[], .nil⟩
  | cons a as ih =>
    obtain ⟨⟨b, hb⟩, hrest⟩ := List.forall_mem_cons.mp h
    obtain ⟨bs, hbs⟩ := ih hrest
    exact ⟨b :: bs, .cons hb hbs⟩

/-- An element has its partner in the other list. -/
theorem forall₂_mem_left {α β : Type*} {r : α → β → Prop} {as : List α} {bs : List β}
    (h : List.Forall₂ r as bs) {a : α} (ha : a ∈ as) : ∃ b ∈ bs, r a b := by
  induction h with
  | nil => cases ha
  | cons hr _ ih =>
    rcases List.mem_cons.mp ha with rfl | ha
    · exact ⟨_, List.mem_cons_self, hr⟩
    · obtain ⟨b, hb, hr'⟩ := ih ha
      exact ⟨b, List.mem_cons_of_mem _ hb, hr'⟩

/-- Partners of different elements are different. -/
theorem forall₂_nodup {α β : Type*} {r : α → β → Prop} {as : List α} {bs : List β}
    (h : List.Forall₂ r as bs) (hr : ∀ ⦃a a' b⦄, r a b → r a' b → a = a') (has : as.Nodup) :
    bs.Nodup := by
  induction h with
  | nil => exact List.nodup_nil
  | @cons a b as bs hab h ih =>
    obtain ⟨hnot, has⟩ := List.nodup_cons.mp has
    refine List.nodup_cons.mpr ⟨fun hb => hnot ?_, ih has⟩
    obtain ⟨a', ha', hr'⟩ := forall₂_mem_left h.flip hb
    rwa [hr hab hr']

/-- A block starts at one cluster only. -/
theorem Layout.starts_left_unique (hl : l.WellFormed) (hcache : l.fs.blockShift < 16) {b k k' : Nat}
    (h : l.Starts b k) (h' : l.Starts b k') : k = k' := by
  obtain ⟨-, -, hstep⟩ := Layout.blockSize_eq hl hcache
  exact Option.some.inj ((h 0 hstep).symm.trans (h' 0 hstep))

/-- A block in use is read at its cluster. -/
theorem nodeRead_of_usedAt (hl : l.WellFormed) (hs : Stored l v mftNo d)
    (hcache : l.fs.blockShift < 16) {k : Int} {b : Nat} (h : l.UsedAt k b) :
    NodeRead v.fs v.disk k (d.node b) := by
  obtain ⟨hused, k', rfl, hstarts⟩ := h
  have hmagic := hs.magic b hused
  have hfixups := hs.fixups b hused
  have hnode := hs.node b hused
  rw [Layout.record_eq hl hcache hstarts] at hmagic hfixups hnode
  obtain ⟨-, -, hstep⟩ := Layout.blockSize_eq hl hcache
  have hvolume := hl.volume _ (List.mem_of_getElem? (hstarts 0 hstep))
  have hclust : 0 < l.fs.clustSize := Nat.two_pow_pos _
  rw [Nat.add_zero, Nat.add_one_mul] at hvolume
  rw [hs.fs]
  exact ⟨k', rfl, by omega, hmagic, hfixups, hnode⟩

/-- The blocks in use are read, once each. -/
theorem exists_blocksRead (hl : l.WellFormed) (hs : Stored l v mftNo d) (hlist : Listable l v d) :
    ∃ bs : List Nat, bs.Nodup ∧ (∀ b, b ∈ bs ↔ d.InTree l.vcnStep b) ∧
      BlocksRead l v d (bs.map d.node) := by
  by_cases hlast : d.root.last = none
  · exact ⟨[], List.nodup_nil, fun b => iff_of_false List.not_mem_nil (not_inTree hs hlast b),
      fun _ => rfl, fun h => absurd hlast h, fun h => absurd hlast h⟩
  · obtain ⟨hread, hnodup⟩ := hlist.blocks hlast
    have hcache := hread.cached
    obtain ⟨bs, hbs⟩ := exists_forall₂ (r := l.UsedAt) fun k hk => by
      obtain ⟨b, k', hused, rfl, hstarts⟩ := hread.only k hk
      exact ⟨b, hused, k', rfl, hstarts⟩
    have hunique : ∀ ⦃k k' : Int⦄ ⦃b⦄, l.UsedAt k b → l.UsedAt k' b → k = k' := by
      rintro _ _ b ⟨-, k, rfl, hk⟩ ⟨-, k', rfl, hk'⟩
      rw [Layout.starts_left_unique hl hcache hk hk']
    refine ⟨bs, forall₂_nodup hbs hunique hnodup, fun b => ?_, fun h => absurd h hlast,
      fun _ => hcache, fun _ mftNo' => ?_⟩
    · rw [← hs.tree]
      constructor
      · intro hb
        obtain ⟨k, -, hused, -⟩ := forall₂_mem_left hbs.flip hb
        exact hused
      · intro hused
        obtain ⟨k, hk, hstarts⟩ := hread.all b hused
        obtain ⟨b', hb', -, k', hcast, hstarts'⟩ := forall₂_mem_left hbs hk
        obtain rfl := Int.ofNat.inj hcast
        rwa [Layout.starts_unique hl hcache hstarts hstarts']
    · obtain ⟨vcn, hvcn⟩ := Option.ne_none_iff_exists'.mp hlast
      obtain ⟨r, rs, hruns⟩ := List.exists_cons_of_ne_nil (runs_ne_nil hl hs hvcn)
      refine ⟨0, 0, (r.start 0, readLen r.len), bs.map d.node, ⟨rfl, ?_, rfl,
        (Nat.zero_mul _).symm, ?_, fun _ _ => Nat.zero_le _⟩, (entriesBehind_zero _).symm⟩
      · rw [hruns]
        rfl
      · have hreads : (runReads (v.fs.blockSize / v.fs.clustSize) (readLen r.len)
            (r.start 0)).drop 0 ++
          chunkReads (v.fs.blockSize / v.fs.clustSize) ((runChunks 0 l.runs).drop 1) =
              l.reads := by
          rw [Layout.reads, hs.fs, readsFrom_eq, hruns]
          rfl
        rw [hreads, List.forall₂_map_right_iff]
        exact hbs.imp fun k b h => nodeRead_of_usedAt hl hs hcache h

/-! ## The listing -/

/-- The calls are a cursor over the entries that remain. -/
theorem readdir_cursor (hl : l.WellFormed) (hs : Stored l v mftNo d)
    (hroot : v.rootRecord mftNo = some (mrec, attr)) (hblocks : BlocksRead l v d nodes)
    (hplace : 0 < place) (hmem : place + mrec.length < 2 ^ 32) :
    Cursor (Calls v mftNo fun s c => c.GoesOn v mrec place s)
      (SetsUp fun s => s.readdirState.inIdxRoot = true) (Shows v)
      (EntriesLeft l v d nodes mrec attr place) where
  call := by
    rintro s r t xs hleft ⟨c, n, hc, hcall⟩
    obtain ⟨m, x, hx, hreturns⟩ := readdir_returns hl hs hroot hblocks hplace hmem hc hleft
    obtain rfl := ntfsReaddir_unique hx hcall
    exact hreturns
  other := by
    rintro s t xs ⟨⟨es, hpos, rfl⟩, hfiles⟩ ⟨hin, garbage, mftNo', rfl⟩
    refine ⟨⟨es, ?_, rfl⟩, hfiles⟩
    cases hpos with
    | start hopened => exact .start ⟨hopened.offset, rfl⟩
    | root hoffset hroot hentries => exact .root hoffset rfl hentries
    | blocks hoffset hblocks =>
      rw [hin] at hblocks
      cases hblocks

/-- A directory is listed when its records are found and its blocks are read, in each run whose
calls go on where the last one left off, and in which other directories are set up in front of the
index blocks only. -/
theorem ntfs_readdir_lists (hl : l.WellFormed) (hs : Stored l v mftNo d)
    (hlist : Listable l v d) (hroot : v.rootRecord mftNo = some (mrec, attr)) (hplace : 0 < place)
    (hmem : place + mrec.length < 2 ^ 32) :
    ListsDir l v mftNo d (fun s c => c.GoesOn v mrec place s)
      fun s => s.readdirState.inIdxRoot = true := by
  obtain ⟨bs, hnodup, htree, hblocks⟩ := exists_blocksRead hl hs hlist
  refine ⟨bs, hnodup, htree, fun s rs t hopened hruns hlen => ?_⟩
  have hleft : EntriesLeft l v d (bs.map d.node) mrec attr place s (d.listing bs) := by
    refine ⟨⟨_, .start hopened, ?_⟩, fun x hx => ?_⟩
    · rw [List.flatMap_map]
      rfl
    · obtain ⟨hx, hprint⟩ := List.mem_filter.mp hx
      refine hlist.files x ?_ hprint
      rcases List.mem_append.mp hx with hx | hx
      · exact Or.inl hx
      · obtain ⟨b, hb, hx⟩ := List.mem_flatMap.mp hx
        exact Or.inr ⟨b, (htree b).mp hb, hx⟩
  obtain ⟨hresults, hremains⟩ :=
    (readdir_cursor hl hs hroot hblocks hplace hmem).results hruns hleft hlen
  refine ⟨hresults, fun hmore c hc => ?_⟩
  obtain ⟨n, ⟨u, r⟩, hcall, -⟩ :=
    readdir_returns hl hs hroot hblocks hplace hmem hc (hremains hmore)
  exact ⟨n, u, r, hcall⟩

/-! ## A directory with one index block -/

/-- Clusters of 512 bytes, and one index block of that size, which holds the entry `a`. -/
def oneLayout : Layout :=
  ⟨⟨1, 786432, -10, 1⟩, 9, [shortRun 1 100], fun b => b = 0⟩

def onePlan : Plan := ⟨[], 0, some 0, []⟩

/-- The layout with one block is well formed. -/
theorem oneLayout_wellFormed : oneLayout.WellFormed where
  sector := by decide
  secPerClust := ⟨0, rfl⟩
  idxRecord := Or.inl ⟨by decide, 0, rfl⟩
  allocated := ⟨by decide, by decide, by decide, trivial⟩
  inRange := ⟨by decide, trivial⟩
  pairs := by decide
  nodup := by decide
  volume := by decide
  size := by decide
  whole := by decide
  used := by
    intro b hb
    obtain rfl : b = 0 := of_decide_eq_true hb
    decide

/-- The plan with one name is valid. -/
theorem onePlan_valid : onePlan.Valid oneLayout := by
  refine ⟨by decide, fun b => ?_, fun x hx => ?_, by decide⟩
  · exact decide_eq_true_iff.trans List.mem_singleton.symm
  · obtain rfl := Option.some.inj hx
    exact ⟨Nat.dvd_zero _, by decide, by decide⟩

/-- The plan with one name is stored on its volume. -/
theorem onePlan_stored (mftNo : Nat) : Stored oneLayout (Plan.volume oneLayout onePlan) mftNo
    (Plan.tree oneLayout onePlan) :=
  Plan.stored oneLayout_wellFormed onePlan_valid mftNo

/-- The plan with one name can be listed. -/
theorem onePlan_listable :
    Listable oneLayout (Plan.volume oneLayout onePlan) (Plan.tree oneLayout onePlan) where
  files := fun _ _ _ => ⟨_, rfl⟩
  blocks := by
    intro _
    refine ⟨readable_of_whole oneLayout_wellFormed (by decide) ?_ fun b hb => ?_, by decide⟩
    · intro r hr
      obtain rfl := List.mem_singleton.mp hr
      exact ⟨by decide, by decide⟩
    · have hsize : oneLayout.clusters.length * oneLayout.fs.clustSize = 512 := by decide
      have hrecord : oneLayout.recordSize = 512 := by decide
      rw [hsize, hrecord] at hb
      exact decide_eq_true (by omega)

/-- The directory is listed. -/
theorem ntfs_readdir_lists_one : ListsDir oneLayout (Plan.volume oneLayout onePlan) 5
    (Plan.tree oneLayout onePlan)
    (fun s c =>
      c.GoesOn (Plan.volume oneLayout onePlan) (Plan.rootBytes oneLayout onePlan) 0x1000 s)
    fun s => s.readdirState.inIdxRoot = true :=
  ntfs_readdir_lists oneLayout_wellFormed (onePlan_stored 5) onePlan_listable rfl
    (by decide) (by decide +kernel)

/-- A call that returns the entry `a`, and one after another directory has been set up. -/
theorem onePlan_calls :
    ntfsReaddir (Plan.volume oneLayout onePlan) 5 10 ⟨fun _ => 0, 0x1000, 0x8000⟩
        ⟨0, ⟨5, true, 0, 0, 0⟩⟩ =
      some (⟨0, ⟨5, false, 1, 1, 0⟩⟩, some ⟨5, 0, 14, false, [0x61, 0]⟩) ∧
    ntfsReaddir (Plan.volume oneLayout onePlan) 5 10 ⟨fun _ => 0, 0x1000, 0x8000⟩
        ⟨0, ⟨7, true, 0, 0, 0⟩⟩ =
      some (⟨0, ⟨7, false, 1, 1, 0⟩⟩, some ⟨5, 0, 14, false, [0x61, 0]⟩) := by
  decide +kernel

/-- When another directory is looked up in between, the entry is returned again. -/
theorem ntfs_readdir_repeats : ¬∀ (l : Layout) (v : Volume) (mftNo : Nat) (d : Directory)
    (mrec : List UInt8) (attr : Nat), l.WellFormed → Stored l v mftNo d → Listable l v d →
    v.rootRecord mftNo = some (mrec, attr) →
    ListsDir l v mftNo d (fun _ c => c.InMemory v mrec) fun _ => True := by
  intro h
  obtain ⟨bs, hnodup, htree, hruns⟩ := h oneLayout (Plan.volume oneLayout onePlan) 5
    (Plan.tree oneLayout onePlan) _ _ oneLayout_wellFormed (onePlan_stored 5) onePlan_listable rfl
  have hbs : bs = [0] := by
    have hmem : ∀ b, b ∈ bs ↔ b = 0 := by
      intro b
      rw [htree, ← (onePlan_stored 5).tree]
      exact decide_eq_true_iff
    exact List.perm_singleton.mp ((List.perm_ext_iff_of_nodup hnodup (List.nodup_singleton 0)).mpr
      fun b => (hmem b).trans List.mem_singleton.symm)
  obtain ⟨hfirst, hsecond⟩ := onePlan_calls
  have hc : (⟨fun _ => 0, 0x1000, 0x8000⟩ : Call).InMemory (Plan.volume oneLayout onePlan)
      (Plan.rootBytes oneLayout onePlan) := ⟨by decide, by decide +kernel, by decide⟩
  have hrun : Visits (Calls (Plan.volume oneLayout onePlan) 5 fun _ c =>
      c.InMemory (Plan.volume oneLayout onePlan) (Plan.rootBytes oneLayout onePlan))
      (SetsUp fun _ => True) ⟨0, ⟨5, true, 0, 0, 0⟩⟩
      [some ⟨5, 0, 14, false, [0x61, 0]⟩, some ⟨5, 0, 14, false, [0x61, 0]⟩]
      ⟨0, ⟨7, false, 1, 1, 0⟩⟩ := by
    refine @Visits.call _ _ _ _ _ _ _ [_] _ (.other
      (@Visits.call _ _ _ _ _ _ _ [] _ .start ⟨_, 10, hc, hfirst⟩) ?_) ⟨_, 10, hc, hsecond⟩
    exact ⟨trivial, ⟨0, false, 0, 0, 0⟩, 7, rfl⟩
  obtain ⟨hresults, -⟩ := hruns _ _ _ ⟨rfl, rfl⟩ hrun (by rw [hbs]; decide)
  -- the second call should have come to the end
  rw [hbs] at hresults
  obtain ⟨-, hend⟩ := List.forall₂_cons.mp hresults
  obtain ⟨hend, -⟩ := List.forall₂_cons.mp hend
  cases hend

end Liigboot.Fs.Ntfs
