import Liigboot.Fs.Fat.Sectors

/-!
# Calls of `vfat_readdir` behind the end of a directory

The position in an open directory is kept twice, as the byte offset of the file, and as a sector in
the inode together with its number. At an end marker both stay in front of the marker. A directory
without one ends with its last sector, and then the sector that is kept is 0.
-/

namespace Liigboot.Fs.Fat

/-! ## The model -/

/-- The position that `struct fat_pvt_inode` keeps of a directory. -/
structure DirInode where
  start : Nat
  offset : Nat
  here : Nat
  deriving DecidableEq, Repr

/-- An open directory. -/
structure DirFile where
  inode : DirInode
  offset : Nat
  deriving DecidableEq, Repr

/-- `next_sector`. -/
def nextSector (fs : FatFs) (inode : DirInode) : DirInode :=
  { inode with offset := u64 (inode.offset + 1), here := getNextSector fs inode.here }

/-- `get_the_right_sector`. -/
def getTheRightSector (fs : FatFs) (file : DirFile) : DirInode :=
  let sectorPos := file.offset / fs.sectorSize
  let (pos, sector) :=
    if sectorPos < file.inode.offset then
      -- reverse seek
      (0, file.inode.start)
    else (u32 file.inode.offset, file.inode.here)
  { file.inode with
    offset := sectorPos
    here := chain (getNextSector fs) sector (sectorPos - pos) }

/-- A round of the loop of `vfat_readdir`, with the state at the slot that ends it. -/
def readStepAt (cp : Codepage) (st : ReadState) (de : Slot) :
    ScanStep ReadState (Option (Slot × ReadState) × ReadState) :=
  match readStep cp st de with
  | .fault => .fault
  | .stop result => .stop (result, st)
  | .next st => .next st

/-- What a call of `vfat_readdir` leaves: the entry, or `none` at the end of the directory, the open
directory, and the sectors that were read of it. -/
structure DirRead where
  entry : Option Dirent
  file : DirFile
  reads : List Nat

/-- `while (1)`, with the slots of the current sector. There is no result when the call leaves a
buffer or does not return. -/
def readdirLoop (cp : Codepage) (fs : FatFs) :
    Nat → ReadState → DirInode → List Slot → Option DirRead
  | 0, _, _, _ => none
  | fuel + 1, st, inode, slots =>
    match scanBlock (readStepAt cp) st slots with
    | .fault => none
    | .stop (none, st) => some ⟨none, ⟨inode, st.offset⟩, []⟩
    | .stop (some (de, st), _) =>
      some ⟨some (gotDirent de st), ⟨inode, u32 (st.offset + 32)⟩, []⟩
    | .next st =>
      let inode := nextSector fs inode
      if inode.here = 0 then some ⟨none, ⟨inode, st.offset⟩, []⟩
      else
        (readdirLoop cp fs fuel st inode
          (slotsFrom (fs.disk inode.here) 0 fs.entriesPerSector)).map
          fun r => { r with reads := inode.here :: r.reads }

/-- `vfat_readdir` on an open directory. -/
def vfatReaddirFile (cp : Codepage) (fs : FatFs) (fuel : Nat) (file : DirFile) : Option DirRead :=
  let inode := getTheRightSector fs file
  let secOff := file.offset % fs.sectorSize
  (readdirLoop cp fs fuel (readInit file.offset) inode
    (slotsFrom (fs.disk inode.here) secOff ((fs.sectorSize - secOff) / 32))).map
    fun r => { r with reads := inode.here :: r.reads }

/-- The first sector of a directory. -/
def dirStart (fs : FatFs) : DirPlace → Nat
  | .rootRegion => fs.sbi.root
  | .clusters first => (first - 2) * 2 ^ fs.sbi.clustShift + fs.sbi.data

/-- A directory as it is opened. -/
def openDir (fs : FatFs) (place : DirPlace) : DirFile :=
  ⟨⟨dirStart fs place, 0, dirStart fs place⟩, 0⟩

/-- The open directory behind some calls. -/
inductive Calls (cp : Codepage) (fs : FatFs) (file : DirFile) : DirFile → Prop where
  | refl : Calls cp fs file file
  | call {file' : DirFile} {fuel : Nat} {r : DirRead} (h : Calls cp fs file file')
      (hread : vfatReaddirFile cp fs fuel file' = some r) : Calls cp fs file r.file

/-- What is promised of an open directory whose end has been reported: every later call returns,
reports the end, and reads only sectors of the directory. -/
def StaysAtEnd (cp : Codepage) (fs : FatFs) (place : DirPlace) (file : DirFile) : Prop :=
  ∀ file', Calls cp fs file file' → ∃ fuel r, vfatReaddirFile cp fs fuel file' = some r ∧
    r.entry = none ∧ ∀ s ∈ r.reads, ∃ k, dirSector fs place k = some s

/-- Slot `i` of sector `k` of a directory is an end marker. -/
def IsMarker (fs : FatFs) (place : DirPlace) (k i : Nat) : Prop :=
  ∃ s, dirSector fs place k = some s ∧ i < fs.entriesPerSector ∧
    slotAt (fs.disk s) (32 * i) 0 = 0

variable {cp : Codepage} {fs : FatFs} {place : DirPlace}

/-! ## The slots of a sector -/

theorem slotsFrom_succ (data : List UInt8) (pos n : Nat) :
    slotsFrom data pos (n + 1) = slotAt data pos :: slotsFrom data (pos + 32) n := by
  rw [slotsFrom, List.range_succ_eq_map, List.map_cons, List.map_map]
  refine congrArg₂ List.cons rfl (List.map_congr_left fun i _ => ?_)
  rw [Function.comp_apply]
  congr 1
  omega

theorem readPiece_offset {st st' : ReadState} {id : UInt8} {de : Slot}
    (h : readPiece cp st id de = .next st') : st'.offset = u32 (st.offset + 32) := by
  rw [readPiece] at h
  dsimp only at h
  cases hcopy : copyLongChunk st.longName (id - 1) de with
  | none =>
    rw [hcopy] at h
    cases h
  | some longName =>
    rw [hcopy] at h
    dsimp only at h
    split_ifs at h
    · cases hname : vfatCvtLongname cp longName with
      | none =>
        rw [hname] at h
        cases h
      | some name =>
        cases name with
        | none =>
          rw [hname] at h
          cases h
          rfl
        | some filename =>
          rw [hname] at h
          cases h
          rfl
    · cases h
      rfl

/-- A round that goes on skips a slot that is no end marker. -/
theorem readStep_next_offset {st st' : ReadState} {de : Slot} (h : readStep cp st de = .next st') :
    st'.offset = u32 (st.offset + 32) ∧ de 0 ≠ 0 := by
  rw [readStep] at h
  split_ifs at h with hend hdel hlong hflag hlabel hname
  · cases h
    exact ⟨rfl, hend⟩
  · dsimp only at h
    split_ifs at h
    · cases h
      exact ⟨rfl, hend⟩
    · have hoff := readPiece_offset h
      dsimp only at hoff
      exact ⟨hoff, hend⟩
  · cases h
    exact ⟨rfl, hend⟩
  · exact ⟨readPiece_offset h, hend⟩
  · cases h
    exact ⟨rfl, hend⟩

theorem readPiece_ne_stop {st : ReadState} {id : UInt8} {de : Slot}
    {result : Option (Slot × ReadState)} : readPiece cp st id de ≠ .stop result := by
  intro h
  rw [readPiece] at h
  dsimp only at h
  cases hcopy : copyLongChunk st.longName (id - 1) de with
  | none =>
    rw [hcopy] at h
    cases h
  | some longName =>
    rw [hcopy] at h
    dsimp only at h
    split_ifs at h
    cases hname : vfatCvtLongname cp longName with
    | none =>
      rw [hname] at h
      cases h
    | some name =>
      rw [hname] at h
      cases name with
      | none => cases h
      | some filename => cases h

/-- A round that ends the call is at an end marker, or at an entry. -/
theorem readStep_stop_offset {st : ReadState} {de : Slot} {result : Option (Slot × ReadState)}
    (h : readStep cp st de = .stop result) :
    (result = none → de 0 = 0) ∧
      ∀ r, result = some r → r.2.offset = st.offset ∧ de 0 ≠ 0 := by
  rw [readStep] at h
  split_ifs at h with hend hdel hlong hflag hlabel hname
  · cases h
    exact ⟨fun _ => hend, fun r hr => (nomatch hr)⟩
  · dsimp only at h
    split_ifs at h
    exact absurd h readPiece_ne_stop
  · exact absurd h readPiece_ne_stop
  · cases h
    refine ⟨fun hnone => (nomatch hnone), fun r hr => ?_⟩
    cases hr
    exact ⟨rfl, hend⟩
  · cases h
    refine ⟨fun hnone => (nomatch hnone), fun r hr => ?_⟩
    cases hr
    exact ⟨rfl, hend⟩

/-- Where the slots of a sector leave a call: `i` slots further the offset is this, and the slots in
front of it are no end markers. -/
def PastSlots (data : List UInt8) (pos offset i offset' : Nat) : Prop :=
  offset' = u32 (offset + 32 * i) ∧ ∀ j < i, slotAt data (pos + 32 * j) 0 ≠ 0

/-- What the slots of a sector do to a call: it leaves a buffer, it is at an end marker, at an
entry, or behind the slots. -/
inductive SlotRun (data : List UInt8) (pos m offset : Nat) :
    ScanStep ReadState (Option (Slot × ReadState) × ReadState) → Prop where
  | fault : SlotRun data pos m offset .fault
  | marker {i : Nat} {st : ReadState} (hi : i < m) (hpast : PastSlots data pos offset i st.offset)
      (hzero : slotAt data (pos + 32 * i) 0 = 0) : SlotRun data pos m offset (.stop (none, st))
  | entry {i : Nat} {de : Slot} {st st' : ReadState} (hi : i < m)
      (hpast : PastSlots data pos offset i st.offset) (hne : slotAt data (pos + 32 * i) 0 ≠ 0) :
      SlotRun data pos m offset (.stop (some (de, st), st'))
  | behind {st : ReadState} (hpast : PastSlots data pos offset m st.offset) :
      SlotRun data pos m offset (.next st)

theorem PastSlots.zero {data : List UInt8} {pos offset : Nat} (hword : offset < 2 ^ 32) :
    PastSlots data pos offset 0 offset :=
  ⟨(u32_of_lt hword).symm, fun _ hj => absurd hj (Nat.not_lt_zero _)⟩

/-- One slot more in front. -/
theorem PastSlots.cons {data : List UInt8} {pos offset i offset' : Nat}
    (hne : slotAt data pos 0 ≠ 0)
    (h : PastSlots data (pos + 32) (u32 (offset + 32)) i offset') :
    PastSlots data pos offset (i + 1) offset' := by
  obtain ⟨hoff, hslots⟩ := h
  refine ⟨?_, fun j hj => ?_⟩
  · rw [hoff, u32, u32, u32]
    omega
  · cases j with
    | zero => exact hne
    | succ j =>
      have hslot := hslots j (Nat.lt_of_succ_lt_succ hj)
      rwa [show pos + 32 + 32 * j = pos + 32 * (j + 1) by omega] at hslot

theorem slotRun (cp : Codepage) (data : List UInt8) (pos m : Nat) {st : ReadState}
    (hword : st.offset < 2 ^ 32) :
    SlotRun data pos m st.offset (scanBlock (readStepAt cp) st (slotsFrom data pos m)) := by
  induction m generalizing pos st with
  | zero => exact .behind (.zero hword)
  | succ m ih =>
    rw [slotsFrom_succ, scanBlock, readStepAt]
    cases hstep : readStep cp st (slotAt data pos) with
    | fault => exact .fault
    | stop result =>
      obtain ⟨hend, hgot⟩ := readStep_stop_offset hstep
      cases result with
      | none => exact .marker (Nat.succ_pos m) (.zero hword) (hend rfl)
      | some r =>
        obtain ⟨hoff, hne⟩ := hgot r rfl
        refine .entry (Nat.succ_pos m) ?_ hne
        rw [hoff]
        exact .zero hword
    | next st' =>
      obtain ⟨hoff, hne⟩ := readStep_next_offset hstep
      have hword' : st'.offset < 2 ^ 32 := by
        rw [hoff]
        exact Nat.mod_lt _ (by decide)
      have hrest := ih (pos + 32) hword'
      rw [hoff] at hrest
      dsimp only
      have hnext : ∀ i, pos + 32 + 32 * i = pos + 32 * (i + 1) := fun i => by omega
      generalize scanBlock (readStepAt cp) st' (slotsFrom data (pos + 32) m) = outcome at hrest ⊢
      cases hrest with
      | fault => exact .fault
      | marker hi hpast hzero =>
        rw [hnext] at hzero
        exact .marker (Nat.succ_lt_succ hi) (hpast.cons hne) hzero
      | entry hi hpast hentry =>
        rw [hnext] at hentry
        exact .entry (Nat.succ_lt_succ hi) (hpast.cons hne) hentry
      | behind hpast => exact .behind (hpast.cons hne)

end Liigboot.Fs.Fat
