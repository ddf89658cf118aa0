import Liigboot.Fs.Fat.ReadCalls

/-!
# The end of a directory is reported again

While a directory has an end marker in its first 4 GiB, no call gets past the first one: the sector
that is kept is always the one with the number that is kept. A call at the marker leaves the open
directory as it is. Without a marker the call behind the end reads sector 0.
-/

namespace Liigboot.Fs.Fat

variable {cp : Codepage} {fs : FatFs} {place : DirPlace} {fuel : Nat} {file : DirFile} {r : DirRead}

theorem FatFs.entriesPerSector_pos (fs : FatFs) : 0 < fs.entriesPerSector := Nat.two_pow_pos _

/-- A sector holds a whole number of slots. -/
theorem FatFs.sectorSize_eq (hshift : 5 ≤ fs.sectorShift) :
    fs.sectorSize = 32 * fs.entriesPerSector := by
  rw [FatFs.sectorSize, FatFs.entriesPerSector, show 32 = 2 ^ 5 by rfl, ← Nat.pow_add]
  congr 1
  omega

theorem div_slot {t i : Nat} (hi : i < fs.entriesPerSector) :
    (t * fs.entriesPerSector + i) / fs.entriesPerSector = t := by
  rw [Nat.mul_comm, Nat.mul_add_div fs.entriesPerSector_pos, Nat.div_eq_of_lt hi, Nat.add_zero]

theorem mod_slot {t i : Nat} (hi : i < fs.entriesPerSector) :
    (t * fs.entriesPerSector + i) % fs.entriesPerSector = i := by
  rw [Nat.mul_add_mod_self_right, Nat.mod_eq_of_lt hi]

/-! ## In front of the first end marker -/

/-- The slots of a directory are counted through its sectors. The first end marker is slot `p`. -/
structure FirstMarker (fs : FatFs) (place : DirPlace) (p : Nat) : Prop where
  marker : IsMarker fs place (p / fs.entriesPerSector) (p % fs.entriesPerSector)
  first : ∀ q < p, ¬IsMarker fs place (q / fs.entriesPerSector) (q % fs.entriesPerSector)

/-- An open directory that is at slot `p`, with the sector that belongs to its number. -/
structure DirFile.At (fs : FatFs) (place : DirPlace) (file : DirFile) (p : Nat) : Prop where
  offset : file.offset = 32 * p
  start : file.inode.start = dirStart fs place
  here : dirSector fs place file.inode.offset = some file.inode.here

/-- A directory with an end marker has a first one. -/
theorem exists_firstMarker {k i : Nat} (h : IsMarker fs place k i) :
    ∃ p ≤ k * fs.entriesPerSector + i, FirstMarker fs place p := by
  classical
  have hi := h.choose_spec.2.1
  have hat : IsMarker fs place ((k * fs.entriesPerSector + i) / fs.entriesPerSector)
      ((k * fs.entriesPerSector + i) % fs.entriesPerSector) := by
    rw [div_slot hi, mod_slot hi]
    exact h
  have hex : ∃ p, IsMarker fs place (p / fs.entriesPerSector) (p % fs.entriesPerSector) :=
    ⟨_, hat⟩
  exact ⟨Nat.find hex, Nat.find_min' hex hat, Nat.find_spec hex, fun q hq => Nat.find_min hex hq⟩

theorem dirSector_zero {s : Nat} (h : dirSector fs place 0 = some s) : s = dirStart fs place := by
  cases place with
  | rootRegion =>
    rw [dirSector] at h
    split_ifs at h
    obtain rfl := Option.some.inj h
    rfl
  | clusters first =>
    rw [dirSector] at h
    split_ifs at h
    obtain rfl := Option.some.inj h
    rw [Nat.zero_div, Nat.zero_mod, chain_zero]
    rfl

/-- The slots that are passed lie in front of the first end marker. -/
theorem FirstMarker.passed {p t j i s : Nat} (h : FirstMarker fs place p)
    (hs : dirSector fs place t = some s) (hle : t * fs.entriesPerSector + j ≤ p)
    (hin : j + i ≤ fs.entriesPerSector)
    (hne : ∀ i' < i, slotAt (fs.disk s) (32 * j + 32 * i') 0 ≠ 0) :
    t * fs.entriesPerSector + j + i ≤ p := by
  by_contra hlt
  obtain ⟨i', rfl⟩ := Nat.exists_eq_add_of_le hle
  have hi' : j + i' < fs.entriesPerSector := by omega
  obtain ⟨s', hs', -, hzero⟩ := h.marker
  rw [Nat.add_assoc, div_slot hi', hs] at hs'
  obtain rfl := Option.some.inj hs'
  rw [Nat.add_assoc, mod_slot hi', Nat.mul_add] at hzero
  exact hne i' (by omega) hzero

/-- What a call leaves behind in front of slot `p`: it is not past the marker there, it has read
sectors of the directory, and at the end it is at the marker. -/
structure DirRead.InFront (fs : FatFs) (place : DirPlace) (p : Nat) (r : DirRead) : Prop where
  pos : ∃ q ≤ p, r.file.At fs place q
  reads : ∀ s ∈ r.reads, ∃ k, dirSector fs place k = some s
  atEnd : r.entry = none →
    r.file.At fs place p ∧ r.file.inode.offset = p / fs.entriesPerSector

/-- The loop of a call, from a slot that is not behind the first end marker. -/
theorem readdirLoop_inFront (h : fs.sbi.Mounted) {p t j m : Nat} (hp : FirstMarker fs place p)
    (hfits : 32 * p < 2 ^ 32) {st : ReadState} {inode : DirInode}
    (hs : dirSector fs place t = some inode.here) (hat : inode.offset = t)
    (hstart : inode.start = dirStart fs place) (hm : j + m = fs.entriesPerSector)
    (hle : t * fs.entriesPerSector + j ≤ p)
    (hoff : st.offset = 32 * (t * fs.entriesPerSector + j))
    (hread : readdirLoop cp fs fuel st inode (slotsFrom (fs.disk inode.here) (32 * j) m) = some r) :
    r.InFront fs place p := by
  induction fuel generalizing t j m st inode r with
  | zero =>
    rw [readdirLoop] at hread
    cases hread
  | succ fuel ih =>
    have hpos := fs.entriesPerSector_pos
    have hrun := slotRun cp (fs.disk inode.here) (32 * j) m
      (show st.offset < 2 ^ 32 by omega)
    rw [readdirLoop] at hread
    generalize scanBlock (readStepAt cp) st (slotsFrom (fs.disk inode.here) (32 * j) m) = outcome
      at hread hrun
    cases hrun with
    | fault => cases hread
    | @marker i st' hi hpast hzero =>
      obtain ⟨hoff', hne⟩ := hpast
      obtain rfl := Option.some.inj hread
      have hupto := hp.passed hs hle (by omega) hne
      have hin : j + i < fs.entriesPerSector := by omega
      -- the slot where the call stops is the first marker
      have heq : t * fs.entriesPerSector + j + i = p := by
        refine Nat.le_antisymm hupto (Nat.le_of_not_lt fun hlt => hp.first _ hlt ?_)
        refine ⟨inode.here, ?_, ?_, ?_⟩
        · rw [Nat.add_assoc, div_slot hin, hs]
        · exact Nat.mod_lt _ hpos
        · rw [Nat.add_assoc, mod_slot hin, Nat.mul_add]
          exact hzero
      have hword : st'.offset = 32 * p := by
        rw [hoff', hoff, u32_of_lt (by omega)]
        omega
      have hhere : DirFile.At fs place ⟨inode, st'.offset⟩ p := ⟨hword, hstart, hat ▸ hs⟩
      have hdiv : t = p / fs.entriesPerSector := by
        rw [← heq, Nat.add_assoc, div_slot hin]
      exact ⟨⟨p, Nat.le_refl _, hhere⟩, fun s hmem => absurd hmem List.not_mem_nil,
        fun _ => ⟨hhere, hat.trans hdiv⟩⟩
    | @entry i de st' st'' hi hpast hentry =>
      obtain ⟨hoff', hne⟩ := hpast
      obtain rfl := Option.some.inj hread
      have hupto := hp.passed (i := i + 1) hs hle (by omega) fun i' hi' => by
        obtain hlt | rfl := Nat.lt_or_eq_of_le (Nat.le_of_lt_succ hi')
        · exact hne i' hlt
        · exact hentry
      have hword : u32 (st'.offset + 32) = 32 * (t * fs.entriesPerSector + j + (i + 1)) := by
        have hword' : u32 (st.offset + 32 * i) = st.offset + 32 * i := u32_of_lt (by omega)
        have hfits' : u32 (st.offset + 32 * i + 32) = st.offset + 32 * i + 32 := by
          by_cases hlt : st.offset + 32 * i + 32 < 2 ^ 32
          · exact u32_of_lt hlt
          · omega
        rw [hoff', hword', hfits', hoff]
        omega
      exact ⟨⟨_, hupto, hword, hstart, hat ▸ hs⟩, fun s hmem => absurd hmem List.not_mem_nil,
        fun hend => absurd hend (Option.some_ne_none _)⟩
    | @behind st' hpast =>
      obtain ⟨hoff', hne⟩ := hpast
      have hupto := hp.passed hs hle (by omega) hne
      rw [Nat.add_assoc, hm, ← Nat.add_one_mul] at hupto
      -- the marker lies behind this sector, so the directory has another one
      obtain ⟨s', hs', -, -⟩ := hp.marker
      obtain ⟨s, hnext⟩ := dirSector_of_le hs' ((Nat.le_div_iff_mul_le hpos).mpr hupto)
      have htime : t + 1 ≤ (t + 1) * fs.entriesPerSector := Nat.le_mul_of_pos_right _ hpos
      have hsector : (t + 1) * fs.entriesPerSector = t * fs.entriesPerSector + j + m := by
        rw [Nat.succ_mul, Nat.add_assoc, hm]
      have hinode : nextSector fs inode = { inode with offset := t + 1, here := s } := by
        rw [nextSector, hat, dirSector_next h hs, hnext, Option.getD_some, u64]
        congr 1
        omega
      have hspos := dirSector_pos h hnext
      dsimp only at hread
      rw [hinode] at hread
      dsimp only at hread
      rw [if_neg (by omega), Option.map_eq_some_iff] at hread
      obtain ⟨r', hread, rfl⟩ := hread
      have hword : st'.offset = 32 * ((t + 1) * fs.entriesPerSector + 0) := by
        rw [hoff', hoff, u32_of_lt (by omega), hsector]
        omega
      have hhere : dirSector fs place (t + 1) =
          some { inode with offset := t + 1, here := s : DirInode }.here := hnext
      have hrest := ih (j := 0) hhere rfl hstart (Nat.zero_add _) hupto hword hread
      refine ⟨hrest.pos, fun s' hmem => ?_, hrest.atEnd⟩
      obtain rfl | hmem := List.mem_cons.mp hmem
      · exact ⟨_, hnext⟩
      · exact hrest.reads s' hmem

/-! ## Calls in front of the first end marker -/

/-- The directory has the sector of each slot up to its first end marker. -/
theorem FirstMarker.sector {p q : Nat} (hp : FirstMarker fs place p) (hq : q ≤ p) :
    ∃ s, dirSector fs place (q / fs.entriesPerSector) = some s := by
  obtain ⟨s, hs, -, -⟩ := hp.marker
  exact dirSector_of_le hs (Nat.div_le_div_right hq)

/-- A directory is opened at its first slot. -/
theorem FirstMarker.openDir_at {p : Nat} (hp : FirstMarker fs place p) :
    (openDir fs place).At fs place 0 := by
  obtain ⟨s, hs⟩ := hp.sector (Nat.zero_le p)
  rw [Nat.zero_div] at hs
  obtain rfl := dirSector_zero hs
  exact ⟨rfl, rfl, hs⟩

/-- The sector of the file's offset, by a forward or a reverse seek. -/
theorem getTheRightSector_at (h : fs.sbi.Mounted) (hshift : 5 ≤ fs.sectorShift) {q s : Nat}
    (hfile : file.At fs place q) (hs : dirSector fs place (q / fs.entriesPerSector) = some s)
    (hfits : 32 * q < 2 ^ 32) :
    getTheRightSector fs file =
      { file.inode with offset := q / fs.entriesPerSector, here := s } := by
  have hsector : file.offset / fs.sectorSize = q / fs.entriesPerSector := by
    rw [hfile.offset, FatFs.sectorSize_eq hshift, Nat.mul_div_mul_left _ _ (by decide)]
  have hle := Nat.div_le_self q fs.entriesPerSector
  rw [getTheRightSector, hsector]
  by_cases hback : q / fs.entriesPerSector < file.inode.offset
  · obtain ⟨s₀, hs₀⟩ := dirSector_of_le hs (Nat.zero_le _)
    have hreach := chain_dirSector h hs₀ (n := q / fs.entriesPerSector) (by rwa [Nat.zero_add])
    rw [if_pos hback]
    dsimp only
    rw [hfile.start, ← dirSector_zero hs₀, Nat.sub_zero, hreach]
  · have hword : u32 file.inode.offset = file.inode.offset := u32_of_lt (by omega)
    have hreach := chain_dirSector h hfile.here
      (n := q / fs.entriesPerSector - file.inode.offset) (by
        rwa [Nat.add_sub_cancel' (Nat.le_of_not_lt hback)])
    rw [if_neg hback]
    dsimp only
    rw [hword, hreach]

/-- The slots from an offset to the end of its sector. -/
theorem slots_left (hshift : 5 ≤ fs.sectorShift) (q : Nat) :
    32 * q % fs.sectorSize = 32 * (q % fs.entriesPerSector) ∧
      (fs.sectorSize - 32 * q % fs.sectorSize) / 32 =
        fs.entriesPerSector - q % fs.entriesPerSector := by
  have hmod : 32 * q % fs.sectorSize = 32 * (q % fs.entriesPerSector) := by
    rw [FatFs.sectorSize_eq hshift, Nat.mul_mod_mul_left]
  refine ⟨hmod, ?_⟩
  rw [hmod, FatFs.sectorSize_eq hshift, ← Nat.mul_sub, Nat.mul_div_cancel_left _ (by decide)]

/-- A call from a slot in front of the first end marker, or at it. -/
theorem vfatReaddirFile_inFront (h : fs.sbi.Mounted) (hshift : 5 ≤ fs.sectorShift) {p q : Nat}
    (hp : FirstMarker fs place p) (hfits : 32 * p < 2 ^ 32) (hq : q ≤ p)
    (hfile : file.At fs place q) (hread : vfatReaddirFile cp fs fuel file = some r) :
    r.InFront fs place p := by
  obtain ⟨s, hs⟩ := hp.sector hq
  have hdiv := Nat.div_add_mod' q fs.entriesPerSector
  have hmod := Nat.mod_lt q fs.entriesPerSector_pos
  obtain ⟨hoff, hleft⟩ := slots_left hshift q
  rw [vfatReaddirFile, getTheRightSector_at h hshift hfile hs (by omega)] at hread
  dsimp only at hread
  rw [hfile.offset, hleft, hoff, Option.map_eq_some_iff] at hread
  obtain ⟨r', hread, rfl⟩ := hread
  have hhere : dirSector fs place (q / fs.entriesPerSector) =
      some { file.inode with offset := q / fs.entriesPerSector, here := s : DirInode }.here := hs
  have hstart : (readInit (32 * q)).offset =
      32 * (q / fs.entriesPerSector * fs.entriesPerSector + q % fs.entriesPerSector) := by
    rw [hdiv]
    rfl
  have hrest := readdirLoop_inFront h hp hfits hhere rfl hfile.start
    (Nat.add_sub_cancel' (Nat.le_of_lt hmod)) (by omega) hstart hread
  refine ⟨hrest.pos, fun s' hmem => ?_, hrest.atEnd⟩
  obtain rfl | hmem := List.mem_cons.mp hmem
  · exact ⟨_, hs⟩
  · exact hrest.reads s' hmem

/-- No call gets past the first end marker. -/
theorem Calls.inFront (h : fs.sbi.Mounted) (hshift : 5 ≤ fs.sectorShift) {p : Nat}
    (hp : FirstMarker fs place p) (hfits : 32 * p < 2 ^ 32)
    (hcalls : Calls cp fs (openDir fs place) file) : ∃ q ≤ p, file.At fs place q := by
  induction hcalls with
  | refl => exact ⟨0, Nat.zero_le p, hp.openDir_at⟩
  | call _ hread ih =>
    obtain ⟨q, hq, hfile⟩ := ih
    exact (vfatReaddirFile_inFront h hshift hp hfits hq hfile hread).pos

/-- A call at the first end marker leaves the open directory as it is. -/
theorem vfatReaddirFile_at_marker (h : fs.sbi.Mounted) (hshift : 5 ≤ fs.sectorShift) {p : Nat}
    (hp : FirstMarker fs place p) (hfits : 32 * p < 2 ^ 32) (hfile : file.At fs place p)
    (hnumber : file.inode.offset = p / fs.entriesPerSector) :
    vfatReaddirFile cp fs (fuel + 1) file = some ⟨none, file, [file.inode.here]⟩ := by
  have hs := hfile.here
  rw [hnumber] at hs
  have hinode : { file.inode with
      offset := p / fs.entriesPerSector, here := file.inode.here } = file.inode := by
    rw [← hnumber]
  obtain ⟨hoff, hleft⟩ := slots_left hshift p
  have hmod := Nat.mod_lt p fs.entriesPerSector_pos
  obtain ⟨n, hn⟩ := Nat.exists_eq_add_of_lt hmod
  have hcount : fs.entriesPerSector - p % fs.entriesPerSector = n + 1 := by omega
  obtain ⟨s, hs', -, hzero⟩ := hp.marker
  rw [hs] at hs'
  obtain rfl := Option.some.inj hs'
  have hstop : readStep cp (readInit (32 * p))
      (slotAt (fs.disk file.inode.here) (32 * (p % fs.entriesPerSector))) = .stop none := by
    rw [readStep, if_pos hzero]
  rw [vfatReaddirFile, getTheRightSector_at h hshift hfile hs hfits, hinode, hfile.offset, hleft, hoff,
    hcount, slotsFrom_succ, readdirLoop, scanBlock, readStepAt, hstop]
  have hback : (⟨file.inode, 32 * p⟩ : DirFile) = file := by
    rw [← hfile.offset]
  exact congrArg (fun f => some (DirRead.mk none f [file.inode.here])) hback

/-- The end of a directory with an end marker in its first 4 GiB is reported again. -/
theorem staysAtEnd_of_marker (h : fs.sbi.Mounted) (hshift : 5 ≤ fs.sectorShift) {k i : Nat}
    (hmarker : IsMarker fs place k i) (hfits : k * fs.sectorSize + 32 * i < 2 ^ 32)
    (hcalls : Calls cp fs (openDir fs place) file)
    (hread : vfatReaddirFile cp fs fuel file = some r) (hend : r.entry = none) :
    StaysAtEnd cp fs place r.file := by
  obtain ⟨p, hle, hp⟩ := exists_firstMarker hmarker
  have hpos : 32 * (k * fs.entriesPerSector + i) = k * fs.sectorSize + 32 * i := by
    rw [FatFs.sectorSize_eq hshift, Nat.mul_add, Nat.mul_left_comm]
  have hfits' : 32 * p < 2 ^ 32 := by omega
  obtain ⟨q, hq, hfile⟩ := hcalls.inFront h hshift hp hfits'
  obtain ⟨hat, hnumber⟩ :=
    (vfatReaddirFile_inFront h hshift hp hfits' hq hfile hread).atEnd hend
  have hagain : ∀ fuel, vfatReaddirFile cp fs (fuel + 1) r.file =
      some ⟨none, r.file, [r.file.inode.here]⟩ :=
    fun fuel => vfatReaddirFile_at_marker h hshift hp hfits' hat hnumber
  -- the open directory stays the same in every later call
  have hsame : ∀ file', Calls cp fs r.file file' → file' = r.file := by
    intro file' hcalls'
    induction hcalls' with
    | refl => rfl
    | @call file' fuel' r' _ hread' ih =>
      rw [ih] at hread'
      cases fuel' with
      | zero =>
        rw [vfatReaddirFile, readdirLoop, Option.map_none] at hread'
        cases hread'
      | succ fuel' =>
        rw [hagain fuel'] at hread'
        obtain rfl := Option.some.inj hread'
        rfl
  intro file' hcalls'
  rw [hsame file' hcalls']
  refine ⟨1, _, hagain 0, rfl, fun s hmem => ?_⟩
  obtain rfl := List.mem_singleton.mp hmem
  exact ⟨_, hat.here⟩

/-! ## Calls in any directory -/

/-- The offset of the file is that of slot `j` in the sector whose number is kept. -/
def DirFile.InSector (fs : FatFs) (file : DirFile) (j : Nat) : Prop :=
  j ≤ fs.entriesPerSector ∧ file.offset = u32 (fs.sectorSize * file.inode.offset + 32 * j)

/-- A call that reports the end is behind the last sector, or at an end marker. -/
def DirFile.Ends (fs : FatFs) (file : DirFile) (j : Nat) : Prop :=
  j < fs.entriesPerSector ∧
    (file.inode.here = 0 ∨ slotAt (fs.disk file.inode.here) (32 * j) 0 = 0)

/-- The loop of a call in any directory. -/
theorem readdirLoop_inSector (hshift : 5 ≤ fs.sectorShift) {j m : Nat} {st : ReadState}
    {inode : DirInode} (hm : j + m = fs.entriesPerSector)
    (hoff : st.offset = u32 (fs.sectorSize * inode.offset + 32 * j))
    (hread : readdirLoop cp fs fuel st inode (slotsFrom (fs.disk inode.here) (32 * j) m) = some r) :
    ∃ j', r.file.InSector fs j' ∧ (r.entry = none → r.file.Ends fs j') := by
  induction fuel generalizing j m st inode r with
  | zero =>
    rw [readdirLoop] at hread
    cases hread
  | succ fuel ih =>
    have hword : st.offset < 2 ^ 32 := by
      rw [hoff]
      exact Nat.mod_lt _ (by decide)
    have hrun := slotRun cp (fs.disk inode.here) (32 * j) m hword
    have hadd : ∀ x, u32 (st.offset + x) = u32 (fs.sectorSize * inode.offset + 32 * j + x) := by
      intro x
      rw [hoff, u32, u32, u32, Nat.mod_add_mod]
    rw [readdirLoop] at hread
    generalize scanBlock (readStepAt cp) st (slotsFrom (fs.disk inode.here) (32 * j) m) = outcome
      at hread hrun
    cases hrun with
    | fault => cases hread
    | @marker i st' hi hpast hzero =>
      obtain rfl := Option.some.inj hread
      refine ⟨j + i, ⟨by omega, ?_⟩, fun _ => ⟨by omega, Or.inr ?_⟩⟩
      · rw [hpast.1, hadd, Nat.mul_add, ← Nat.add_assoc]
      · rw [Nat.mul_add]
        exact hzero
    | @entry i de st' st'' hi hpast hentry =>
      obtain rfl := Option.some.inj hread
      refine ⟨j + i + 1, ⟨by omega, ?_⟩, fun hend => absurd hend (Option.some_ne_none _)⟩
      have hnext : u32 (st'.offset + 32) = u32 (st.offset + (32 * i + 32)) := by
        rw [hpast.1, u32, u32, u32, Nat.mod_add_mod, Nat.add_assoc]
      dsimp only
      rw [hnext, hadd]
      congr 1
      omega
    | @behind st' hpast =>
      have hnext : st'.offset =
          u32 (fs.sectorSize * (nextSector fs inode).offset + 32 * 0) := by
        have hback : fs.sectorSize * inode.offset + 32 * j + 32 * m =
            fs.sectorSize * (inode.offset + 1) := by
          rw [FatFs.sectorSize_eq hshift, Nat.add_assoc, ← Nat.mul_add, hm, Nat.mul_succ]
        have hmod : u32 (fs.sectorSize * u64 (inode.offset + 1)) =
            u32 (fs.sectorSize * (inode.offset + 1)) := by
          rw [u32, u32, u64, Nat.mul_mod, Nat.mod_mod_of_dvd _ (by decide), ← Nat.mul_mod]
        rw [hpast.1, hadd, hback, nextSector, Nat.mul_zero, Nat.add_zero]
        exact hmod.symm
      dsimp only at hread
      split_ifs at hread with hlast
      · obtain rfl := Option.some.inj hread
        exact ⟨0, ⟨Nat.zero_le _, hnext⟩, fun _ => ⟨fs.entriesPerSector_pos, Or.inl hlast⟩⟩
      · obtain ⟨r', hloop, rfl⟩ := Option.map_eq_some_iff.mp hread
        have hrest := ih (j := 0) (Nat.zero_add _) hnext hloop
        exact hrest

/-- A call at a slot of any directory. -/
theorem vfatReaddirFile_inSector (hshift : 5 ≤ fs.sectorShift) {q : Nat}
    (hoff : file.offset = 32 * q) (hfits : 32 * q < 2 ^ 32)
    (hread : vfatReaddirFile cp fs fuel file = some r) :
    ∃ j, r.file.InSector fs j ∧ (r.entry = none → r.file.Ends fs j) := by
  obtain ⟨hmod, hleft⟩ := slots_left hshift q
  have hlt := Nat.mod_lt q fs.entriesPerSector_pos
  have hdiv := Nat.div_add_mod (32 * q) fs.sectorSize
  rw [hmod] at hdiv
  rw [vfatReaddirFile, hoff, hleft, hmod] at hread
  obtain ⟨r', hloop, rfl⟩ := Option.map_eq_some_iff.mp hread
  have hstart : (readInit (32 * q)).offset =
      u32 (fs.sectorSize * (getTheRightSector fs file).offset +
        32 * (q % fs.entriesPerSector)) := by
    rw [getTheRightSector, hoff, hdiv, u32_of_lt hfits, readInit]
  have hrest := readdirLoop_inSector hshift (Nat.add_sub_cancel' (Nat.le_of_lt hlt)) hstart hloop
  exact hrest

/-- The offset of an open directory is that of a slot. -/
theorem Calls.offset (hshift : 5 ≤ fs.sectorShift)
    (hcalls : Calls cp fs (openDir fs place) file) :
    ∃ q, file.offset = 32 * q ∧ 32 * q < 2 ^ 32 := by
  induction hcalls with
  | refl => exact ⟨0, rfl, by decide⟩
  | @call file' fuel r _ hread ih =>
    obtain ⟨q, hq, hfits⟩ := ih
    obtain ⟨j, ⟨-, hoff⟩, -⟩ := vfatReaddirFile_inSector hshift hq hfits hread
    have hslots : fs.sectorSize * r.file.inode.offset + 32 * j =
        32 * (fs.entriesPerSector * r.file.inode.offset + j) := by
      rw [FatFs.sectorSize_eq hshift, Nat.mul_assoc, Nat.mul_add]
    rw [hslots, u32] at hoff
    exact ⟨r.file.offset / 32, by omega, by omega⟩

/-- Behind a call that ends below 4 GiB, the next one goes on with the sector that is kept. -/
theorem DirFile.InSector.here_of_ends (hword : fs.sectorShift ≤ 32) {j : Nat}
    (hshift : 5 ≤ fs.sectorShift) (hin : file.InSector fs j) (hends : file.Ends fs j)
    (hbelow : file.inode.offset * fs.sectorSize < 2 ^ 32) :
    (getTheRightSector fs file).here = file.inode.here := by
  have hpow : 2 ^ (32 - fs.sectorShift) * fs.sectorSize = 2 ^ 32 := by
    rw [FatFs.sectorSize, ← Nat.pow_add, Nat.sub_add_cancel hword]
  have hss : fs.sectorSize = 32 * fs.entriesPerSector := FatFs.sectorSize_eq hshift
  have hpos : 0 < fs.sectorSize := Nat.two_pow_pos _
  have hnumber : file.inode.offset + 1 ≤ 2 ^ (32 - fs.sectorShift) := by
    rw [← hpow] at hbelow
    exact Nat.lt_of_mul_lt_mul_right hbelow
  have htop := Nat.mul_le_mul_right fs.sectorSize hnumber
  rw [hpow, Nat.add_one_mul] at htop
  have hlt := hends.1
  have hsector : file.offset / fs.sectorSize = file.inode.offset := by
    rw [hin.2, Nat.mul_comm, u32_of_lt (by omega), Nat.mul_comm, Nat.mul_add_div hpos,
      Nat.div_eq_of_lt (by omega), Nat.add_zero]
  have hle : file.inode.offset ≤ file.inode.offset * fs.sectorSize := Nat.le_mul_of_pos_right _ hpos
  rw [getTheRightSector, hsector, if_neg (Nat.lt_irrefl _), u32_of_lt (by omega)]
  dsimp only
  rw [Nat.sub_self, chain_zero]

/-- An end below 4 GiB that is reported again is at an end marker of the directory. -/
theorem marker_of_staysAtEnd (h : fs.sbi.Mounted) (hshift : 5 ≤ fs.sectorShift)
    (hword : fs.sectorShift ≤ 32) (hcalls : Calls cp fs (openDir fs place) file)
    (hread : vfatReaddirFile cp fs fuel file = some r) (hend : r.entry = none)
    (hbelow : r.file.inode.offset * fs.sectorSize < 2 ^ 32)
    (hstays : StaysAtEnd cp fs place r.file) : ∃ k i, IsMarker fs place k i := by
  obtain ⟨q, hq, hfits⟩ := hcalls.offset hshift
  obtain ⟨j, hin, hat⟩ := vfatReaddirFile_inSector hshift hq hfits hread
  obtain ⟨fuel', r', hread', -, hreads⟩ := hstays r.file .refl
  obtain ⟨r'', -, rfl⟩ := Option.map_eq_some_iff.mp hread'
  obtain ⟨k, hk⟩ := hreads _ List.mem_cons_self
  rw [hin.here_of_ends hword hshift (hat hend) hbelow] at hk
  obtain ⟨hj, hzero | hmarker⟩ := hat hend
  · -- sector 0 is in no directory
    rw [hzero] at hk
    exact absurd (dirSector_pos h hk) (Nat.lt_irrefl 0)
  · exact ⟨k, j, r.file.inode.here, hk, hj, hmarker⟩

/-- With an end marker in the first 4 GiB of a directory the end stays reported in every run of
calls. A call that ends below 4 GiB in a directory without one breaks that. -/
theorem readdir_stays_at_end (cp : Codepage) (fs : FatFs) (bpb : FatBpb) (place : DirPlace)
    (hinit : vfatFsInit fs.sectorShift bpb = some fs.sbi) (hdata : fs.sbi.data ≤ bpb.totalSectors)
    (hshift : 5 ≤ fs.sectorShift) :
    ((∃ k i, IsMarker fs place k i ∧ k * fs.sectorSize + 32 * i < 2 ^ 32) →
      ∀ file fuel r, Calls cp fs (openDir fs place) file →
        vfatReaddirFile cp fs fuel file = some r → r.entry = none →
          StaysAtEnd cp fs place r.file) ∧
    ((¬∃ k i, IsMarker fs place k i) →
      ∀ file fuel r, Calls cp fs (openDir fs place) file →
        vfatReaddirFile cp fs fuel file = some r → r.entry = none →
          r.file.inode.offset * fs.sectorSize < 2 ^ 32 → ¬StaysAtEnd cp fs place r.file) := by
  have h := mounted_of_vfatFsInit hinit hdata
  have hword : fs.sectorShift ≤ 32 := by
    have hlt := fs.valid.byteShift_lt
    have heq := fs.valid.byteShift_eq
    omega
  constructor
  · rintro ⟨k, i, hmarker, hfits⟩ file fuel r hcalls hread hend
    exact staysAtEnd_of_marker h hshift hmarker hfits hcalls hread hend
  · intro hnone file fuel r hcalls hread hend hbelow hstays
    exact hnone (marker_of_staysAtEnd h hshift hword hcalls hread hend hbelow hstays)

/-! ## Examples -/

/-- The boot sector of a volume with a root directory of one sector. -/
def rootBpb : FatBpb := ⟨1, 1, 1, 16, 10, 1, 0, 0, 0, 0⟩

/-- A volume whose root directory repeats one slot. -/
def rootFat (slot : List UInt8) (hslot : slot.length = 32) : FatFs where
  sectorShift := 9
  sbi := ⟨1, 2, 3, 7, 1, 0, 9, .fat12⟩
  disk p := if p = 2 then (List.replicate 16 slot).flatten else 0xeb :: List.replicate 511 0x20
  shift_ge := usualShift_ge
  valid := smallSbi_valid
  disk_length p := by
    split_ifs
    · rw [List.length_flatten, List.map_replicate, hslot]
      rfl
    · rw [List.length_cons, List.length_replicate]
      rfl

/-- The slot of an empty file with a short name of one letter. -/
def fileSlot (letter : UInt8) : List UInt8 :=
  letter :: List.replicate 10 0x20 ++ 0x20 :: List.replicate 20 0

/-- A volume with two files in its root directory. -/
def twoFiles : FatFs where
  sectorShift := 9
  sbi := ⟨1, 2, 3, 7, 1, 0, 9, .fat12⟩
  disk p := if p = 2 then fileSlot 0x41 ++ fileSlot 0x42 ++ List.replicate 448 0
    else List.replicate 512 0x20
  shift_ge := usualShift_ge
  valid := smallSbi_valid
  disk_length p := by
    split_ifs
    · simp only [fileSlot, List.length_append, List.length_cons, List.length_replicate]
      rfl
    · exact List.length_replicate

/-- Two files are listed, and then the end again and again. -/
theorem readdir_stays_at_end_twoFiles : ∃ first second last,
    vfatReaddirFile codepage twoFiles 1 (openDir twoFiles .rootRegion) = some first ∧
      first.entry.map Dirent.dName = some [0x41, 0] ∧
    vfatReaddirFile codepage twoFiles 1 first.file = some second ∧
      second.entry.map Dirent.dName = some [0x42, 0] ∧
    vfatReaddirFile codepage twoFiles 1 second.file = some last ∧ last.entry = none ∧
      StaysAtEnd codepage twoFiles .rootRegion last.file := by
  have hrun : ((vfatReaddirFile codepage twoFiles 1 (openDir twoFiles .rootRegion)).bind
      fun first => (vfatReaddirFile codepage twoFiles 1 first.file).bind fun second =>
        (vfatReaddirFile codepage twoFiles 1 second.file).map fun last =>
          (first.entry.map Dirent.dName, second.entry.map Dirent.dName, last.entry)) =
      some (some [0x41, 0], some [0x42, 0], none) := by
    decide +kernel
  obtain ⟨first, hfirst, hrun⟩ := Option.bind_eq_some_iff.mp hrun
  obtain ⟨second, hsecond, hrun⟩ := Option.bind_eq_some_iff.mp hrun
  obtain ⟨last, hlast, hentries⟩ := Option.map_eq_some_iff.mp hrun
  obtain ⟨hname, hrest⟩ := Prod.mk.inj hentries
  obtain ⟨hname', hend⟩ := Prod.mk.inj hrest
  exact ⟨first, second, last, hfirst, hname, hsecond, hname', hlast, hend,
    (readdir_stays_at_end codepage twoFiles rootBpb .rootRegion (by decide) (by decide)
      (by decide)).1 ⟨0, 2, ⟨2, by decide, by decide, by decide⟩, by decide⟩ _ 1 last
        (.call (.call .refl hfirst) hsecond) hlast hend⟩

/-- A full root directory of deleted slots: the call behind the end reads the boot sector. -/
theorem readdir_full_not_stays : ¬∀ (cp : Codepage) (fs : FatFs) (bpb : FatBpb) (place : DirPlace),
    vfatFsInit fs.sectorShift bpb = some fs.sbi → fs.sbi.data ≤ bpb.totalSectors →
    5 ≤ fs.sectorShift → (dirSector fs place 0).isSome →
    ∀ file fuel r, Calls cp fs (openDir fs place) file →
      vfatReaddirFile cp fs fuel file = some r → r.entry = none →
        StaysAtEnd cp fs place r.file := by
  intro h
  have hend : (vfatReaddirFile codepage (rootFat (List.replicate 32 0xe5) rfl) 1
      (openDir (rootFat (List.replicate 32 0xe5) rfl) .rootRegion)).map
        (fun r => (r.entry, r.file)) = some (none, ⟨⟨2, 1, 0⟩, 512⟩) := by
    decide +kernel
  obtain ⟨r, hread, hr⟩ := Option.map_eq_some_iff.mp hend
  obtain ⟨hnone, hfile⟩ := Prod.mk.inj hr
  have hstays := h codepage _ rootBpb .rootRegion (by decide) (by decide) (by decide) (by decide)
    _ 1 r .refl hread hnone
  obtain ⟨fuel, r', hread', -, hreads⟩ := hstays r.file .refl
  obtain ⟨r'', -, rfl⟩ := Option.map_eq_some_iff.mp hread'
  obtain ⟨k, hk⟩ := hreads _ List.mem_cons_self
  rw [hfile] at hk
  exact absurd (dirSector_pos ⟨by decide, by decide, by decide⟩ hk) (by decide)

end Liigboot.Fs.Fat
