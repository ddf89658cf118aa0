import Liigboot.Fs.Fat.NextExtent
import Liigboot.Fs.Fat.Directory
import Liigboot.Fs.HaveMore

/-!
# Reading a FAT file from its start on

A file that is read from its start on asks the driver for the cluster behind the last one that it
found, and for no other. So the driver takes up its walk where it left it, and when it meets a
cluster outside the volume, the file has been read up to that cluster.
-/

namespace Liigboot.Fs.Fat

/-! ## The driver behind `generic_getfssec` -/

/-- What `fat_next_extent` changes of an inode besides the extent: its private data and its size. -/
structure FatNode where
  pvt : FatPvt
  size : UInt32
  deriving DecidableEq, Repr

/-- A mounted FAT volume with `fat_next_extent`. -/
def fatInfo (fs : FatFs) (hshift : fs.sectorShift < 31) : FsInfo FatNode where
  nextExtent inode lstart :=
    let (error, next) := fatNextExtent fs
      ⟨inode.pvt.size, inode.thisExtent, inode.nextExtent, inode.pvt.pvt⟩ lstart
    ⟨error, next.nextExtent.pstart, next.nextExtent.len, ⟨next.pvt, next.size⟩⟩
  sectorShift := fs.sectorShift
  disk := fs.disk
  shift_lt := hshift
  disk_length := fs.disk_length

/-- An open file. -/
structure FatFile where
  inode : Inode FatNode
  offset : Nat

/-- `inode->size`. -/
def FatFile.size (file : FatFile) : UInt32 := file.inode.pvt.size

/-- The file behind a read. -/
def gotFile (got : Got FatNode) : FatFile := ⟨got.inode, got.offset⟩

/-- `generic_getfssec` on an open file. -/
def fatGetfssec (fs : FatFs) (hshift : fs.sectorShift < 31) (fuel : Nat) (file : FatFile)
    (sectors : Nat) : Option (Got FatNode) :=
  genericGetfssec (fatInfo fs hshift) fuel { file.inode with size := file.size } file.offset sectors

/-- The file that is opened with an inode of `vfat_find_entry`. -/
def openFile (found : Found) : FatFile :=
  ⟨Inode.fresh found.size
    ⟨⟨found.startCluster.toNat, found.start, 0, found.start⟩, found.size⟩, 0⟩

variable {fs : FatFs} {hshift : fs.sectorShift < 31} {start f : Nat}

/-! ## One call of the driver -/

/-- The driver has found the clusters of a file in front of position `f`. -/
structure AtFrontier (fs : FatFs) (start f : Nat) (pvt : FatPvt) : Prop where
  start_eq : pvt.startCluster = start
  offset_eq : pvt.offset = f * 2 ^ fs.sbi.clustShift
  data_le : 0 < f → fs.sbi.data ≤ pvt.here
  resume : f = 0 → resumeCluster fs pvt = start ∨ pvt.here < fs.sbi.data
  on_volume : 0 < f → offVolume fs start = false

/-- A run grows by whole clusters. -/
theorem extendRun_len (m left : Nat) {k p x : Nat} (hk : 0 < k)
    (hfit : (k + left) * 2 ^ fs.sbi.clustShift < 2 ^ 32) :
    ∃ r x', extendRun fs left (m + k - 1) p x (k * 2 ^ fs.sbi.clustShift) =
        ⟨m + r, x', r * 2 ^ fs.sbi.clustShift⟩ ∧ k ≤ r ∧ r ≤ k + left := by
  induction left generalizing k p x with
  | zero =>
    refine ⟨k, x, ?_, Nat.le_refl k, Nat.le_refl k⟩
    rw [extendRun, Nat.sub_add_cancel (by omega)]
  | succ left ih =>
    have hl : m + k - 1 + 1 = m + k := by omega
    rw [extendRun, hl]
    split_ifs with hnext
    · exact ⟨k, _, rfl, Nat.le_refl k, Nat.le_add_right _ _⟩
    · have hstep : k + 1 + left = k + (left + 1) := by omega
      have hlen : u32 (k * 2 ^ fs.sbi.clustShift + 2 ^ fs.sbi.clustShift) =
          (k + 1) * 2 ^ fs.sbi.clustShift := by
        rw [← Nat.succ_mul]
        refine u32_of_lt (Nat.lt_of_le_of_lt (Nat.mul_le_mul_right _ ?_) hfit)
        omega
      obtain ⟨r, x', hrun, hge, hle⟩ := @ih (k + 1) (p + 1) (getNextCluster fs p) (Nat.succ_pos k)
        (by rw [hstep]; exact hfit)
      have hpos : m + (k + 1) - 1 = m + k := by omega
      rw [hpos] at hrun
      rw [hlen]
      exact ⟨r, x', hrun, by omega, by omega⟩

/-- The clusters that the driver takes a file to have. -/
def tclusterOf (fs : FatFs) (size : UInt32) : Nat :=
  u32 (size.toNat + 2 ^ fs.sbi.clustByteShift - 1) / 2 ^ fs.sbi.clustByteShift

theorem tclusterOf_mul_lt (size : UInt32) :
    tclusterOf fs size * 2 ^ fs.sbi.clustShift < 2 ^ 32 := by
  have hle : 2 ^ fs.sbi.clustShift ≤ 2 ^ fs.sbi.clustByteShift :=
    Nat.pow_le_pow_right (by decide) (by rw [fs.valid.byteShift_eq]; exact Nat.le_add_right _ _)
  refine Nat.lt_of_le_of_lt (Nat.mul_le_mul_left _ hle) ?_
  exact Nat.lt_of_le_of_lt (Nat.div_mul_le_self _ _) (Nat.mod_lt _ (Nat.two_pow_pos 32))

/-- Each of these clusters starts in front of the end of the file. -/
theorem mul_lt_of_lt_tclusterOf {size : UInt32} (h : f < tclusterOf fs size) :
    f * 2 ^ fs.sbi.clustByteShift < size.toNat := by
  have hpos : 0 < 2 ^ fs.sbi.clustByteShift := Nat.two_pow_pos _
  have hle := (Nat.le_div_iff_mul_le hpos).mp (Nat.succ_le_of_lt h)
  have hmod : u32 (size.toNat + 2 ^ fs.sbi.clustByteShift - 1) ≤
      size.toNat + 2 ^ fs.sbi.clustByteShift - 1 := Nat.mod_le _ _
  rw [Nat.succ_mul] at hle
  omega

/-- Asked for the cluster behind those that it has found, the driver says that the file ends, or
finds a run of clusters from there on, or cuts the size, since the cluster is not on the volume. -/
theorem AtFrontier.next {inode : Inode FatPvt} (h : AtFrontier fs start f inode.pvt)
    (hlt : f * 2 ^ fs.sbi.clustShift < 2 ^ 32) :
    fatNextExtent fs inode (f * 2 ^ fs.sbi.clustShift) = (true, inode) ∨
    (fatNextExtent fs inode (f * 2 ^ fs.sbi.clustShift) =
        (true, { inode with size := UInt32.ofNat (f * 2 ^ fs.sbi.clustShift) }) ∧
      f * 2 ^ fs.sbi.clustByteShift < inode.size.toNat) ∨
    ∃ r pstart pvt, fatNextExtent fs inode (f * 2 ^ fs.sbi.clustShift) =
        (false, { inode with
          nextExtent := ⟨pstart, inode.nextExtent.lstart, r * 2 ^ fs.sbi.clustShift⟩, pvt }) ∧
      0 < r ∧ (f + r) * 2 ^ fs.sbi.clustShift < 2 ^ 32 ∧ AtFrontier fs start (f + r) pvt := by
  have hpos : 0 < 2 ^ fs.sbi.clustShift := Nat.two_pow_pos _
  have hmc : f * 2 ^ fs.sbi.clustShift / 2 ^ fs.sbi.clustShift = f := Nat.mul_div_cancel f hpos
  have hmul := @tclusterOf_mul_lt fs inode.size
  have htc : u32 (inode.size.toNat + 2 ^ fs.sbi.clustByteShift - 1) /
      2 ^ fs.sbi.clustByteShift = tclusterOf fs inode.size := rfl
  have hposition : u32 (inode.pvt.offset / 2 ^ fs.sbi.clustShift) = f := by
    rw [h.offset_eq, hmc]
    exact u32_of_lt (Nat.lt_of_le_of_lt (Nat.le_mul_of_pos_right f hpos) hlt)
  by_cases hend : f ≥ tclusterOf fs inode.size
  · left
    simp only [fatNextExtent, hmc, htc, if_pos hend]
  · -- the walk starts at position `f`, and with the first cluster if that is the first position
    obtain ⟨p, hsel, hp⟩ : ∃ p,
        (if f > f ∨ inode.pvt.here < fs.sbi.data then (0, inode.pvt.startCluster)
          else (f, resumeCluster fs inode.pvt)) = (f, p) ∧ (f = 0 → p = start) := by
      by_cases hhere : inode.pvt.here < fs.sbi.data
      · have hzero : f = 0 := by
          by_contra hne
          exact absurd (h.data_le (Nat.pos_of_ne_zero hne)) (Nat.not_le.mpr hhere)
        refine ⟨start, ?_, fun _ => rfl⟩
        rw [if_pos (Or.inr hhere), h.start_eq, hzero]
      · refine ⟨resumeCluster fs inode.pvt, if_neg ?_, fun hzero => ?_⟩
        · exact not_or.mpr ⟨Nat.lt_irrefl f, hhere⟩
        · exact (h.resume hzero).resolve_right hhere
    rw [resumeCluster] at hsel
    by_cases hoff : offVolume fs p = true
    · refine Or.inr (Or.inl ⟨?_, mul_lt_of_lt_tclusterOf (Nat.lt_of_not_le hend)⟩)
      simp only [fatNextExtent, hmc, htc, if_neg hend, hposition, hsel, Nat.sub_self, walkTo,
        if_pos hoff]
    · obtain ⟨r, x, hrun, hge, hle⟩ := @extendRun_len fs f (tclusterOf fs inode.size - 1 - f) 1 p 0
        Nat.one_pos (Nat.lt_of_le_of_lt (Nat.mul_le_mul_right _ (by omega)) hmul)
      rw [Nat.add_sub_cancel, Nat.one_mul] at hrun
      have hfit : (f + r) * 2 ^ fs.sbi.clustShift < 2 ^ 32 :=
        Nat.lt_of_le_of_lt (Nat.mul_le_mul_right _ (by omega)) hmul
      refine Or.inr (Or.inr ⟨r, (p - 2) * 2 ^ fs.sbi.clustShift + fs.sbi.data,
        { inode.pvt with offset := (f + r) * 2 ^ fs.sbi.clustShift, here := hereOf fs x }, ?_, hge,
        hfit, h.start_eq, rfl, fun _ => ?_, fun hzero => absurd hzero (by omega), fun _ => ?_⟩)
      · simp only [fatNextExtent, hmc, htc, if_neg hend, hposition, hsel, Nat.sub_self, walkTo,
          if_neg hoff, hrun, u32_of_lt hfit]
      · rw [hereOf]
        exact Nat.le_add_left _ _
      · by_cases hzero : f = 0
        · rw [← hp hzero]
          exact Bool.eq_false_iff.mpr hoff
        · exact h.on_volume (Nat.pos_of_ne_zero hzero)

/-! ## The extents -/

/-- What holds of an inode that is read from its start on: the clusters in front of position `f`
are found, and the one behind the current extent or the one behind the next is at this position. -/
structure Follows (fs : FatFs) (start : Nat) (size : UInt32) (f : Nat) (inode : Inode FatNode) :
    Prop where
  size_eq : inode.pvt.size = size
  frontier : AtFrontier fs start f inode.pvt.pvt
  lt : f * 2 ^ fs.sbi.clustShift < 2 ^ 32
  this_le : inode.thisExtent.lstart + inode.thisExtent.len ≤ f * 2 ^ fs.sbi.clustShift
  next_le : inode.nextExtent.lstart + inode.nextExtent.len ≤ f * 2 ^ fs.sbi.clustShift
  place : inode.thisExtent.lstart + inode.thisExtent.len = f * 2 ^ fs.sbi.clustShift ∨
    inode.nextExtent.lstart = inode.thisExtent.lstart + inode.thisExtent.len ∧
      inode.nextExtent.lstart + inode.nextExtent.len = f * 2 ^ fs.sbi.clustShift

/-- What holds of an inode whose size was cut at position `l`, since the cluster there is not on the
volume. -/
structure CutAt (fs : FatFs) (start : Nat) (size : UInt32) (l : Nat) (inode : Inode FatNode) :
    Prop where
  size_eq : inode.pvt.size = UInt32.ofNat (l * 2 ^ fs.sbi.clustShift)
  lt : l * 2 ^ fs.sbi.clustByteShift < size.toNat
  on_volume : 0 < l → offVolume fs start = false
  this_end : inode.thisExtent.lstart + inode.thisExtent.len = l * 2 ^ fs.sbi.clustShift
  next_len : inode.nextExtent.len = 0

variable {size : UInt32} {inode : Inode FatNode} {l : Nat}

/-- The sectors of a cluster are no more than its bytes. -/
theorem mul_clustShift_le (l : Nat) :
    l * 2 ^ fs.sbi.clustShift ≤ l * 2 ^ fs.sbi.clustByteShift := by
  refine Nat.mul_le_mul_left _ (Nat.pow_le_pow_right (by decide) ?_)
  rw [fs.valid.byteShift_eq]
  exact Nat.le_add_right _ _

theorem CutAt.sectors_lt (h : CutAt fs start size l inode) :
    l * 2 ^ fs.sbi.clustShift < 2 ^ 32 := by
  have hle := @mul_clustShift_le fs l
  have hlt := h.lt
  have hs := size.toNat_lt
  omega

/-- A file whose size was cut has no clusters behind the place where it was. -/
theorem CutAt.tclusterOf_le (h : CutAt fs start size l inode) :
    tclusterOf fs inode.pvt.size ≤ l := by
  have hsize : inode.pvt.size.toNat = l * 2 ^ fs.sbi.clustShift := by
    rw [h.size_eq, UInt32.toNat_ofNat']
    exact Nat.mod_eq_of_lt h.sectors_lt
  refine Nat.le_of_not_lt fun hlt => ?_
  have hinside := mul_lt_of_lt_tclusterOf hlt
  have hle := @mul_clustShift_le fs l
  omega

/-- The next extent when the driver is asked for it. -/
theorem refetch_call {p : Nat} {error : Bool} {next : Inode FatPvt}
    (hcall : fatNextExtent fs ⟨inode.pvt.size, inode.thisExtent, inode.nextExtent,
      inode.pvt.pvt⟩ p = (error, next))
    (hend : u32 (inode.thisExtent.lstart + inode.thisExtent.len) = p)
    (hc : inode.nextExtent.len = 0 ∨ inode.nextExtent.lstart ≠ p) :
    refetch (fatInfo fs hshift) inode = { inode with
      nextExtent := ⟨next.nextExtent.pstart, p, if error then 0 else next.nextExtent.len⟩
      pvt := ⟨next.pvt, next.size⟩ } := by
  have hmapped : (fatInfo fs hshift).nextExtent inode p =
      ⟨error, next.nextExtent.pstart, next.nextExtent.len, ⟨next.pvt, next.size⟩⟩ := by
    simp only [fatInfo, hcall]
  rw [← hend] at hc
  rw [Fs.refetch, if_pos hc, getNextExtent, hend]
  generalize (fatInfo fs hshift).nextExtent inode p = mapped at hmapped
  rw [hmapped]

/-- The next extent is asked from the driver if it is not there, and the driver may find that the
file ends too early. -/
theorem Follows.refetch (h : Follows fs start size f inode) :
    (refetch (fatInfo fs hshift) inode).thisExtent = inode.thisExtent ∧
      (refetch (fatInfo fs hshift) inode).nextExtent.lstart =
        inode.thisExtent.lstart + inode.thisExtent.len ∧
      ((∃ f, Follows fs start size f (refetch (fatInfo fs hshift) inode)) ∨
        ∃ l, CutAt fs start size l (refetch (fatInfo fs hshift) inode)) := by
  have hlt := h.lt
  have hthis := h.this_le
  have hend : u32 (inode.thisExtent.lstart + inode.thisExtent.len) =
      inode.thisExtent.lstart + inode.thisExtent.len := u32_of_lt (by omega)
  by_cases hc : inode.nextExtent.len = 0 ∨
      inode.nextExtent.lstart ≠ inode.thisExtent.lstart + inode.thisExtent.len
  · -- the driver is asked for the sector behind those that it has found
    have hplace : inode.thisExtent.lstart + inode.thisExtent.len =
        f * 2 ^ fs.sbi.clustShift := by
      obtain hplace | ⟨hstart, hplace⟩ := h.place
      · exact hplace
      · have hlen := hc.resolve_right (not_not.mpr hstart)
        omega
    have hasked := hend.trans hplace
    rw [hplace] at hc
    have hnext := @AtFrontier.next fs start f ⟨inode.pvt.size, inode.thisExtent,
      inode.nextExtent, inode.pvt.pvt⟩ h.frontier hlt
    obtain hcall | ⟨hcall, hinside⟩ | ⟨r, pstart, pvt, hcall, hr, hfit, hfrontier⟩ := hnext
    · rw [refetch_call hcall hasked hc]
      refine ⟨rfl, hplace.symm, Or.inl ⟨f, h.size_eq, h.frontier, hlt, hthis, ?_, Or.inl hplace⟩⟩
      exact Nat.le_refl _
    · rw [refetch_call hcall hasked hc]
      refine ⟨rfl, hplace.symm, Or.inr ⟨f, rfl, ?_, h.frontier.on_volume, hplace, rfl⟩⟩
      rw [← h.size_eq]
      exact hinside
    · rw [refetch_call hcall hasked hc]
      have hsum : f * 2 ^ fs.sbi.clustShift + r * 2 ^ fs.sbi.clustShift =
          (f + r) * 2 ^ fs.sbi.clustShift := (Nat.add_mul _ _ _).symm
      refine ⟨rfl, hplace.symm, Or.inl ⟨f + r, h.size_eq, hfrontier, hfit, ?_, hsum.le,
        Or.inr ⟨hplace.symm, hsum⟩⟩⟩
      dsimp only
      omega
  · rw [Fs.refetch, hend, if_neg hc]
    rw [not_or, not_not] at hc
    exact ⟨rfl, hc.2, Or.inl ⟨f, h⟩⟩

/-- Behind the place where the size was cut, the driver finds nothing. -/
theorem CutAt.refetch (h : CutAt fs start size l inode) :
    (refetch (fatInfo fs hshift) inode).thisExtent = inode.thisExtent ∧
      (refetch (fatInfo fs hshift) inode).nextExtent.lstart =
        inode.thisExtent.lstart + inode.thisExtent.len ∧
      CutAt fs start size l (refetch (fatInfo fs hshift) inode) := by
  have hlt := h.sectors_lt
  have hend : u32 (inode.thisExtent.lstart + inode.thisExtent.len) =
      inode.thisExtent.lstart + inode.thisExtent.len := by
    rw [h.this_end]
    exact u32_of_lt hlt
  have hmc : l * 2 ^ fs.sbi.clustShift / 2 ^ fs.sbi.clustShift = l :=
    Nat.mul_div_cancel l (Nat.two_pow_pos _)
  have hcall : fatNextExtent fs ⟨inode.pvt.size, inode.thisExtent, inode.nextExtent,
      inode.pvt.pvt⟩ (l * 2 ^ fs.sbi.clustShift) =
      (true, ⟨inode.pvt.size, inode.thisExtent, inode.nextExtent, inode.pvt.pvt⟩) := by
    rw [fatNextExtent, hmc]
    exact if_pos h.tclusterOf_le
  rw [refetch_call hcall (hend.trans h.this_end) (Or.inl h.next_len)]
  exact ⟨rfl, h.this_end.symm, h.size_eq, h.lt, h.on_volume, h.this_end, rfl⟩

/-! ## One read -/

/-- What holds in front of a step of a read that has `n` sectors to go: the size may have been cut,
and then the current extent is the rest of what can be read. -/
def Tracks (fs : FatFs) (start : Nat) (size : UInt32) (n : Nat) (inode : Inode FatNode) : Prop :=
  (∃ f, Follows fs start size f inode) ∨
    ∃ l, CutAt fs start size l inode ∧ (inode.thisExtent.len < n ∨ inode.thisExtent.len = 0)

/-- The current extent may be any other one with the same end. -/
theorem Follows.setThis (h : Follows fs start size f inode) {e : Extent}
    (hend : e.lstart + e.len = inode.thisExtent.lstart + inode.thisExtent.len) :
    Follows fs start size f { inode with thisExtent := e } := by
  refine ⟨h.size_eq, h.frontier, h.lt, ?_, h.next_le, ?_⟩
  · dsimp only
    rw [hend]
    exact h.this_le
  · dsimp only
    rw [hend]
    exact h.place

theorem CutAt.setThis (h : CutAt fs start size l inode) {e : Extent}
    (hend : e.lstart + e.len = inode.thisExtent.lstart + inode.thisExtent.len) :
    CutAt fs start size l { inode with thisExtent := e } :=
  ⟨h.size_eq, h.lt, h.on_volume, hend.trans h.this_end, h.next_len⟩

/-- The current extent may reach up to the end of the next one. -/
theorem Follows.setNext (h : Follows fs start size f inode) {e : Extent}
    (hstart : inode.nextExtent.lstart = inode.thisExtent.lstart + inode.thisExtent.len)
    (hend : e.lstart + e.len = inode.nextExtent.lstart + inode.nextExtent.len) :
    Follows fs start size f { inode with thisExtent := e } := by
  have hnext := h.next_le
  have hplace : inode.nextExtent.lstart + inode.nextExtent.len =
      f * 2 ^ fs.sbi.clustShift := by
    obtain hplace | ⟨-, hplace⟩ := h.place
    · omega
    · exact hplace
  refine ⟨h.size_eq, h.frontier, h.lt, ?_, hnext, Or.inl (hend.trans hplace)⟩
  dsimp only
  rw [hend]
  exact hnext

/-- Looking ahead. -/
theorem Tracks.lookahead (fuel : Nat) {n n' : Nat} {inode' : Inode FatNode}
    (h : Tracks fs start size n inode)
    (hrun : Fs.lookahead (fatInfo fs hshift) fuel inode n = some (inode', n')) :
    inode'.thisExtent.lstart = inode.thisExtent.lstart ∧ n' ≤ n ∧
      Tracks fs start size n' inode' := by
  induction fuel generalizing inode with
  | zero => cases hrun
  | succ fuel ih =>
    rw [Fs.lookahead] at hrun
    by_cases hle : n ≤ inode.thisExtent.len
    · rw [if_pos hle] at hrun
      obtain ⟨rfl, rfl⟩ := Prod.mk.inj (Option.some.inj hrun)
      exact ⟨rfl, Nat.le_refl _, h⟩
    rw [if_neg hle] at hrun
    rw [show (if inode.nextExtent.len = 0 ∨ inode.nextExtent.lstart ≠
      u32 (inode.thisExtent.lstart + inode.thisExtent.len) then
        getNextExtent (fatInfo fs hshift) inode else inode) =
      refetch (fatInfo fs hshift) inode from rfl] at hrun
    obtain ⟨hthis, hstart, hnext⟩ : (refetch (fatInfo fs hshift) inode).thisExtent =
        inode.thisExtent ∧ (refetch (fatInfo fs hshift) inode).nextExtent.lstart =
          inode.thisExtent.lstart + inode.thisExtent.len ∧
        ((∃ f, Follows fs start size f (refetch (fatInfo fs hshift) inode)) ∨
          ∃ l, CutAt fs start size l (refetch (fatInfo fs hshift) inode)) := by
      obtain ⟨f, hfollows⟩ | ⟨l, hcut, -⟩ := h
      · exact hfollows.refetch
      · obtain ⟨hthis, hstart, hcut'⟩ := @CutAt.refetch fs hshift start size inode l hcut
        exact ⟨hthis, hstart, Or.inr ⟨l, hcut'⟩⟩
    generalize refetch (fatInfo fs hshift) inode = inode₁ at hthis hstart hnext hrun
    dsimp only at hrun
    rw [← hthis] at hstart hle ⊢
    by_cases h0 : inode₁.thisExtent.len = 0
    · rw [if_pos h0] at hrun
      rw [h0, Nat.add_zero] at hstart
      by_cases hnone : inode₁.nextExtent.len = 0
      · -- nothing is found
        rw [if_pos hnone] at hrun
        obtain ⟨rfl, rfl⟩ := Prod.mk.inj (Option.some.inj hrun)
        have hend : inode₁.nextExtent.lstart + inode₁.nextExtent.len =
            inode₁.thisExtent.lstart + inode₁.thisExtent.len := by omega
        refine ⟨hstart, Nat.zero_le n, ?_⟩
        obtain ⟨f, hfollows⟩ | ⟨l, hcut⟩ := hnext
        · exact Or.inl ⟨f, hfollows.setThis hend⟩
        · exact Or.inr ⟨l, hcut.setThis hend, Or.inr hnone⟩
      · rw [if_neg hnone] at hrun
        obtain ⟨f, hfollows⟩ | ⟨l, hcut⟩ := hnext
        · obtain ⟨hl, hn', h'⟩ := ih (Or.inl ⟨f, hfollows.setNext (by omega) rfl⟩) hrun
          exact ⟨hl.trans hstart, hn', h'⟩
        · exact absurd hcut.next_len hnone
    · rw [if_neg h0] at hrun
      by_cases hjoin : inode₁.nextExtent.len ≠ 0 ∧
          inode₁.nextExtent.pstart = nextPstart inode₁.thisExtent
      · rw [if_pos hjoin] at hrun
        obtain ⟨f, hfollows⟩ | ⟨l, hcut⟩ := hnext
        · have hlen : u32 (inode₁.thisExtent.len + inode₁.nextExtent.len) =
              inode₁.thisExtent.len + inode₁.nextExtent.len := by
            have hlt := hfollows.lt
            have hle := hfollows.next_le
            exact u32_of_lt (by omega)
          rw [hlen] at hrun
          have hjoined : Follows fs start size f { inode₁ with thisExtent :=
              { inode₁.thisExtent with
                len := inode₁.thisExtent.len + inode₁.nextExtent.len } } := by
            refine hfollows.setNext hstart ?_
            rw [hstart]
            exact (Nat.add_assoc _ _ _).symm
          have hrest := ih (Or.inl ⟨f, hjoined⟩) hrun
          exact hrest
        · exact absurd hcut.next_len hjoin.1
      · rw [if_neg hjoin] at hrun
        obtain ⟨rfl, rfl⟩ := Prod.mk.inj (Option.some.inj hrun)
        refine ⟨rfl, Nat.le_refl _, ?_⟩
        obtain hfollows | ⟨l, hcut⟩ := hnext
        · exact Or.inl hfollows
        · exact Or.inr ⟨l, hcut, Or.inl (Nat.lt_of_not_le hle)⟩

/-- What a read leaves: it went on by some sectors, and if it found that the file ends too early, it
went on up to there. -/
theorem Tracks.readLoop (fuel : Nat) {n bytesRead bytesRead' : Nat} {buf buf' : List UInt8}
    {inode' : Inode FatNode} (h : Tracks fs start size n inode)
    (hbytes : bytesRead + n * fs.sectorSize < 2 ^ 32)
    (hlstart : inode.thisExtent.lstart + n < 2 ^ 32)
    (hrun : Fs.readLoop (fatInfo fs hshift) fuel inode n bytesRead buf =
      some (inode', bytesRead', buf')) :
    ∃ k, inode'.thisExtent.lstart = inode.thisExtent.lstart + k ∧ k ≤ n ∧
      bytesRead' = bytesRead + k * fs.sectorSize ∧
      ((∃ f, Follows fs start size f inode') ∨
        ∃ l, CutAt fs start size l inode' ∧ inode'.thisExtent.len = 0) := by
  induction fuel generalizing inode n bytesRead buf with
  | zero => cases hrun
  | succ fuel ih =>
    rw [Fs.readLoop] at hrun
    by_cases h0 : n = 0
    · rw [if_pos h0] at hrun
      obtain ⟨rfl, hrest⟩ := Prod.mk.inj (Option.some.inj hrun)
      obtain ⟨rfl, rfl⟩ := Prod.mk.inj hrest
      refine ⟨0, rfl, Nat.zero_le n, by rw [Nat.zero_mul, Nat.add_zero], ?_⟩
      obtain hfollows | ⟨l, hcut, hlen⟩ := h
      · exact Or.inl hfollows
      · exact Or.inr ⟨l, hcut, hlen.resolve_left (by omega)⟩
    rw [if_neg h0] at hrun
    cases hlook : Fs.lookahead (fatInfo fs hshift) fuel inode n with
    | none =>
      rw [hlook] at hrun
      cases hrun
    | some next =>
      obtain ⟨inode₁, n₁⟩ := next
      obtain ⟨hl, hn₁, h₁⟩ := h.lookahead fuel hlook
      rw [hlook] at hrun
      dsimp only at hrun
      have hss : (fatInfo fs hshift).sectorSize = fs.sectorSize := rfl
      rw [hss] at hrun
      generalize hchunk : min n₁ inode₁.thisExtent.len = chunk at hrun
      have hle : chunk ≤ inode₁.thisExtent.len := hchunk ▸ Nat.min_le_right _ _
      have hcn : chunk ≤ n₁ := hchunk ▸ Nat.min_le_left _ _
      have hmul : chunk * fs.sectorSize + (n₁ - chunk) * fs.sectorSize ≤
          n * fs.sectorSize := by
        rw [← Nat.add_mul]
        exact Nat.mul_le_mul_right _ (by omega)
      rw [u32_of_lt (by omega : inode₁.thisExtent.lstart + chunk < 2 ^ 32),
        u32_of_lt (by omega : chunk * fs.sectorSize < 2 ^ 32),
        u32_of_lt (by omega : bytesRead + chunk * fs.sectorSize < 2 ^ 32)] at hrun
      have hsum : inode₁.thisExtent.lstart + chunk + (inode₁.thisExtent.len - chunk) =
          inode₁.thisExtent.lstart + inode₁.thisExtent.len := by omega
      -- the rest of the current extent is shorter than what is left to read, or nothing
      have hrest : Tracks fs start size (n₁ - chunk) { inode₁ with thisExtent :=
          ⟨if inode₁.thisExtent.pstart = extentZero then inode₁.thisExtent.pstart
            else u64 (inode₁.thisExtent.pstart + chunk),
            inode₁.thisExtent.lstart + chunk, inode₁.thisExtent.len - chunk⟩ } := by
        obtain ⟨f, hfollows⟩ | ⟨l, hcut, hlen⟩ := h₁
        · exact Or.inl ⟨f, hfollows.setThis hsum⟩
        · refine Or.inr ⟨l, hcut.setThis hsum, Or.inr ?_⟩
          dsimp only
          omega
      obtain ⟨k, hk, hkn, hread, hend⟩ := ih hrest (by omega) (by dsimp only; omega) hrun
      dsimp only at hk
      refine ⟨chunk + k, by omega, by omega, ?_, hend⟩
      rw [hread, Nat.add_mul, Nat.add_assoc]

/-- The current extent is made to start where it starts already: it is left as it is, or the next
one takes its place, or it is empty. -/
theorem Follows.seekExtent (h : Follows fs start size f inode) :
    Follows fs start size f (Fs.seekExtent inode inode.thisExtent.lstart) ∧
      (Fs.seekExtent inode inode.thisExtent.lstart).thisExtent.lstart =
        inode.thisExtent.lstart := by
  have hlt := h.lt
  have hthis := h.this_le
  have hnext := h.next_le
  have husable : ∀ {e : Extent}, e.lstart + e.len < 2 ^ 32 →
      (¬e.unusable inode.thisExtent.lstart = true ↔
        e.lstart ≤ inode.thisExtent.lstart ∧ inode.thisExtent.lstart < e.lstart + e.len) := by
    intro e he
    simp only [Extent.unusable, Bool.or_eq_true, decide_eq_true_eq, not_or, not_lt, ge_iff_le,
      not_le, u32_of_lt he]
  rw [Fs.seekExtent]
  dsimp only
  by_cases hthisUnusable : inode.thisExtent.unusable inode.thisExtent.lstart = true
  · have hempty : inode.thisExtent.len = 0 := by
      by_contra hne
      exact (husable (by omega)).mpr ⟨Nat.le_refl _, by omega⟩ hthisUnusable
    rw [if_pos hthisUnusable]
    by_cases hnextUnusable : inode.nextExtent.unusable inode.thisExtent.lstart = true
    · rw [if_pos hnextUnusable]
      refine ⟨h.setThis ?_, rfl⟩
      dsimp only
      rw [hempty]
    · -- the next extent holds the sector, so that it starts there
      obtain ⟨hlo, hhi⟩ := (husable (by omega)).mp hnextUnusable
      have hstart : inode.nextExtent.lstart =
          inode.thisExtent.lstart + inode.thisExtent.len := by
        obtain hplace | ⟨hstart, -⟩ := h.place
        · omega
        · exact hstart
      rw [if_neg hnextUnusable]
      refine ⟨h.setNext hstart ?_, rfl⟩
      dsimp only
      omega
  · obtain ⟨-, hpos⟩ := (husable (by omega)).mp hthisUnusable
    rw [if_neg hthisUnusable, if_neg hthisUnusable, Nat.sub_self]
    exact ⟨h.setThis rfl, rfl⟩

/-- A file that is read from its start on, as long as it has not been found to end too early. -/
structure ReadFrom (fs : FatFs) (start : Nat) (size : UInt32) (file : FatFile) : Prop where
  follows : ∃ f, Follows fs start size f file.inode
  offset_le : file.offset ≤ size.toNat
  place : file.offset = file.inode.thisExtent.lstart * fs.sectorSize ∨ file.offset = size.toNat

theorem ReadFrom.size_eq {file : FatFile} (h : ReadFrom fs start size file) : file.size = size := by
  obtain ⟨f, hfollows⟩ := h.follows
  exact hfollows.size_eq

/-- A read goes on from there, or it finds that the file ends too early, and then it has read the
file up to there. -/
theorem ReadFrom.read {fuel n : Nat} {file : FatFile} {got : Got FatNode}
    (h : ReadFrom fs start size file) (hread : fatGetfssec fs hshift fuel file n = some got) :
    ReadFrom fs start size (gotFile got) ∨
      ∃ l, CutAt fs start size l got.inode ∧ got.offset = l * 2 ^ fs.sbi.clustByteShift := by
  obtain ⟨f, hfollows⟩ := h.follows
  have hle := h.offset_le
  have hs := size.toNat_lt
  have hss : (fatInfo fs hshift).sectorSize = fs.sectorSize := rfl
  have hpos := fs.sectorSize_pos
  have hinode : Follows fs start size f { file.inode with size := file.size } :=
    ⟨hfollows.size_eq, hfollows.frontier, hfollows.lt, hfollows.this_le, hfollows.next_le,
      hfollows.place⟩
  have hleft : u32 (file.size.toNat + 2 ^ 32 - file.offset) = size.toNat - file.offset := by
    rw [h.size_eq, u32]
    omega
  rw [fatGetfssec, genericGetfssec] at hread
  dsimp only at hread
  rw [hleft, hss] at hread
  have hround : u32 (size.toNat - file.offset + fs.sectorSize - 1) ≤
      size.toNat - file.offset + fs.sectorSize - 1 := Nat.mod_le _ _
  have hroundLt : u32 (size.toNat - file.offset + fs.sectorSize - 1) < 2 ^ 32 :=
    Nat.mod_lt _ (Nat.two_pow_pos 32)
  have hmul := Nat.div_mul_le_self (u32 (size.toNat - file.offset + fs.sectorSize - 1))
    fs.sectorSize
  have hcount : min n (u32 (size.toNat - file.offset + fs.sectorSize - 1) / fs.sectorSize) *
      fs.sectorSize ≤ u32 (size.toNat - file.offset + fs.sectorSize - 1) :=
    (Nat.mul_le_mul_right _ (Nat.min_le_right _ _)).trans hmul
  generalize min n (u32 (size.toNat - file.offset + fs.sectorSize - 1) / fs.sectorSize) = count
    at hcount hread
  by_cases h0 : count = 0
  · rw [if_pos h0] at hread
    obtain rfl := Option.some.inj hread
    exact Or.inl ⟨⟨f, hinode⟩, hle, h.place⟩
  rw [if_neg h0] at hread
  have hcountPos : fs.sectorSize ≤ count * fs.sectorSize :=
    Nat.le_mul_of_pos_left _ (Nat.pos_of_ne_zero h0)
  have hinside : file.offset < size.toNat := by omega
  have hoffset : file.offset = file.inode.thisExtent.lstart * fs.sectorSize :=
    h.place.resolve_right (by omega)
  have hfirst : file.offset / fs.sectorSize = file.inode.thisExtent.lstart := by
    rw [hoffset]
    exact Nat.mul_div_cancel _ hpos
  obtain ⟨hseek, hlstart⟩ := hinode.seekExtent
  have hfour : 2 ^ 2 ≤ 2 ^ fs.sectorShift := Nat.pow_le_pow_right Nat.two_pos fs.shift_ge
  have hsum : (file.inode.thisExtent.lstart + count) * 4 ≤
      (file.inode.thisExtent.lstart + count) * fs.sectorSize := Nat.mul_le_mul_left _ hfour
  rw [Nat.add_mul _ _ fs.sectorSize, ← hoffset] at hsum
  dsimp only at hlstart hseek
  rw [hfirst] at hread
  cases hloop : readLoop (fatInfo fs hshift) fuel
      (seekExtent { file.inode with size := file.size } file.inode.thisExtent.lstart) count 0
      [] with
  | none =>
    rw [hloop] at hread
    cases hread
  | some result =>
    obtain ⟨inode', bytesRead, buf⟩ := result
    obtain ⟨k, hk, -, hbytes, hend⟩ := Tracks.readLoop fuel (Or.inl ⟨f, hseek⟩)
      (show 0 + count * fs.sectorSize < 2 ^ 32 by omega) (by rw [hlstart]; omega) hloop
    rw [hloop] at hread
    dsimp only at hread
    rw [hbytes, Nat.zero_add] at hread
    obtain rfl := Option.some.inj hread
    rw [hlstart] at hk
    have hgot : u32 (file.offset + min (k * fs.sectorSize) (size.toNat - file.offset)) =
        file.offset + min (k * fs.sectorSize) (size.toNat - file.offset) := u32_of_lt (by omega)
    have hplace : file.offset + k * fs.sectorSize =
        inode'.thisExtent.lstart * fs.sectorSize := by
      rw [hk, Nat.add_mul, ← hoffset]
    obtain hfollows' | ⟨l, hcut, hlen⟩ := hend
    · refine Or.inl ⟨hfollows', ?_, ?_⟩
      · simp only [gotFile, hgot]
        omega
      · simp only [gotFile, hgot]
        omega
    · have hbyteShift : l * 2 ^ fs.sbi.clustShift * fs.sectorSize =
          l * 2 ^ fs.sbi.clustByteShift := by
        rw [fs.valid.byteShift_eq, Nat.pow_add, Nat.mul_assoc]
        rfl
      have hthis := hcut.this_end
      rw [hlen, Nat.add_zero] at hthis
      rw [hthis, hbyteShift] at hplace
      have hcutLt := hcut.lt
      refine Or.inr ⟨l, hcut, ?_⟩
      simp only [hgot]
      omega

end Liigboot.Fs.Fat
