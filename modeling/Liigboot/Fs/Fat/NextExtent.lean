import Liigboot.Lib.Chain
import Liigboot.Fs.GetFsSec
import Liigboot.Fs.Fat.Volume

/-!
# Extents of FAT files

`fat_next_extent` walks the cluster chain of a file from where the last call
stopped, and from the start when the new position lies before that. What it keeps
is a cluster number and its position in the chain; as long as that pair is right
for every position the next call may ask for, the answer is the maximal run of
consecutive clusters that the plain walk finds.
-/

namespace Liigboot.Fs.Fat

/-- `struct fat_pvt_inode`. -/
structure FatPvt where
  /-- Starting cluster address. -/
  startCluster : Nat
  /-- Starting sector. -/
  start : Nat
  /-- Current sector offset. -/
  offset : Nat
  /-- Sector corresponding to `offset`. -/
  here : Nat
  deriving DecidableEq, Repr

/-- `pcluster-2 >= sbi->clusters`, in `uint32_t`. -/
def offVolume (fs : FatFs) (pcluster : Nat) : Bool :=
  u32 (pcluster + 2 ^ 32 - 2) ≥ fs.sbi.clusters

/-- `for (;;)`: walk `steps` clusters on. A cluster outside the volume ends the walk with the
position reached. -/
def walkTo (fs : FatFs) : Nat → Nat → Nat → Except Nat Nat
  | 0, lcluster, pcluster => if offVolume fs pcluster then .error lcluster else .ok pcluster
  | steps + 1, lcluster, pcluster =>
    if offVolume fs pcluster then .error lcluster
    else walkTo fs steps (lcluster + 1) (getNextCluster fs pcluster)

/-- Where the run stops: the position, the last cluster read, and the length of the extent. -/
structure RunEnd where
  lcluster : Nat
  xcluster : Nat
  len : Nat

/-- `while (++lcluster < tcluster)`, with `left` the number of rounds before that fails. -/
def extendRun (fs : FatFs) : Nat → Nat → Nat → Nat → Nat → RunEnd
  | 0, lcluster, _, xcluster, len => ⟨lcluster + 1, xcluster, len⟩
  | left + 1, lcluster, pcluster, _, len =>
    let xcluster := getNextCluster fs pcluster
    if xcluster ≠ pcluster + 1 then ⟨lcluster + 1, xcluster, len⟩
    else extendRun fs left (lcluster + 1) (pcluster + 1) xcluster
      (u32 (len + 2 ^ fs.sbi.clustShift))

/-- The sector of a cluster, with the offset computed in `uint32_t`. -/
def hereOf (fs : FatFs) (xcluster : Nat) : Nat :=
  u32 (u32 (xcluster + 2 ^ 32 - 2) * 2 ^ fs.sbi.clustShift) + fs.sbi.data

/-- `fat_next_extent`: whether it fails, and the inode it leaves. -/
def fatNextExtent (fs : FatFs) (inode : Inode FatPvt) (lstart : Nat) : Bool × Inode FatPvt :=
  let clustShift := fs.sbi.clustShift
  let mcluster := lstart / 2 ^ clustShift
  let clusterBytes := 2 ^ fs.sbi.clustByteShift
  let tcluster := u32 (inode.size.toNat + clusterBytes - 1) / clusterBytes
  if mcluster ≥ tcluster then (true, inode)
  else
    let lcluster := u32 (inode.pvt.offset / 2 ^ clustShift)
    let pcluster := u32 (u64 (inode.pvt.here + 2 ^ 64 - fs.sbi.data) / 2 ^ clustShift + 2)
    let (lcluster, pcluster) :=
      if lcluster > mcluster ∨ inode.pvt.here < fs.sbi.data then (0, inode.pvt.startCluster)
      else (lcluster, pcluster)
    match walkTo fs (mcluster - lcluster) lcluster pcluster with
    | .error lcluster => (true, { inode with size := UInt32.ofNat (lcluster * 2 ^ clustShift) })
    | .ok pcluster =>
      let run := extendRun fs (tcluster - 1 - mcluster) mcluster pcluster 0 (2 ^ clustShift)
      (false, { inode with
        nextExtent := { inode.nextExtent with
          pstart := (pcluster - 2) * 2 ^ clustShift + fs.sbi.data
          len := run.len }
        pvt := { inode.pvt with
          offset := u32 (run.lcluster * 2 ^ clustShift)
          here := hereOf fs run.xcluster } })

/-- The private data of a file that starts at a cluster, as `vfat_find_entry` sets it. -/
def FatPvt.fresh (fs : FatFs) (startCluster : Nat) : FatPvt where
  startCluster := startCluster
  start := (startCluster - 2) * 2 ^ fs.sbi.clustShift + fs.sbi.data
  offset := 0
  here := (startCluster - 2) * 2 ^ fs.sbi.clustShift + fs.sbi.data

/-- A sequence of calls on one inode: the physical start and the length that each stores. -/
def nextExtents (fs : FatFs) : List Nat → Inode FatPvt → Option (List (Nat × Nat))
  | [], _ => some []
  | lstart :: lstarts, inode =>
    match fatNextExtent fs inode lstart with
    | (true, _) => none
    | (false, inode) =>
      (nextExtents fs lstarts inode).map
        ((inode.nextExtent.pstart, inode.nextExtent.len) :: ·)

/-! ## Files -/

/-- The cluster chain of a file, as the table has it. -/
def clusterChain (fs : FatFs) (startCluster : Nat) : Nat → Nat := chain (fatEntry fs) startCluster

/-- The number of clusters that a file of this size takes. -/
def clustersOf (fs : FatFs) (size : UInt32) : Nat :=
  (size.toNat + 2 ^ fs.sbi.clustByteShift - 1) / 2 ^ fs.sbi.clustByteShift

/-- The chain is long enough for the size: all its clusters up to the file's end lie on the
volume. -/
def LongEnough (fs : FatFs) (startCluster : Nat) (size : UInt32) : Prop :=
  ∀ k < clustersOf fs size, 2 ≤ clusterChain fs startCluster k ∧
    clusterChain fs startCluster k < fs.sbi.clusters + 2

/-- The answer of a plain walk to the cluster at position `m`: the disk sectors of the maximal
run of consecutive clusters from there. -/
def WalkAnswer (fs : FatFs) (startCluster : Nat) (size : UInt32) (m : Nat) (answer : Nat × Nat) :
    Prop :=
  ∃ r, MaximalRun (clusterChain fs startCluster) (clustersOf fs size) m r ∧
    answer = ((clusterChain fs startCluster m - 2) * 2 ^ fs.sbi.clustShift + fs.sbi.data,
      r * 2 ^ fs.sbi.clustShift)

variable {fs : FatFs} {startCluster : Nat} {size : UInt32}

/-- A cluster of a file, and the one behind it. -/
theorem LongEnough.next (h : LongEnough fs startCluster size) {k : Nat}
    (hk : k < clustersOf fs size) :
    offVolume fs (clusterChain fs startCluster k) = false ∧
      getNextCluster fs (clusterChain fs startCluster k) = clusterChain fs startCluster (k + 1) := by
  obtain ⟨hlo, hhi⟩ := h k hk
  have hmax := fs.valid.clusters_le
  have hsub : u32 (clusterChain fs startCluster k + 2 ^ 32 - 2) =
      clusterChain fs startCluster k - 2 := by
    rw [u32]
    omega
  refine ⟨?_, getNextCluster_eq fs (by omega)⟩
  rw [offVolume, hsub, decide_eq_false_iff_not]
  omega

/-- The walk reaches any position of the file. -/
theorem LongEnough.walkTo (h : LongEnough fs startCluster size) (steps : Nat) {l : Nat}
    (hl : l + steps < clustersOf fs size) :
    walkTo fs steps l (clusterChain fs startCluster l) =
      .ok (clusterChain fs startCluster (l + steps)) := by
  induction steps generalizing l with
  | zero =>
    have hon : offVolume fs (clusterChain fs startCluster l) = false := (h.next hl).1
    rw [Fat.walkTo, hon]
    rfl
  | succ steps ih =>
    obtain ⟨hon, hnext⟩ := h.next (show l < clustersOf fs size by omega)
    rw [Fat.walkTo, hon, hnext, ih (by omega), Nat.add_assoc, Nat.add_comm 1]
    rfl

/-- Extending stops at the end of the maximal run; unless that is the end of the file, the last
cluster read is the one behind the run. -/
theorem LongEnough.extendRun (h : LongEnough fs startCluster size) {m : Nat} (left : Nat)
    {r : Nat} (x : Nat) (hr : 0 < r) (hend : m + r + left = clustersOf fs size)
    (hrun : ∀ j < r, clusterChain fs startCluster (m + j) = clusterChain fs startCluster m + j) :
    ∃ r' x', extendRun fs left (m + r - 1) (clusterChain fs startCluster m + (r - 1)) x
        (r * 2 ^ fs.sbi.clustShift) = ⟨m + r', x', r' * 2 ^ fs.sbi.clustShift⟩ ∧
      MaximalRun (clusterChain fs startCluster) (clustersOf fs size) m r' ∧
      (m + r' < clustersOf fs size → x' = clusterChain fs startCluster (m + r')) := by
  induction left generalizing r x with
  | zero =>
    refine ⟨r, x, ?_, ⟨hr, by omega, hrun, Or.inl hend⟩, fun hlt => absurd hend (by omega)⟩
    rw [Fat.extendRun, Nat.sub_add_cancel (by omega)]
  | succ left ih =>
    have hlast := hrun (r - 1) (by omega)
    have hpos : m + (r - 1) + 1 = m + r := by omega
    have hl : m + r - 1 + 1 = m + r := by omega
    obtain ⟨-, hnext⟩ := h.next (show m + (r - 1) < clustersOf fs size by omega)
    rw [hlast, hpos] at hnext
    rw [Fat.extendRun, hnext, hl]
    by_cases hadj : clusterChain fs startCluster (m + r) = clusterChain fs startCluster m + (r - 1) + 1
    · -- the next cluster is the successor: the run grows by one
      have hrun' : ∀ j < r + 1,
          clusterChain fs startCluster (m + j) = clusterChain fs startCluster m + j := by
        intro j hj
        rcases Nat.lt_or_eq_of_le (Nat.le_of_lt_succ hj) with hlt | rfl
        · exact hrun j hlt
        · rw [hadj]
          omega
      have hlen : u32 (r * 2 ^ fs.sbi.clustShift + 2 ^ fs.sbi.clustShift) =
          (r + 1) * 2 ^ fs.sbi.clustShift := by
        have hfirst := (h m (by omega)).1
        have hthis := (h (m + r) (by omega)).2
        have hle : r + 1 ≤ fs.sbi.clusters := by omega
        rw [← Nat.succ_mul]
        exact u32_of_lt ((Nat.mul_le_mul_right _ hle).trans_lt fs.valid.clusters_fit)
      have hp : clusterChain fs startCluster m + (r - 1) + 1 =
          clusterChain fs startCluster m + (r + 1 - 1) := by omega
      simp only [hadj, ne_eq, not_true_eq_false, if_false, hlen, hp]
      exact ih _ (Nat.succ_pos r) (by omega) hrun'
    · refine ⟨r, clusterChain fs startCluster (m + r), ?_,
        ⟨hr, by omega, hrun, Or.inr fun he => hadj (by omega)⟩, fun _ => rfl⟩
      simp only [ne_eq, hadj, not_false_eq_true, if_true]

/-! ## The resume position -/

/-- The cluster that a call takes up from the private data. -/
def resumeCluster (fs : FatFs) (pvt : FatPvt) : Nat :=
  u32 (u64 (pvt.here + 2 ^ 64 - fs.sbi.data) / 2 ^ fs.sbi.clustShift + 2)

/-- The position of that cluster. -/
def resumePosition (fs : FatFs) (pvt : FatPvt) : Nat :=
  u32 (pvt.offset / 2 ^ fs.sbi.clustShift)

/-- Whenever a call can resume, it resumes at the right cluster of the chain. -/
structure Resumes (fs : FatFs) (startCluster : Nat) (size : UInt32) (inode : Inode FatPvt) :
    Prop where
  size_eq : inode.size = size
  start_eq : inode.pvt.startCluster = startCluster
  resume : resumePosition fs inode.pvt < clustersOf fs size →
    resumeCluster fs inode.pvt = clusterChain fs startCluster (resumePosition fs inode.pvt)

/-- The sector of a cluster of the volume leads back to the cluster. -/
theorem resumeCluster_of_here {pvt : FatPvt} {c : Nat} (hlo : 2 ≤ c) (hhi : c < fs.sbi.clusters + 2)
    (hhere : pvt.here = (c - 2) * 2 ^ fs.sbi.clustShift + fs.sbi.data) :
    resumeCluster fs pvt = c := by
  have hfit : (c - 2) * 2 ^ fs.sbi.clustShift ≤ fs.sbi.clusters * 2 ^ fs.sbi.clustShift :=
    Nat.mul_le_mul_right _ (by omega)
  have hmax := fs.valid.clusters_fit
  have hle := fs.valid.clusters_le
  have hsub : u64 ((c - 2) * 2 ^ fs.sbi.clustShift + fs.sbi.data + 2 ^ 64 - fs.sbi.data) =
      (c - 2) * 2 ^ fs.sbi.clustShift := by
    rw [u64]
    omega
  rw [resumeCluster, hhere, hsub, Nat.mul_div_cancel _ (Nat.two_pow_pos _), Nat.sub_add_cancel hlo]
  exact u32_of_lt (by omega)

theorem hereOf_eq {c : Nat} (hlo : 2 ≤ c) (hhi : c < fs.sbi.clusters + 2) :
    hereOf fs c = (c - 2) * 2 ^ fs.sbi.clustShift + fs.sbi.data := by
  have hle := fs.valid.clusters_le
  have hfit : (c - 2) * 2 ^ fs.sbi.clustShift ≤ fs.sbi.clusters * 2 ^ fs.sbi.clustShift :=
    Nat.mul_le_mul_right _ (by omega)
  have hsub : u32 (c + 2 ^ 32 - 2) = c - 2 := by
    rw [u32]
    omega
  rw [hereOf, hsub, u32_of_lt (hfit.trans_lt fs.valid.clusters_fit)]

theorem Resumes.fresh (h : LongEnough fs startCluster size) :
    Resumes fs startCluster size (Inode.fresh size (FatPvt.fresh fs startCluster)) := by
  refine ⟨rfl, rfl, fun hlt => ?_⟩
  have hzero : resumePosition fs (FatPvt.fresh fs startCluster) = 0 := by
    rw [resumePosition, FatPvt.fresh, Nat.zero_div]
    rfl
  have hlt' : 0 < clustersOf fs size := (Nat.zero_le _).trans_lt hlt
  obtain ⟨hlo, hhi⟩ := h 0 hlt'
  simp only [Inode.fresh, hzero]
  exact resumeCluster_of_here hlo hhi rfl

/-- The clusters of a file that leaves room for one more cluster have 32-bit sector numbers. -/
theorem clustersOf_mul_lt (hsize : size.toNat + 2 ^ fs.sbi.clustByteShift ≤ 2 ^ 32) :
    clustersOf fs size * 2 ^ fs.sbi.clustShift < 2 ^ 32 := by
  have hpos : 0 < 2 ^ fs.sbi.clustByteShift := Nat.two_pow_pos _
  have hle : 2 ^ fs.sbi.clustShift ≤ 2 ^ fs.sbi.clustByteShift :=
    Nat.pow_le_pow_right (by decide) (by rw [fs.valid.byteShift_eq]; omega)
  have hdiv : clustersOf fs size * 2 ^ fs.sbi.clustByteShift ≤
      size.toNat + 2 ^ fs.sbi.clustByteShift - 1 := Nat.div_mul_le_self _ _
  have := Nat.mul_le_mul_left (clustersOf fs size) hle
  omega

/-- One call at a cluster of the file gives the answer of the plain walk, and the next call
resumes rightly. -/
theorem Resumes.step {inode : Inode FatPvt} (hchain : LongEnough fs startCluster size)
    (hsize : size.toNat + 2 ^ fs.sbi.clustByteShift ≤ 2 ^ 32)
    (h : Resumes fs startCluster size inode) {m : Nat} (hm : m < clustersOf fs size) :
    ∃ inode', fatNextExtent fs inode (m * 2 ^ fs.sbi.clustShift) = (false, inode') ∧
      Resumes fs startCluster size inode' ∧
      WalkAnswer fs startCluster size m (inode'.nextExtent.pstart, inode'.nextExtent.len) := by
  have hpos : 0 < 2 ^ fs.sbi.clustShift := Nat.two_pow_pos _
  have hbpos : 0 < 2 ^ fs.sbi.clustByteShift := Nat.two_pow_pos _
  have hmul := clustersOf_mul_lt hsize
  have hmc : m * 2 ^ fs.sbi.clustShift / 2 ^ fs.sbi.clustShift = m := Nat.mul_div_cancel m hpos
  have htc : u32 (inode.size.toNat + 2 ^ fs.sbi.clustByteShift - 1) / 2 ^ fs.sbi.clustByteShift =
      clustersOf fs size := by
    rw [h.size_eq, u32_of_lt (by omega), clustersOf]
  -- where the walk starts
  obtain ⟨l, p, hsel, hl, hp⟩ : ∃ l p,
      (if resumePosition fs inode.pvt > m ∨ inode.pvt.here < fs.sbi.data then
        (0, inode.pvt.startCluster)
        else (resumePosition fs inode.pvt, resumeCluster fs inode.pvt)) = (l, p) ∧ l ≤ m ∧
      p = clusterChain fs startCluster l := by
    by_cases hc : resumePosition fs inode.pvt > m ∨ inode.pvt.here < fs.sbi.data
    · exact ⟨0, startCluster, by rw [if_pos hc, h.start_eq], Nat.zero_le m, rfl⟩
    · rw [not_or, Nat.not_lt] at hc
      exact ⟨_, _, if_neg (by omega), hc.1, h.resume (hc.1.trans_lt hm)⟩
  have hwalk : walkTo fs (m - l) l p = .ok (clusterChain fs startCluster m) := by
    rw [hp, hchain.walkTo (m - l) (by omega), Nat.add_sub_cancel' hl]
  obtain ⟨r, x, hext, hrun, hx⟩ := hchain.extendRun (clustersOf fs size - 1 - m) 0 Nat.one_pos
    (show m + 1 + (clustersOf fs size - 1 - m) = clustersOf fs size by omega)
    (fun j hj => by rw [Nat.lt_one_iff.mp hj]; rfl)
  rw [Nat.one_mul, Nat.add_sub_cancel, Nat.sub_self, Nat.add_zero] at hext
  have hoff : u32 ((m + r) * 2 ^ fs.sbi.clustShift) = (m + r) * 2 ^ fs.sbi.clustShift :=
    u32_of_lt ((Nat.mul_le_mul_right _ hrun.le_end).trans_lt hmul)
  rw [resumePosition, resumeCluster] at hsel
  simp only [fatNextExtent, hmc, htc, if_neg (Nat.not_le.mpr hm), hsel, hwalk, hext]
  refine ⟨_, rfl, ⟨h.size_eq, h.start_eq, fun hlt => ?_⟩, r, hrun, rfl⟩
  have hres : resumePosition fs { inode.pvt with
      offset := u32 ((m + r) * 2 ^ fs.sbi.clustShift), here := hereOf fs x } = m + r := by
    simp only [resumePosition, hoff]
    rw [Nat.mul_div_cancel _ hpos]
    have hone : m + r ≤ (m + r) * 2 ^ fs.sbi.clustShift := Nat.le_mul_of_pos_right _ hpos
    have := Nat.mul_le_mul_right (2 ^ fs.sbi.clustShift) hrun.le_end
    exact u32_of_lt (by omega)
  simp only [hres] at hlt ⊢
  obtain ⟨hlo, hhi⟩ := hchain (m + r) hlt
  rw [← hx hlt] at hlo hhi ⊢
  exact resumeCluster_of_here hlo hhi (hereOf_eq hlo hhi)

/-- Every sequence of calls at cluster positions of a file, in any order, gets the answers of the
plain walk from the start of its chain. -/
theorem nextExtents_walk (fs : FatFs) (startCluster : Nat) (size : UInt32)
    (hchain : LongEnough fs startCluster size)
    (hsize : size.toNat + 2 ^ fs.sbi.clustByteShift ≤ 2 ^ 32) (positions : List Nat)
    (hpos : ∀ m ∈ positions, m < clustersOf fs size) :
    ∃ answers, nextExtents fs (positions.map (· * 2 ^ fs.sbi.clustShift))
        (Inode.fresh size (FatPvt.fresh fs startCluster)) = some answers ∧
      List.Forall₂ (WalkAnswer fs startCluster size) positions answers := by
  have hrun : ∀ inode, Resumes fs startCluster size inode →
      ∃ answers, nextExtents fs (positions.map (· * 2 ^ fs.sbi.clustShift)) inode = some answers ∧
        List.Forall₂ (WalkAnswer fs startCluster size) positions answers := by
    induction positions with
    | nil => exact fun _ _ => ⟨[], rfl, List.Forall₂.nil⟩
    | cons m ms ih =>
      intro inode h
      obtain ⟨inode', hcall, h', hans⟩ := h.step hchain hsize (hpos m List.mem_cons_self)
      obtain ⟨answers, hrest, hall⟩ := ih (fun k hk => hpos k (List.mem_cons_of_mem _ hk)) inode' h'
      refine ⟨_ :: answers, ?_, List.Forall₂.cons hans hall⟩
      rw [List.map_cons, nextExtents, hcall]
      simp only [hrest, Option.map_some]
  exact hrun _ (Resumes.fresh hchain)

/-- A FAT16 volume of four clusters of one sector. -/
def smallFat : FatFs where
  sectorShift := 9
  sbi := ⟨1, 2, 3, 4, 1, 0, 9, .fat16⟩
  disk p :=
    if p = 1 then
      [0xf8, 0xff, 0xff, 0xff, 3, 0, 5, 0, 0, 0, 0xff, 0xff] ++ List.replicate 500 0
    else List.replicate 512 0
  shift_ge := usualShift_ge
  valid := ⟨by decide, by decide, rfl, by decide⟩
  disk_length p := by
    split
    · rw [List.length_append, List.length_replicate]
      decide
    · exact List.length_replicate.trans (by decide)

/-- The calls on a file in clusters 2, 3 and 5, backwards and forwards. -/
theorem nextExtents_walk_small :
    ∃ answers, nextExtents smallFat ([2, 0, 1].map (· * 2 ^ smallFat.sbi.clustShift))
        (Inode.fresh 1500 (FatPvt.fresh smallFat 2)) = some answers ∧
      List.Forall₂ (WalkAnswer smallFat 2 1500) [2, 0, 1] answers :=
  nextExtents_walk smallFat 2 1500 (by unfold LongEnough; decide +kernel) (by decide) [2, 0, 1]
    (by decide)

end Liigboot.Fs.Fat
