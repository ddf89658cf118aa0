import Liigboot.Lib.Chain
import Liigboot.Fs.Fat.Directory

/-!
# The sectors of a FAT directory

`get_next_sector` goes from one sector of a directory to the next, inside a cluster, along the chain
of clusters, or in the region of the root directory. At the end it returns 0, which is a sector
number too.
-/

namespace Liigboot.Fs.Fat

/-- `clust_mask`, where the number of sectors of a cluster is a power of two. -/
def FatSbInfo.clustMask (sbi : FatSbInfo) : Nat := 2 ^ sbi.clustShift - 1

/-- `get_next_sector`. The sector that is passed has 32 bits. -/
def getNextSector (fs : FatFs) (sector : Nat) : Nat :=
  let sector := u32 sector
  let dataArea := fs.sbi.data
  if sector < dataArea then
    -- root directory sector
    let sector := u32 (sector + 1)
    if sector ≥ dataArea then 0 else sector
  else
    let dataSector := sector - dataArea
    if (dataSector + 1) &&& fs.sbi.clustMask ≠ 0 then u32 (sector + 1)
    else
      let cluster := u32 (dataSector / 2 ^ fs.sbi.clustShift)
      let cluster := u32 (getNextCluster fs (u32 (cluster + 2)) + 2 ^ 32 - 2)
      if cluster ≥ fs.sbi.clusters then 0
      else u32 (u32 (cluster * 2 ^ fs.sbi.clustShift) + dataArea)

/-- The slot at a position of a sector. -/
def slotAt (data : List UInt8) (pos : Nat) : Slot := fun k => data.getD (pos + k) 0

/-- Some slots of a sector, from a position on. -/
def slotsFrom (data : List UInt8) (pos n : Nat) : List Slot :=
  (List.range n).map fun i => slotAt data (pos + 32 * i)

/-- `1 << (fs->sector_shift - 5)`, the slots of a sector. -/
def FatFs.entriesPerSector (fs : FatFs) : Nat := 2 ^ (fs.sectorShift - 5)

/-! ## The sectors that belong to a directory -/

/-- Where a directory lies: in the region of the root directory, or in a chain of clusters. -/
inductive DirPlace where
  | rootRegion
  | clusters (first : Nat)
  deriving DecidableEq, Repr

/-- A cluster of the volume. -/
def OnVolume (fs : FatFs) (cluster : Nat) : Prop := 2 ≤ cluster ∧ cluster < fs.sbi.clusters + 2

instance (fs : FatFs) (cluster : Nat) : Decidable (OnVolume fs cluster) :=
  inferInstanceAs (Decidable (_ ∧ _))

/-- The `k`-th sector of a directory, if it is that long. A chain ends in front of the first number
that is no cluster of the volume. -/
def dirSector (fs : FatFs) : DirPlace → Nat → Option Nat
  | .rootRegion, k => if fs.sbi.root + k < fs.sbi.data then some (fs.sbi.root + k) else none
  | .clusters first, k =>
    if ∀ i ≤ k / 2 ^ fs.sbi.clustShift, OnVolume fs (chain (fatEntry fs) first i) then
      some ((chain (fatEntry fs) first (k / 2 ^ fs.sbi.clustShift) - 2) *
        2 ^ fs.sbi.clustShift + fs.sbi.data + k % 2 ^ fs.sbi.clustShift)
    else none

/-- The layout of a mounted volume: the root directory does not start at sector 0, and the sectors
have 32-bit numbers. -/
structure FatSbInfo.Mounted (sbi : FatSbInfo) : Prop where
  root_pos : 0 < sbi.root
  data_pos : 0 < sbi.data
  fits : sbi.data + sbi.clusters * 2 ^ sbi.clustShift < 2 ^ 32

/-- A volume whose data area starts on it. -/
theorem mounted_of_vfatFsInit {sectorShift : Nat} {bpb : FatBpb} {sbi : FatSbInfo}
    (h : vfatFsInit sectorShift bpb = some sbi) (hdata : sbi.data ≤ bpb.totalSectors) :
    sbi.Mounted := by
  have htotal : bpb.totalSectors < 2 ^ 32 := by
    rw [FatBpb.totalSectors]
    split_ifs
    · exact bpb.bxSectors.toNat_lt.trans (by decide)
    · exact bpb.bsHugeSectors.toNat_lt
  rw [vfatFsInit] at h
  by_cases hbad : bpb.bxResSectors = 0 ∨ bpb.bxFATs = 0
  · rw [if_pos hbad] at h
    cases h
  rw [if_neg hbad] at h
  have hres : 0 < bpb.bxResSectors.toNat := by
    refine Nat.pos_of_ne_zero fun hzero => hbad (Or.inl (UInt16.toNat_inj.mp ?_))
    exact hzero
  -- the root directory and the data area lie behind the reserved sectors
  obtain ⟨hroot, hstart, hclusters⟩ : bpb.bxResSectors.toNat ≤ sbi.root ∧
      bpb.bxResSectors.toNat ≤ sbi.data ∧
      sbi.clusters ≤ u32 (u64 (bpb.totalSectors + 2 ^ 64 - sbi.data) / 2 ^ sbi.clustShift) := by
    dsimp only at h
    split_ifs at h <;>
      (obtain rfl := Option.some.inj h
       refine ⟨?_, ?_, ?_⟩ <;> dsimp only <;> omega)
  have hsub : u64 (bpb.totalSectors + 2 ^ 64 - sbi.data) = bpb.totalSectors - sbi.data := by
    rw [u64]
    omega
  rw [hsub] at hclusters
  have hmul := Nat.mul_le_mul_right (2 ^ sbi.clustShift) (hclusters.trans (Nat.mod_le _ _))
  have hfit := hmul.trans (Nat.div_mul_le_self _ _)
  exact ⟨by omega, by omega, by omega⟩

variable {fs : FatFs} {place : DirPlace} {k s : Nat}

/-! ## From one sector to the next -/

theorem and_clustMask {n : Nat} : n &&& fs.sbi.clustMask = n % 2 ^ fs.sbi.clustShift :=
  Nat.and_two_pow_sub_one_eq_mod n _

/-- The sectors of the root directory. -/
theorem getNextSector_root (h : fs.sbi.Mounted) (hs : s < fs.sbi.data) :
    getNextSector fs s = if s + 1 < fs.sbi.data then s + 1 else 0 := by
  have hfits := h.fits
  have hword : u32 s = s := u32_of_lt (by omega)
  have hnext : u32 (s + 1) = s + 1 := u32_of_lt (by omega)
  rw [getNextSector, hword, if_pos hs, hnext]
  by_cases hend : s + 1 < fs.sbi.data
  · rw [if_pos hend, if_neg (Nat.not_le.mpr hend)]
  · rw [if_neg hend, if_pos (Nat.le_of_not_lt hend)]

theorem fatEntry_lt (fs : FatFs) (c : Nat) : fatEntry fs c < 2 ^ 32 := by
  have hnum : ∀ i n, fatNum fs i n < 256 ^ n := by
    intro i n
    have hlt := leNat_lt ((List.range n).map fun j => fatByte fs (i + j))
    rw [List.length_map, List.length_range] at hlt
    exact hlt
  rw [fatEntry]
  cases fs.sbi.fatType with
  | fat12 =>
    have hlt := hnum (c + c / 2) 2
    dsimp only
    split_ifs
    · omega
    · omega
  | fat16 => exact (hnum (2 * c) 2).trans (by decide)
  | fat32 => exact (Nat.mod_lt _ (by decide)).trans (by decide)

/-- The sectors of a cluster. -/
theorem getNextSector_cluster (h : fs.sbi.Mounted) {c j : Nat} (hc : OnVolume fs c)
    (hj : j < 2 ^ fs.sbi.clustShift) :
    getNextSector fs ((c - 2) * 2 ^ fs.sbi.clustShift + fs.sbi.data + j) =
      if j + 1 < 2 ^ fs.sbi.clustShift then
        (c - 2) * 2 ^ fs.sbi.clustShift + fs.sbi.data + (j + 1)
      else if OnVolume fs (fatEntry fs c) then
        (fatEntry fs c - 2) * 2 ^ fs.sbi.clustShift + fs.sbi.data
      else 0 := by
  obtain ⟨hlo, hhi⟩ := hc
  have hpos : 0 < 2 ^ fs.sbi.clustShift := Nat.two_pow_pos _
  have hfits := h.fits
  have hmax := fs.valid.clusters_le
  have hin : ∀ {x : Nat}, x < fs.sbi.clusters →
      x * 2 ^ fs.sbi.clustShift + 2 ^ fs.sbi.clustShift ≤
        fs.sbi.clusters * 2 ^ fs.sbi.clustShift := by
    intro x hx
    rw [← Nat.succ_mul]
    exact Nat.mul_le_mul_right _ hx
  have hcin := hin (show c - 2 < fs.sbi.clusters by omega)
  have hword : u32 ((c - 2) * 2 ^ fs.sbi.clustShift + fs.sbi.data + j) =
      (c - 2) * 2 ^ fs.sbi.clustShift + fs.sbi.data + j := u32_of_lt (by omega)
  have hsub : (c - 2) * 2 ^ fs.sbi.clustShift + fs.sbi.data + j - fs.sbi.data =
      (c - 2) * 2 ^ fs.sbi.clustShift + j := by omega
  have hdata : ¬(c - 2) * 2 ^ fs.sbi.clustShift + fs.sbi.data + j < fs.sbi.data := by omega
  have hmask : (c - 2) * 2 ^ fs.sbi.clustShift + j + 1 &&& fs.sbi.clustMask =
      (j + 1) % 2 ^ fs.sbi.clustShift := by
    rw [and_clustMask, Nat.add_assoc, Nat.mul_comm, Nat.mul_add_mod]
  rw [getNextSector, hword]
  dsimp only
  rw [if_neg hdata, hsub, hmask]
  by_cases hinside : j + 1 < 2 ^ fs.sbi.clustShift
  · rw [if_pos hinside, Nat.mod_eq_of_lt hinside, if_pos (Nat.succ_ne_zero j), Nat.add_assoc]
    exact u32_of_lt (by omega)
  · -- the last sector of the cluster
    have hlast : j + 1 = 2 ^ fs.sbi.clustShift := by omega
    have hcluster : ((c - 2) * 2 ^ fs.sbi.clustShift + j) / 2 ^ fs.sbi.clustShift = c - 2 := by
      rw [Nat.mul_comm, Nat.mul_add_div hpos, Nat.div_eq_of_lt hj, Nat.add_zero]
    have hback : u32 (c - 2 + 2) = c := by
      rw [Nat.sub_add_cancel hlo]
      exact u32_of_lt (by omega)
    rw [if_neg hinside, hlast, Nat.mod_self, if_neg (not_not.mpr rfl), hcluster,
      u32_of_lt (show c - 2 < 2 ^ 32 by omega), hback, getNextCluster_eq fs (by omega)]
    have hentry : fatEntry fs c < 2 ^ 32 := fatEntry_lt fs c
    by_cases hnext : OnVolume fs (fatEntry fs c)
    · have hsub' : u32 (fatEntry fs c + 2 ^ 32 - 2) = fatEntry fs c - 2 := by
        obtain ⟨hlo', hhi'⟩ := hnext
        rw [u32]
        omega
      have hinside' : fatEntry fs c - 2 < fs.sbi.clusters := by
        obtain ⟨hlo', hhi'⟩ := hnext
        omega
      have hnin := hin hinside'
      have hword' : u32 ((fatEntry fs c - 2) * 2 ^ fs.sbi.clustShift) =
          (fatEntry fs c - 2) * 2 ^ fs.sbi.clustShift := u32_of_lt (by omega)
      rw [if_pos hnext, hsub', if_neg (Nat.not_le.mpr hinside'), hword']
      exact u32_of_lt (by omega)
    · have hoff : u32 (fatEntry fs c + 2 ^ 32 - 2) ≥ fs.sbi.clusters := by
        rw [OnVolume] at hnext
        rw [u32]
        omega
      rw [if_neg hnext, if_pos hoff]

/-- The sector behind one of a directory is its next one, and 0 at its end. -/
theorem dirSector_next (h : fs.sbi.Mounted) (hs : dirSector fs place k = some s) :
    getNextSector fs s = (dirSector fs place (k + 1)).getD 0 := by
  cases place with
  | rootRegion =>
    rw [dirSector] at hs ⊢
    split_ifs at hs with hin
    obtain rfl := Option.some.inj hs
    rw [getNextSector_root h hin, ← Nat.add_assoc]
    split_ifs
    · rfl
    · rfl
  | clusters first =>
    have hpos : 0 < 2 ^ fs.sbi.clustShift := Nat.two_pow_pos _
    have hmod := Nat.mod_lt k hpos
    rw [dirSector] at hs ⊢
    split_ifs at hs with hon
    obtain rfl := Option.some.inj hs
    rw [getNextSector_cluster h (hon _ (Nat.le_refl _)) hmod]
    by_cases hinside : k % 2 ^ fs.sbi.clustShift + 1 < 2 ^ fs.sbi.clustShift
    · have hdiv : (k + 1) / 2 ^ fs.sbi.clustShift = k / 2 ^ fs.sbi.clustShift := by
        rw [Nat.div_eq_iff hpos]
        have hk := Nat.div_add_mod k (2 ^ fs.sbi.clustShift)
        rw [Nat.mul_comm] at hk
        omega
      have hrest : (k + 1) % 2 ^ fs.sbi.clustShift = k % 2 ^ fs.sbi.clustShift + 1 := by
        have hk := Nat.div_add_mod k (2 ^ fs.sbi.clustShift)
        have hk' := Nat.div_add_mod (k + 1) (2 ^ fs.sbi.clustShift)
        rw [hdiv] at hk'
        omega
      rw [if_pos hinside, hdiv, hrest, if_pos hon]
      rfl
    · -- the next cluster of the chain
      have hdvd : k + 1 = (k / 2 ^ fs.sbi.clustShift + 1) * 2 ^ fs.sbi.clustShift := by
        have hk := Nat.div_add_mod k (2 ^ fs.sbi.clustShift)
        rw [Nat.mul_comm] at hk
        rw [Nat.succ_mul]
        omega
      have hdiv : (k + 1) / 2 ^ fs.sbi.clustShift = k / 2 ^ fs.sbi.clustShift + 1 := by
        rw [hdvd, Nat.mul_div_cancel _ hpos]
      have hrest : (k + 1) % 2 ^ fs.sbi.clustShift = 0 := by rw [hdvd, Nat.mul_mod_left]
      have hall : (∀ i ≤ k / 2 ^ fs.sbi.clustShift + 1,
          OnVolume fs (chain (fatEntry fs) first i)) ↔
          OnVolume fs (fatEntry fs (chain (fatEntry fs) first (k / 2 ^ fs.sbi.clustShift))) := by
        constructor
        · exact fun hall => hall _ (Nat.le_refl _)
        · intro hnext i hi
          obtain rfl | hlt := Nat.eq_or_lt_of_le hi
          · exact hnext
          · exact hon i (Nat.le_of_lt_succ hlt)
      rw [if_neg hinside, hdiv, hrest, Nat.add_zero, chain_succ]
      by_cases hnext : OnVolume fs
          (fatEntry fs (chain (fatEntry fs) first (k / 2 ^ fs.sbi.clustShift)))
      · rw [if_pos hnext, if_pos (hall.mpr hnext)]
        rfl
      · rw [if_neg hnext, if_neg fun h => hnext (hall.mp h)]
        rfl

/-- A directory has the sectors in front of one that it has. -/
theorem dirSector_of_le {j : Nat} (hs : dirSector fs place k = some s) (hle : j ≤ k) :
    ∃ s', dirSector fs place j = some s' := by
  cases place with
  | rootRegion =>
    rw [dirSector] at hs
    split_ifs at hs with hin
    exact ⟨_, if_pos (by omega)⟩
  | clusters first =>
    rw [dirSector] at hs
    split_ifs at hs with hon
    exact ⟨_, if_pos fun i hi => hon i (hi.trans (Nat.div_le_div_right hle))⟩

theorem dirSector_pos (h : fs.sbi.Mounted) (hs : dirSector fs place k = some s) : 0 < s := by
  have hroot := h.root_pos
  have hdata := h.data_pos
  cases place with
  | rootRegion =>
    rw [dirSector] at hs
    split_ifs at hs
    obtain rfl := Option.some.inj hs
    omega
  | clusters first =>
    rw [dirSector] at hs
    split_ifs at hs
    obtain rfl := Option.some.inj hs
    omega

/-- Some steps on from a sector of a directory. -/
theorem chain_dirSector (h : fs.sbi.Mounted) (hs : dirSector fs place k = some s) {n t : Nat}
    (ht : dirSector fs place (k + n) = some t) : chain (getNextSector fs) s n = t := by
  induction n generalizing t with
  | zero => exact Option.some.inj (hs.symm.trans ht)
  | succ n ih =>
    obtain ⟨t', ht'⟩ := dirSector_of_le ht (Nat.le_succ (k + n))
    rw [chain_succ, ih ht', dirSector_next h ht', Nat.add_assoc, ht, Option.getD_some]

end Liigboot.Fs.Fat
