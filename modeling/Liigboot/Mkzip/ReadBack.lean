import Liigboot.Mkzip.Chain
import Mathlib.Tactic.Ring

/-!
# What the new directory entry reads back

The entry stores the start cluster and the size of the file. Following the chain
from there, through the cluster-to-sector mapping of the volume, reads one
contiguous piece of the image: it starts at the start cluster and is as long as the
archive, rounded up to whole sectors.
-/

namespace Liigboot.Mkzip

/-! ## The directory entry -/

theorem length_leBytes (n v : Nat) : (leBytes n v).length = n := by
  induction n generalizing v with
  | zero => rfl
  | succ n ih => rw [leBytes, List.length_cons, ih]

theorem leNat_leBytes (n v : Nat) : leNat (leBytes n v) = v % 256 ^ n := by
  induction n generalizing v with
  | zero => rw [leBytes, leNat, Nat.pow_zero, Nat.mod_one]
  | succ n ih =>
    have hb : (UInt8.ofNat v).toNat = v % 256 := UInt8.toNat_ofNat'
    rw [leBytes, leNat, ih, hb, Nat.pow_succ, Nat.mul_comm (256 ^ n), Nat.mod_mul]

/-- The number spelled by the middle part of a byte string. -/
private theorem readLe_mid (as bs cs : List UInt8) :
    readLe (as ++ bs ++ cs) as.length bs.length = leNat bs := by
  rw [readLe, slice, List.append_assoc, List.drop_left, List.take_left]

/-- The new entry has 32 bytes and stores the start cluster and the size. -/
theorem direntryNew_ok {t : Gmtime} {start : Int} {size : Nat} {d : List UInt8}
    (h : direntryNew t start size = .ok d) :
    d.length = 32 ∧ readLe d 26 2 = start.toNat ∧ readLe d 28 4 = size := by
  rw [direntryNew] at h
  split at h
  · cases h
  · split at h
    · cases h
    · rename_i hbounds
      cases h
      have hhead : (direntryHead t).length = 26 := by
        rw [direntryHead, List.length_append, length_leBytes]
        rfl
      have hstart : (leBytes 2 start.toNat).length = 2 := length_leBytes _ _
      have hsize : (leBytes 4 size).length = 4 := length_leBytes _ _
      refine ⟨?_, ?_, ?_⟩
      · rw [List.length_append, List.length_append, hhead, hstart, hsize]
      · have hmid := readLe_mid (direntryHead t) (leBytes 2 start.toNat) (leBytes 4 size)
        rw [hhead, hstart, leNat_leBytes] at hmid
        rw [hmid]
        omega
      · have hmid := readLe_mid (direntryHead t ++ leBytes 2 start.toNat) (leBytes 4 size) []
        rw [List.length_append, hhead, hstart, hsize, leNat_leBytes, List.append_nil] at hmid
        rw [hmid]
        omega

/-- The entry goes into one of the entries that were searched, over what it held. -/
theorem addEntry_ok {direntry : List UInt8} (hd : direntry.length = 32) {count i : Nat}
    {data : List UInt8} {e : Edited} (h : addEntry direntry count i data = .ok e) :
    i ≤ e.direntryOfs ∧ e.direntryOfs + 32 ≤ i + 32 * count ∧
      e.data = blit data e.direntryOfs direntry := by
  induction count generalizing i with
  | zero => cases h
  | succ count ih =>
    rw [addEntry] at h
    split at h
    · cases h
    · split at h
      · cases h
        refine ⟨Nat.le_refl i, ?_, ?_⟩
        · dsimp only
          omega
        · rw [blit, hd]
      · obtain ⟨hlo, hhi, hdata⟩ := ih h
        exact ⟨by omega, by omega, hdata⟩

/-! ## The clusters -/

variable {h : Header}

/-- The sectors of the data area. -/
def Header.dataSectors (h : Header) : Nat := h.sectorCount3 - h.dataStart

/-- A volume with a cluster has its data area inside, and floor division counts the clusters. -/
theorem clusterCount_eq (hspc : 0 < h.sectorsPerCluster) (hcc : 0 < h.clusterCount) :
    h.dataStart < h.sectorCount3 ∧
      h.clusterCount = (h.dataSectors / h.sectorsPerCluster : Nat) := by
  have hnum : (h.sectorCount3 - h.fatCount * h.sectorsPerFat -
      ((h.rootdirEntryCount + 15) / 16 : Nat) - h.reservedSectorCount : Int) =
        h.sectorCount3 - h.dataStart := by
    rw [Header.dataStart, Int.natCast_add, Int.natCast_add, Int.natCast_mul]
    ring
  rw [Header.clusterCount, hnum, Int.fdiv_eq_ediv_of_nonneg _ (Int.natCast_nonneg _)] at hcc ⊢
  have hlt : h.dataStart < h.sectorCount3 := by
    by_contra hle
    have hneg : (h.sectorCount3 - h.dataStart : Int) / h.sectorsPerCluster ≤ 0 := by
      apply Int.ediv_nonpos_of_nonpos_of_neg
      · omega
      · omega
    omega
  refine ⟨hlt, ?_⟩
  rw [Header.dataSectors, Int.natCast_ediv, Int.natCast_sub hlt.le]

/-- Where the clusters from `c` on start in the image. -/
def Header.clusterOfs (h : Header) (c : Nat) : Nat :=
  (h.dataStart + (c - 2) * h.sectorsPerCluster) * 512

private theorem slice_add (xs : List UInt8) (off m n : Nat) :
    slice xs off (m + n) = slice xs off m ++ slice xs (off + m) n := by
  rw [slice, slice, slice, List.take_add, List.drop_drop]

/-- A chain through consecutive clusters reads one piece of the image. -/
theorem readChain_run (data : List UInt8) (n : Nat) {c : Nat} (hc : 2 ≤ c)
    (hnext : ∀ k, c ≤ k → k + 1 < c + n → fatEntry h data k = k + 1) :
    readChain h data n c =
      slice data (h.clusterOfs c) (n * (h.sectorsPerCluster * 512)) := by
  induction n generalizing c with
  | zero =>
    rw [Nat.zero_mul, slice, List.take_zero]
    rfl
  | succ n ih =>
    have hsucc : h.clusterOfs (c + 1) = h.clusterOfs c + h.sectorsPerCluster * 512 := by
      have hsub : c + 1 - 2 = c - 2 + 1 := by omega
      rw [Header.clusterOfs, Header.clusterOfs, hsub]
      ring
    have hrest : readChain h data n (fatEntry h data c) =
        slice data (h.clusterOfs (c + 1)) (n * (h.sectorsPerCluster * 512)) := by
      cases n with
      | zero => rw [Nat.zero_mul, slice, List.take_zero, readChain]
      | succ n =>
        rw [hnext c (Nat.le_refl c) (by omega)]
        exact ih (by omega) fun k hlo hhi => hnext k (by omega) (by omega)
    rw [readChain, hrest, hsucc, Nat.succ_mul, Nat.add_comm (n * _), slice_add]
    rfl

/-- The number of clusters read for the file is the number of clusters marked. -/
theorem zipClusters_eq (hspc : 0 < h.sectorsPerCluster) (n : Nat) :
    (zipSectors n * 512 + h.sectorsPerCluster * 512 - 1) / (h.sectorsPerCluster * 512) =
      h.zipClusters n := by
  rw [Header.zipClusters, Nat.mul_comm h.sectorsPerCluster 512, ← Nat.div_div_eq_div_mul]
  congr 1
  omega

theorem zipSectors_le (hspc : 0 < h.sectorsPerCluster) (n : Nat) :
    zipSectors n ≤ h.zipClusters n * h.sectorsPerCluster := by
  rw [Header.zipClusters]
  have hdiv := Nat.div_add_mod (zipSectors n + h.sectorsPerCluster - 1) h.sectorsPerCluster
  have hmod := Nat.mod_lt (zipSectors n + h.sectorsPerCluster - 1) hspc
  rw [Nat.mul_comm] at hdiv
  omega

/-! ## A successful run -/

/-- What a successful run has checked about the header, for an archive of `n` bytes. -/
structure Header.Takes (h : Header) (n : Nat) : Prop where
  fatCount : h.fatCount = 1
  perCluster : 0 < h.sectorsPerCluster
  clusters : 0 < h.clusterCount
  rootdir : 0 < h.rootdirEntryCount
  room : (h.zipClusters n : Int) ≤ h.clusterCount

/-- The steps of a successful run. -/
theorem addInstallZip_ok {data : List UInt8} {n : Nat} {t : Gmtime} {e : Edited}
    (hok : addInstallZip data n t = .ok e) (h : Header) (hh : dumpHeader data = h) :
    data.take 3 = jump ∧ h.fatCount = 1 ∧ 0 < h.sectorsPerCluster ∧ 0 < h.clusterCount ∧
      ∃ d direntry,
        addChain h (h.startCluster n + h.zipClusters n - 1) (h.zipClusters n) (h.startCluster n)
          data = .ok d ∧
        direntryNew t (h.startCluster n) (zipSectors n * 512) = .ok direntry ∧
        addEntry direntry h.rootdirEntryCount
          ((h.reservedSectorCount + h.fatCount * h.sectorsPerFat) * 512) d = .ok e := by
  rw [addInstallZip, hh] at hok
  simp only at hok
  split at hok
  · cases hok
  · rename_i hmagic
    split at hok
    · cases hok
    · rename_i hfields
      split at hok
      · cases hok
      · rename_i hspc
        split at hok
        · cases hok
        · rename_i hcc
          split at hok
          · cases hok
          · rename_i d hd
            split at hok
            · cases hok
            · rename_i direntry hdir
              refine ⟨?_, ?_, Nat.pos_of_ne_zero hspc, by omega, d, direntry, hd, hdir, hok⟩
              · exact not_not.mp fun hne => hmagic (Or.inl hne)
              · exact not_not.mp fun hne => hfields (Or.inr hne)

/-- A run that marks at least one cluster needs room for all of them. -/
theorem takes_of_ok {data : List UInt8} {n : Nat} {t : Gmtime} {e : Edited} (hn : 0 < n)
    (hok : addInstallZip data n t = .ok e) : (dumpHeader data).Takes n := by
  obtain ⟨-, hfat, hspc, hcc, d, direntry, hchain, -, hentry⟩ := addInstallZip_ok hok _ rfl
  have hroot : 0 < (dumpHeader data).rootdirEntryCount := by
    apply Nat.pos_of_ne_zero
    intro hzero
    rw [hzero] at hentry
    cases hentry
  refine ⟨hfat, hspc, hcc, hroot, ?_⟩
  have hcount : 0 < (dumpHeader data).zipClusters n := by
    rw [Header.zipClusters]
    apply Nat.div_pos
    · rw [zipSectors]
      omega
    · exact hspc
  obtain ⟨m, hm⟩ := Nat.exists_eq_succ_of_ne_zero hcount.ne'
  rw [hm, addChain, fatGet] at hchain
  by_contra hroom
  have hstart : (dumpHeader data).isCluster ((dumpHeader data).startCluster n) = false := by
    rw [Header.isCluster, Header.startCluster]
    simp only [Bool.and_eq_false_iff, decide_eq_false_iff_not]
    left
    omega
  rw [hstart] at hchain
  cases hchain

end Liigboot.Mkzip
