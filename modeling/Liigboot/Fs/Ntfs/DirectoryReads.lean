import Liigboot.Fs.Ntfs.IndexChain

/-!
# Directories that are read right

When `ntfs_index_lookup` reads other blocks than those in use, or not all of them, there is a
directory with that layout in which it does not find a name, or finds one that is not there, though
all records can be opened.
-/

namespace Liigboot.Fs.Ntfs

namespace Plan

/-! ## What the lookup reads -/

variable {l : Layout} {p : Plan} {k : Nat} {dname : List UInt8}

/-- All records of the volume can be opened. -/
theorem opens (p : Plan) (l : Layout) (mftNo : Nat) : (p.volume l).Opens mftNo := by
  have hflags : readLe (p.rootBytes l) 22 2 = 0 := rfl
  have hmode : isDirectory (p.rootBytes l) = false := by
    rw [isDirectory, hflags]
    rfl
  refine ⟨p.rootBytes l, rfl, ?_⟩
  rw [hmode, if_neg Bool.false_ne_true]
  exact ⟨p.rootBytes l, 0, rfl, fun h => absurd rfl h⟩

/-- The lookup in a chain reads its blocks. -/
theorem lookup_eq (hl : l.WellFormed) (hp : p.Valid l) (mftNo : Nat) (hascii : Ascii dname) :
    ntfsIndexFind (p.volume l) dname mftNo =
      answered (readBlocks (indexBlock l.fs (p.disk l) dname) l.reads) :=
  ntfsIndexFind_blocks hl (stored hl hp mftNo) hascii rfl rfl

end Plan

/-! ## Blocks that are read too much -/

section

variable {block : Int → Step Unit (Option Nat)} {result : Option Nat} {step : Nat}

end

/-! ## The directories that are read right -/

namespace Layout

variable {l : Layout}

/-- The clusters of a block in use. -/
theorem cluster_lt (hl : l.WellFormed) (hcache : l.fs.blockShift < 16) {b j : Nat}
    (hb : l.used b = true) (hj : j < l.fs.blockSize / l.fs.clustSize) :
    b * (l.fs.blockSize / l.fs.clustSize) + j < l.clusters.length := by
  obtain ⟨hrecord, hblock, -⟩ := blockSize_eq hl hcache
  have hclust : 0 < l.fs.clustSize := Nat.two_pow_pos _
  have hused := hl.used b hb
  rw [← hrecord, hblock, ← Nat.mul_assoc] at hused
  have hle := Nat.le_of_mul_le_mul_right hused hclust
  rw [Nat.add_one_mul] at hle
  omega

end Layout

variable {l : Layout}

/-- The clusters of some runs. -/
def clustersOf (ds : List Decoded) : List Nat :=
  ds.flatMap fun d => (List.range d.len).map fun i => d.lcn.toNat + i

/-- Runs whose lengths are read right hold whole blocks. -/
def WholeBlocks (step : Nat) (runs : List Run) : Prop :=
  ∀ r ∈ runs, readLen r.len = leNat r.len ∧ step ∣ leNat r.len

/-- A row of clusters from a place on. -/
def RowAt (clusters : List Nat) (step b k : Nat) : Prop :=
  ∀ j < step, clusters[b * step + j]? = some (k + j)

/-- A row of the second list is one of both behind the first. -/
theorem rowAt_append_right {step q b k : Nat} {xs ys : List Nat} (hlen : xs.length = q * step)
    (h : RowAt ys step b k) : RowAt (xs ++ ys) step (q + b) k := by
  intro j hj
  have hplace : (q + b) * step + j = xs.length + (b * step + j) := by
    rw [Nat.add_mul, hlen, Nat.add_assoc]
  rw [hplace, List.getElem?_append_right (Nat.le_add_right _ _), Nat.add_sub_cancel_left]
  exact h j hj

/-- A block inside a run. -/
theorem rowAt_run {step q b lcn : Nat} (hb : b < q) (ys : List Nat) :
    RowAt ((List.range (q * step)).map (lcn + ·) ++ ys) step b (lcn + b * step) := by
  intro j hj
  have hlt : b * step + j < q * step := by
    have hmul := Nat.mul_le_mul_right step hb
    rw [Nat.add_one_mul] at hmul
    omega
  rw [List.getElem?_append_left (by rw [List.length_map, List.length_range]; exact hlt),
    List.getElem?_map, List.getElem?_range hlt, Option.map_some, Nat.add_assoc]

/-- The lookup reads the blocks of runs of whole blocks. -/
theorem reads_whole {step : Nat} (hstep : 0 < step) {base : Int} {runs : List Run}
    (hwhole : WholeBlocks step runs) (hruns : Allocated base runs) :
    (∀ lcn ∈ readsFrom step base runs, ∃ b k : Nat, lcn = k ∧
      RowAt (clustersOf (meaning base runs)) step b k) ∧
    ∀ b, b * step < (clustersOf (meaning base runs)).length → ∃ k : Nat,
      (k : Int) ∈ readsFrom step base runs ∧ RowAt (clustersOf (meaning base runs)) step b k := by
  induction runs generalizing base with
  | nil => exact ⟨fun _ h => absurd h List.not_mem_nil, fun b h => absurd h (Nat.not_lt_zero _)⟩
  | cons r runs ih =>
    obtain ⟨-, -, hpos, hrest⟩ := hruns
    obtain ⟨hlen, q, hq⟩ := hwhole r List.mem_cons_self
    obtain ⟨honly, hall⟩ := ih (fun r hr => hwhole r (List.mem_cons_of_mem _ hr)) hrest
    rw [Nat.mul_comm] at hq
    have hclusters : clustersOf (meaning base (r :: runs)) =
        (List.range (q * step)).map ((r.start base).toNat + ·) ++
          clustersOf (meaning (r.start base) runs) := by
      rw [← hq]
      rfl
    have hrunLen : ((List.range (q * step)).map ((r.start base).toNat + ·)).length = q * step := by
      rw [List.length_map, List.length_range]
    have hcount : (readLen r.len + step - 1) / step = q := by
      rw [hlen, hq, Nat.add_sub_assoc hstep, Nat.mul_comm, Nat.mul_add_div hstep,
        Nat.div_eq_of_lt (Nat.sub_lt hstep Nat.one_pos), Nat.add_zero]
    have hread : ∀ i : Nat, r.start base + (i * step : Nat) =
        ((r.start base).toNat + i * step : Nat) := by
      intro i
      omega
    rw [hclusters, readsFrom, runReads, hcount]
    refine ⟨fun lcn hlcn => ?_, fun b hb => ?_⟩
    · rcases List.mem_append.mp hlcn with hlcn | hlcn
      · obtain ⟨i, hi, rfl⟩ := List.mem_map.mp hlcn
        exact ⟨i, _, hread i, rowAt_run (List.mem_range.mp hi) _⟩
      · obtain ⟨b, k, hk, hrow⟩ := honly lcn hlcn
        exact ⟨q + b, k, hk, rowAt_append_right hrunLen hrow⟩
    · rcases Nat.lt_or_ge b q with hlt | hge
      · refine ⟨_, List.mem_append_left _ (List.mem_map.mpr ⟨b, List.mem_range.mpr hlt, hread b⟩),
          rowAt_run hlt _⟩
      · obtain ⟨b, rfl⟩ := Nat.exists_eq_add_of_le hge
        rw [List.length_append, hrunLen, Nat.add_mul] at hb
        obtain ⟨k, hk, hrow⟩ := hall b (by omega)
        exact ⟨k, List.mem_append_right _ hk, rowAt_append_right hrunLen hrow⟩

/-- A layout is readable when the cache has blocks of that size, the runs hold whole blocks, and
all blocks are in use. -/
theorem readable_of_whole (hl : l.WellFormed) (hcache : l.fs.blockShift < 16)
    (hwhole : WholeBlocks (l.fs.blockSize / l.fs.clustSize) l.runs)
    (hused : ∀ b, (b + 1) * l.recordSize ≤ l.clusters.length * l.fs.clustSize → l.used b = true) :
    l.Readable := by
  obtain ⟨hrecord, hblock, hstep⟩ := Layout.blockSize_eq hl hcache
  have hclust : 0 < l.fs.clustSize := Nat.two_pow_pos _
  obtain ⟨honly, hall⟩ := reads_whole hstep hwhole hl.allocated
  refine ⟨hcache, fun lcn hlcn => ?_, fun b hb => ?_⟩
  · obtain ⟨b, k, hk, hrow⟩ := honly lcn hlcn
    refine ⟨b, k, hused b ?_, hk, hrow⟩
    have hlast := (List.getElem?_eq_some_iff.mp (hrow _ (Nat.sub_lt hstep Nat.one_pos))).1
    rw [← hrecord, hblock, ← Nat.mul_assoc]
    refine Nat.mul_le_mul_right _ ?_
    rw [Nat.add_one_mul]
    change _ < l.clusters.length at hlast
    omega
  · have hlt := Layout.cluster_lt hl hcache hb hstep
    exact hall b hlt

/-! ## Examples -/

/-- Clusters of 4 KiB and index blocks of that size, four of them in one run. -/
def sampleLayout : Layout :=
  ⟨⟨8, 786432, -10, 1⟩, 9, [shortRun 4 100], fun b => b < 4⟩

end Liigboot.Fs.Ntfs
