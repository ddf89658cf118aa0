import Liigboot.Fs.Ntfs.Directory
import Liigboot.Fs.Ntfs.ReaddirBlocks

/-!
# The runs that are read

`ntfs_readdir` parses the mapping pairs of the index again at each call, up to the run that it has
come to. What remains of a directory are the rest of the block there, and the blocks behind it.
-/

namespace Liigboot.Fs.Ntfs

open Relation

/-- The chunks that runs are parsed to: their places and the lengths that are read. -/
def runChunks (base : Int) : List Run → List (Int × Nat)
  | [] => []
  | r :: rs => (r.start base, readLen r.len) :: runChunks (r.start base) rs

/-- The clusters of some chunks at which blocks are read. -/
def chunkReads (step : Nat) (cs : List (Int × Nat)) : List Int :=
  cs.flatMap fun c => runReads step c.2 c.1

variable {fs : FsInfo} {disk : Disk} {mem : Memory} {buf attr offset j : Nat} {mrec : List UInt8}
  {chunk : MappingChunk} {st : ReaddirState} {runs : List Run} {es : List IndexEntry}

theorem readsFrom_eq (step : Nat) (base : Int) (runs : List Run) :
    readsFrom step base runs = chunkReads step (runChunks base runs) := by
  induction runs generalizing base with
  | nil => rfl
  | cons r rs ih => rw [readsFrom, ih, runChunks, chunkReads, chunkReads, List.flatMap_cons]

theorem length_runChunks (base : Int) (runs : List Run) :
    (runChunks base runs).length = runs.length := by
  induction runs generalizing base with
  | nil => rfl
  | cons r rs ih => rw [runChunks, List.length_cons, ih, List.length_cons]

/-- The places of allocated runs. -/
theorem runChunks_pos {base : Int} (h : Allocated base runs) :
    ∀ c ∈ runChunks base runs, 0 < c.1 := by
  induction runs generalizing base with
  | nil => exact List.forall_mem_nil _
  | cons r rs ih =>
    obtain ⟨-, -, hpos, hrest⟩ := h
    exact List.forall_mem_cons.mpr ⟨hpos, ih hrest⟩

/-! ## The mapping pairs -/

section Pairs

variable (hmpo : mappingPairsOffset mrec attr ≤ attrLen mrec attr)

include hmpo

/-- A run is parsed, and the loop goes on behind it. -/
theorem nextRun_cons {r : Run} (hat : At (pairsStream mrec attr) offset
      (encodeRuns (r :: runs) ++ [0]))
    (hend : offset + (encodeRuns (r :: runs)).length ≤
      attrLen mrec attr - mappingPairsOffset mrec attr)
    (hrange : InRange chunk.lcn (r :: runs)) (hruns : Allocated chunk.lcn (r :: runs))
    (count : Nat) :
    ∃ chunk', chunk'.lcn = r.start chunk.lcn ∧ chunk'.len = readLen r.len ∧
      chunk'.flags &&& mapUnallocated = 0 ∧
      nextRun mrec attr (count + 1) offset chunk =
        nextRun mrec attr count (offset + r.bytes.length) chunk' := by
  have hlt : attrLen mrec attr < 256 ^ 4 := readLe_lt mrec (attr + 4) 4
  rw [encodeRuns_cons, List.append_assoc] at hat
  rw [encodeRuns_cons, List.length_append] at hend
  obtain ⟨chunk', hparse, -, hlen, hlcn, hunalloc, -, hflag⟩ :=
    @parseDataRun_run (pairsStream mrec attr) offset
      (attrLen mrec attr - mappingPairsOffset mrec attr) chunk r _ hat (by omega)
  obtain ⟨hdelta, -, hpos, -⟩ := hruns
  rw [nextLcn_eq hdelta hrange.1] at hlcn
  have hfree : chunk'.flags &&& mapUnallocated = 0 := by
    refine not_not.mp fun hne => ?_
    have hzero := hunalloc.mp hne
    rw [hlcn] at hzero
    exact hpos.ne' hzero
  refine ⟨chunk', hlcn, hlen, hfree, ?_⟩
  rw [nextRun, if_neg (Nat.not_lt.mpr hmpo), hparse]
  dsimp only
  rw [if_neg (not_not.mpr hfree), if_neg (not_not.mpr hflag), u32_of_lt (by omega)]

/-- The chunk of a run. -/
theorem nextRun_chunk (chunk : MappingChunk)
    (hat : At (pairsStream mrec attr) offset (encodeRuns runs ++ [0]))
    (hend : offset + (encodeRuns runs).length ≤ attrLen mrec attr - mappingPairsOffset mrec attr)
    (hrange : InRange chunk.lcn runs) (hruns : Allocated chunk.lcn runs) {c : Int × Nat}
    (hc : (runChunks chunk.lcn runs)[j]? = some c) :
    ∃ chunk', nextRun mrec attr (j + 1) offset chunk = some chunk' ∧ chunk'.lcn = c.1 ∧
      chunk'.len = c.2 ∧ chunk'.flags &&& mapUnallocated = 0 := by
  induction runs generalizing j offset chunk with
  | nil => cases hc
  | cons r runs ih =>
    obtain ⟨chunk', hlcn, hlen, hfree, hnext⟩ := nextRun_cons hmpo hat hend hrange hruns j
    cases j with
    | zero =>
      obtain rfl := Option.some.inj hc
      exact ⟨chunk', hnext, hlcn, hlen, hfree⟩
    | succ j =>
      rw [encodeRuns_cons, List.append_assoc] at hat
      rw [encodeRuns_cons, List.length_append] at hend
      rw [hnext]
      rw [runChunks, List.getElem?_cons_succ, ← hlcn] at hc
      exact ih _ hat.append.2 (by omega) (hlcn ▸ hrange.2) (hlcn ▸ hruns.2.2.2) hc

/-- There is no run behind the last one. -/
theorem nextRun_end (chunk : MappingChunk)
    (hat : At (pairsStream mrec attr) offset (encodeRuns runs ++ [0]))
    (hend : offset + (encodeRuns runs).length ≤ attrLen mrec attr - mappingPairsOffset mrec attr)
    (hrange : InRange chunk.lcn runs) (hruns : Allocated chunk.lcn runs) :
    nextRun mrec attr (runs.length + 1) offset chunk = none := by
  induction runs generalizing offset chunk with
  | nil =>
    obtain ⟨chunk', hparse, hunalloc, -, hflag⟩ :=
      @parseDataRun_end (pairsStream mrec attr) offset
        (attrLen mrec attr - mappingPairsOffset mrec attr) chunk hat.cons.1
    rw [nextRun, if_neg (Nat.not_lt.mpr hmpo), hparse]
    dsimp only
    rw [if_neg (not_not.mpr hunalloc), if_pos hflag]
  | cons r runs ih =>
    obtain ⟨chunk', hlcn, -, -, hnext⟩ := nextRun_cons hmpo hat hend hrange hruns (runs.length + 1)
    rw [encodeRuns_cons, List.append_assoc] at hat
    rw [encodeRuns_cons, List.length_append] at hend
    rw [List.length_cons, hnext]
    exact ih _ hat.append.2 (by omega) (hlcn ▸ hrange.2) (hlcn ▸ hruns.2.2.2)

end Pairs

/-! ## What remains -/

/-- A node in the block at a cluster. -/
def NodeRead (fs : FsInfo) (disk : Disk) (k : Int) (node : Node) : Prop :=
  ∃ k' : Nat, k = k' ∧ BlockAt fs disk k' node

/-- The entries of some nodes, behind some of the first one. -/
def entriesBehind (k : Nat) : List Node → List IndexEntry
  | [] => []
  | node :: nodes => node.entries.drop k ++ nodes.flatMap Node.entries

/-- The place behind `i` blocks of the chunk `c`, which is number `j`. -/
structure PlaceAt (fs : FsInfo) (disk : Disk) (cs : List (Int × Nat)) (st : ReaddirState)
    (j i : Nat) (c : Int × Nat) (nodes : List Node) : Prop where
  blocks : st.inIdxRoot = false
  chunk : cs[j]? = some c
  run : st.idxBlksCount = j + 1
  vcn : st.lastVcn = i * (fs.blockSize / fs.clustSize)
  reads : List.Forall₂ (NodeRead fs disk)
    ((runReads (fs.blockSize / fs.clustSize) c.2 c.1).drop i ++
      chunkReads (fs.blockSize / fs.clustSize) (cs.drop (j + 1))) nodes
  entries : ∀ node ∈ nodes.head?, st.entriesCount ≤ node.entries.length

/-- The entries that remain in the index blocks. -/
def Remains (fs : FsInfo) (disk : Disk) (cs : List (Int × Nat)) (st : ReaddirState)
    (es : List IndexEntry) : Prop :=
  ∃ j i c nodes, PlaceAt fs disk cs st j i c nodes ∧ es = entriesBehind st.entriesCount nodes

/-- From a label on, the code gets to the next printable entry of those that remain, or to the
end. -/
def GetsNext (fs : FsInfo) (disk : Disk) (mem : Memory) (buf : Nat) (mrec : List UInt8) (attr : Nat)
    (cs : List (Int × Nat)) (s : ReaddirState × Label) (es : List IndexEntry) : Prop :=
  (es.filter IndexEntry.printable = [] ∧
    ∃ n st', runLoop (labelStep fs disk mem buf mrec attr) n s = some (st', none)) ∨
  ∃ e rest, es.filter IndexEntry.printable = e :: rest.filter IndexEntry.printable ∧
    ∃ n st' mem' ie, runLoop (labelStep fs disk mem buf mrec attr) n s =
      some (st', some (mem', ie)) ∧ ReadAt mem' ie e ∧ Remains fs disk cs st' rest

theorem entriesBehind_zero (nodes : List Node) :
    entriesBehind 0 nodes = nodes.flatMap Node.entries := by
  cases nodes with
  | nil => rfl
  | cons node nodes => rw [entriesBehind, List.drop_zero, List.flatMap_cons]

/-- In front of the next entry nothing is returned. -/
theorem GetsNext.of_reaches {cs : List (Int × Nat)} {s t : ReaddirState × Label}
    {es es' : List IndexEntry} (h : GetsNext fs disk mem buf mrec attr cs t es')
    (hgo : ReflTransGen (Goes fun _ => labelStep fs disk mem buf mrec attr) s t)
    (hsame : es.filter IndexEntry.printable = es'.filter IndexEntry.printable) :
    GetsNext fs disk mem buf mrec attr cs s es := by
  have hsteady := steady_const (labelStep fs disk mem buf mrec attr)
  rcases h with ⟨hnil, n, st', hrun⟩ | ⟨e, rest, hcons, n, st', mem', ie, hrun, hread, hrest⟩
  · obtain ⟨n', hrun'⟩ := hsteady.ends_of_reaches hgo ⟨n, hrun⟩
    exact Or.inl ⟨hsame.trans hnil, n', st', hrun'⟩
  · obtain ⟨n', hrun'⟩ := hsteady.ends_of_reaches hgo ⟨n, hrun⟩
    exact Or.inr ⟨e, rest, hsame.trans hcons, n', st', mem', ie, hrun', hread, hrest⟩

theorem lt_reads_iff {step : Nat} (hstep : 0 < step) (len i : Nat) :
    i < (len + step - 1) / step ↔ i * step < len := by
  rw [Nat.lt_iff_add_one_le, Nat.le_div_iff_mul_le hstep, Nat.add_one_mul]
  omega

/-- The next block of a run. -/
theorem drop_runReads {step : Nat} (hstep : 0 < step) {len i : Nat} (lcn : Int)
    (hi : i * step < len) :
    (runReads step len lcn).drop i =
      (lcn + (i * step : Nat)) :: (runReads step len lcn).drop (i + 1) := by
  have hlt := (lt_reads_iff hstep len i).mpr hi
  rw [runReads, List.drop_eq_getElem_cons (by rw [List.length_map, List.length_range]; exact hlt),
    List.getElem_map, List.getElem_range]

/-- The end of a run. -/
theorem drop_runReads_nil {step : Nat} (hstep : 0 < step) {len i : Nat} (lcn : Int)
    (hi : len ≤ i * step) : (runReads step len lcn).drop i = [] := by
  refine List.drop_eq_nil_of_le ?_
  rw [runReads, List.length_map, List.length_range]
  exact Nat.le_of_not_lt fun hlt => absurd ((lt_reads_iff hstep len i).mp hlt) (Nat.not_lt.mpr hi)

theorem two_mul_length_le (runs : List Run) : 2 * runs.length ≤ (encodeRuns runs).length := by
  induction runs with
  | nil => exact Nat.le_refl 0
  | cons r rs ih =>
    have hbytes := length_bytes r
    have hlen := r.len_pos
    rw [encodeRuns_cons, List.length_append, List.length_cons]
    omega

section Walk

variable (hsizes : BlockSizes fs buf) (halloc : AllocationAt mrec attr runs)
  (hrange : InRange 0 runs) (hruns : Allocated 0 runs)

include hsizes halloc hrange hruns

omit hsizes in
/-- The code at `next_run` parses the chunk of a run. -/
theorem labelStep_nextRun (fs : FsInfo) (disk : Disk) (mem : Memory) (buf : Nat) {j : Nat}
    {c : Int × Nat} (hc : (runChunks 0 runs)[j]? = some c) (hrun : st.idxBlksCount = j + 1) :
    ∃ chunk, chunk.lcn = c.1 ∧ chunk.len = c.2 ∧
      labelStep fs disk mem buf mrec attr (st, .nextRun) = .next (st, .nextVcn chunk) := by
  have hfits := halloc.fits
  obtain ⟨chunk, hnext, hlcn, hlen, hfree⟩ := nextRun_chunk
    ((Nat.le_add_right _ _).trans hfits) mappingChunkInit halloc.pairs (by omega) hrange hruns hc
  refine ⟨chunk, hlcn, hlen, ?_⟩
  rw [labelStep]
  dsimp only
  rw [hrun, hnext]
  exact if_neg (not_not.mpr hfree)

omit hsizes in
/-- The code at `next_run` goes to `out` behind the last run. -/
theorem labelStep_out (fs : FsInfo) (disk : Disk) (mem : Memory) (buf : Nat)
    (hrun : st.idxBlksCount = runs.length + 1) :
    labelStep fs disk mem buf mrec attr (st, .nextRun) = .stop (st, none) := by
  have hfits := halloc.fits
  have hnext := nextRun_end ((Nat.le_add_right _ _).trans hfits) mappingChunkInit
    halloc.pairs (by omega) hrange hruns
  rw [labelStep]
  dsimp only
  rw [hrun, hnext]

/-- From a place on, the code gets to the next printable entry that remains, or to the end. -/
theorem place_next (mem : Memory) {j i : Nat} {c : Int × Nat} {nodes : List Node}
    (h : PlaceAt fs disk (runChunks 0 runs) st j i c nodes) (hlcn : chunk.lcn = c.1)
    (hlen : chunk.len = c.2) :
    GetsNext fs disk mem buf mrec attr (runChunks 0 runs) (st, .nextVcn chunk)
      (entriesBehind st.entriesCount nodes) := by
  have hstep : 0 < fs.blockSize / fs.clustSize :=
    Nat.div_pos (Nat.pow_le_pow_right (by decide) hsizes.clusters) (Nat.two_pow_pos _)
  -- the blocks and the runs that remain
  induction hn : nodes.length + (runs.length - j) using Nat.strong_induction_on
    generalizing st chunk j i c nodes with
  | _ n ih =>
    have hj : j < runs.length := by
      rw [← length_runChunks 0]
      exact (List.getElem?_eq_some_iff.mp h.chunk).1
    by_cases hi : i * (fs.blockSize / fs.clustSize) < c.2
    · -- the next block of the run
      have hreads := h.reads
      rw [drop_runReads hstep c.1 hi, List.cons_append] at hreads
      cases hreads with
      | @cons _ node _ nodes hnode hrest =>
        obtain ⟨k, hk, hblock⟩ := hnode
        obtain ⟨lcn, hlcn'⟩ := Int.eq_ofNat_of_zero_le
          (runChunks_pos hruns c (List.mem_of_getElem? h.chunk)).le
        obtain rfl : k = lcn + i * (fs.blockSize / fs.clustSize) := by omega
        rw [hlcn'] at hlcn
        rcases hblock.next hsizes mem mrec attr hlcn h.vcn (hlen ▸ hi) (h.entries node rfl) with
          ⟨hnil, hgo⟩ | ⟨e, k, hle, hcons, n', mem', ie, hrun, hread⟩
        · -- no entry of the block remains
          have hplace : PlaceAt fs disk (runChunks 0 runs) { st with
              lastVcn := (i + 1) * (fs.blockSize / fs.clustSize)
              entriesCount := 0 } j (i + 1) c nodes :=
            ⟨h.blocks, h.chunk, h.run, rfl, hrest, fun _ _ => Nat.zero_le _⟩
          refine (ih _ ?_ hplace (hlcn.trans hlcn'.symm) hlen rfl).of_reaches hgo ?_
          · rw [List.length_cons] at hn
            omega
          · rw [entriesBehind, List.filter_append, hnil, List.nil_append, entriesBehind_zero]
        · have hfilter : (entriesBehind st.entriesCount (node :: nodes)).filter
              IndexEntry.printable =
                e :: (entriesBehind k (node :: nodes)).filter IndexEntry.printable := by
            rw [entriesBehind, List.filter_append, hcons, List.cons_append, ← List.filter_append,
              entriesBehind]
          refine Or.inr ⟨e, _, hfilter, n', _, mem', ie, hrun, hread, ?_⟩
          refine ⟨j, i, c, node :: nodes, ⟨h.blocks, h.chunk, h.run, h.vcn, h.reads, ?_⟩, rfl⟩
          rintro _ ⟨⟩
          exact hle
    · -- the next run
      have hbound : runs.length + 2 < 2 ^ 32 := by
        have hfits := halloc.fits
        have hattr : attrLen mrec attr < 256 ^ 4 := readLe_lt mrec (attr + 4) 4
        have hlength := two_mul_length_le runs
        omega
      have hreads := h.reads
      rw [drop_runReads_nil hstep c.1 (Nat.le_of_not_lt hi), List.nil_append] at hreads
      have hgo : labelStep fs disk mem buf mrec attr (st, .nextVcn chunk) =
          .next ({ st with lastVcn := 0, idxBlksCount := j + 1 + 1 }, .nextRun) := by
        rw [labelStep]
        dsimp only
        rw [h.vcn, hlen, if_pos (Nat.le_of_not_lt hi), h.run, u32_of_lt (by omega)]
      by_cases hmore : j + 1 < runs.length
      · have hin : j + 1 < (runChunks 0 runs).length := by rwa [length_runChunks]
        have hchunk := List.getElem?_eq_getElem hin
        rw [List.drop_eq_getElem_cons hin, chunkReads, List.flatMap_cons] at hreads
        have hplace : PlaceAt fs disk (runChunks 0 runs)
            { st with lastVcn := 0, idxBlksCount := j + 1 + 1 } (j + 1) 0 _ nodes :=
          ⟨h.blocks, hchunk, rfl, (Nat.zero_mul _).symm, hreads, h.entries⟩
        obtain ⟨chunk', hlcn', hlen', hnext⟩ := labelStep_nextRun halloc hrange hruns fs disk mem
          buf hplace.chunk hplace.run
        exact (ih _ (by omega) hplace hlcn' hlen' rfl).of_reaches
          (.head ⟨0, hgo⟩ (.single ⟨0, hnext⟩)) rfl
      · rw [List.drop_eq_nil_of_le (by rw [length_runChunks]; omega)] at hreads
        cases hreads
        have hout : labelStep fs disk mem buf mrec attr
            ({ st with lastVcn := 0, idxBlksCount := j + 1 + 1 }, .nextRun) = .stop (_, none) :=
          labelStep_out halloc hrange hruns fs disk mem buf (by dsimp only; omega)
        exact Or.inl ⟨rfl, 2, _, runLoop_next hgo (runLoop_stop hout)⟩

/-- A call that goes on in the blocks gets to the next printable entry that remains, or to the
end. -/
theorem remains_next (mem : Memory) (h : Remains fs disk (runChunks 0 runs) st es) :
    GetsNext fs disk mem buf mrec attr (runChunks 0 runs) (st, .nextRun) es := by
  obtain ⟨j, i, c, nodes, hplace, rfl⟩ := h
  obtain ⟨chunk, hlcn, hlen, hnext⟩ := labelStep_nextRun halloc hrange hruns fs disk mem buf
    hplace.chunk hplace.run
  exact (place_next hsizes halloc hrange hruns mem hplace hlcn hlen).of_reaches
    (.single ⟨0, hnext⟩) rfl

end Walk

end Liigboot.Fs.Ntfs
