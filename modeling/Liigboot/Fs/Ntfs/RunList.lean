import Liigboot.Fs.GetFsSec
import Liigboot.Fs.Ntfs.DataRun

/-!
# The run list of an NTFS file

When a file is opened, the runs of its data attribute that carry the flag for allocated ones
are kept in a list; `ntfs_next_extent` takes the first one from it in each call. A list without
holes maps the sectors of the file as the mapping pairs do. A hole is either left out of the
list, or kept there with the clusters of the run in front of it.
-/

namespace Liigboot.Fs.Ntfs

/-- `struct runlist_element`. -/
structure RunlistElement where
  vcn : Nat
  lcn : Int
  len : Nat
  deriving DecidableEq, Repr

/-- The fields of `struct ntfs_inode` that `ntfs_next_extent` touches. -/
structure NtfsPvt where
  nonResident : Bool
  rlist : List RunlistElement
  here : Nat
  deriving DecidableEq, Repr

/-- The fields of `struct ntfs_sb_info` that `ntfs_next_extent` reads, and the shifts of the
filesystem. A cluster is a whole number of sectors. -/
structure NtfsSb where
  clustShift : Nat
  clustByteShift : Nat
  sectorShift : Nat
  blockShift : Nat
  mftBlk : Nat
  byteShift_eq : clustByteShift = clustShift + sectorShift
  shift_lt : sectorShift < 31

/-! ## The source -/

/-- The loop of `index_inode_setup`, for a number of calls that is enough. -/
def setupLoop (stream : Nat → UInt8) (attrLen : Nat) :
    Nat → Nat → MappingChunk → List RunlistElement → Option (List RunlistElement)
  | 0, _, _, _ => none
  | calls + 1, offset, chunk, rlist =>
    match parseDataRun stream offset attrLen chunk with
    | (true, _, _) => none
    | (false, offset, chunk) =>
      if chunk.flags &&& mapUnallocated ≠ 0 then setupLoop stream attrLen calls offset chunk rlist
      else if chunk.flags &&& mapEnd ≠ 0 then some rlist
      else if chunk.flags &&& mapAllocated ≠ 0 then
        setupLoop stream attrLen calls offset { chunk with vcn := u64 (chunk.vcn + chunk.len) }
          (rlist ++ [⟨chunk.vcn, chunk.lcn, chunk.len⟩])
      else setupLoop stream attrLen calls offset chunk rlist

/-- `index_inode_setup`, for a regular file with a data attribute that is not resident. -/
def indexInodeSetup (stream : Nat → UInt8) (attrLen calls startBlk initializedSize : Nat) :
    Option (Inode NtfsPvt) :=
  match setupLoop stream attrLen calls 0 mappingChunkInit [] with
  | none => none
  | some rlist =>
    if rlist = [] then none
    else some (Inode.fresh (UInt32.ofNat initializedSize) ⟨true, rlist, startBlk⟩)

/-- `ntfs_next_extent`: whether it fails, and the inode it leaves. -/
def ntfsNextExtent (sb : NtfsSb) (inode : Inode NtfsPvt) (lstart : Nat) :
    Bool × Inode NtfsPvt :=
  let secSize := 2 ^ sb.sectorShift
  if inode.pvt.nonResident = false then
    (false, { inode with nextExtent := { inode.nextExtent with
      pstart := u64 ((sb.mftBlk + inode.pvt.here) * 2 ^ sb.blockShift) / 2 ^ sb.sectorShift
      len := u32 (inode.size.toNat + secSize - 1) / 2 ^ sb.sectorShift } })
  else if lstart = 0 ∨ lstart ≥ inode.pvt.here then
    match inode.pvt.rlist with
    | [] => (true, inode)
    | run :: rlist =>
      let bytes := run.len * 2 ^ sb.clustByteShift
      (false, { inode with
        pvt := { inode.pvt with here := u64 bytes / 2 ^ sb.sectorShift, rlist }
        nextExtent := { inode.nextExtent with
          pstart := (run.lcn * 2 ^ sb.clustShift % 2 ^ 64).toNat
          len := u32 (u64 (bytes + secSize - 1) / 2 ^ sb.sectorShift) } })
  else (false, { inode with nextExtent := { inode.nextExtent with pstart := 0 } })

/-- The extents of successive calls, each behind the last one. -/
def walk (sb : NtfsSb) : Nat → Inode NtfsPvt → Nat → List Extent
  | 0, _, _ => []
  | calls + 1, inode, lstart =>
    match ntfsNextExtent sb inode lstart with
    | (true, _) => []
    | (false, inode) =>
      ⟨inode.nextExtent.pstart, lstart, inode.nextExtent.len⟩ ::
        walk sb calls inode (u32 (lstart + inode.nextExtent.len))

/-- Where a sector lies, according to the first extent that holds it. -/
def lookup (extents : List Extent) (s : Nat) : Option (Option Nat) :=
  (extents.find? fun e => e.lstart ≤ s ∧ s < e.lstart + e.len).map fun e => e.phys (s - e.lstart)

/-! ## The sectors of a file -/

/-- The number of sectors of a run. -/
def NtfsSb.sectors (sb : NtfsSb) (r : Run) : Nat := leNat r.len * 2 ^ sb.clustShift

/-- Where the mapping pairs put a sector: nowhere when it lies in a hole. -/
def sectorOf (sb : NtfsSb) (base : Int) : List Run → Nat → Option (Option Nat)
  | [], _ => none
  | r :: rs, s =>
    if s < sb.sectors r then
      some (if r.delta = [] then none else some ((r.start base).toNat * 2 ^ sb.clustShift + s))
    else sectorOf sb (r.start base) rs (s - sb.sectors r)

/-- The runs lie on a volume of some sectors, and their own sectors are counted in 32 bits. -/
def OnVolume (sb : NtfsSb) (total : Nat) (base : Int) : List Run → Prop
  | [] => True
  | r :: rs =>
    (sb.sectors r < 2 ^ 32 ∧ (r.delta ≠ [] → 0 ≤ r.start base ∧
      (r.start base).toNat * 2 ^ sb.clustShift + sb.sectors r ≤ total)) ∧
      OnVolume sb total (r.start base) rs

/-- The runs that begin in front of sector `count` are allocated, and read right. -/
def wholeRuns (sb : NtfsSb) (count : Nat) (base : Int) (pos : Nat) : List Run → Bool
  | [] => true
  | r :: rs =>
    count ≤ pos || (r.delta ≠ [] && r.plain base &&
      wholeRuns sb count (r.start base) (pos + sb.sectors r) rs)

/-- The number of sectors that hold the bytes of a file. -/
def NtfsSb.sectorCount (sb : NtfsSb) (size : UInt32) : Nat :=
  (size.toNat + 2 ^ sb.sectorShift - 1) / 2 ^ sb.sectorShift

/-! ## The list -/

variable {stream : Nat → UInt8} {offset attrLen : Nat} {chunk : MappingChunk} {runs : List Run}
  {sb : NtfsSb} {total : Nat}

/-- The list that is built for the runs behind one that starts at `lcn`. -/
def built (vcn : Nat) (lcn : Int) : List Run → List RunlistElement
  | [] => []
  | r :: rs =>
    if nextLcn lcn r = 0 then built vcn (nextLcn lcn r) rs
    else ⟨vcn, nextLcn lcn r, readLen r.len⟩ ::
      built (u64 (vcn + readLen r.len)) (nextLcn lcn r) rs

theorem setupLoop_eq (hat : At stream offset (encodeRuns runs ++ [0]))
    (hend : offset + (encodeRuns runs).length ≤ attrLen) (hlt : attrLen < 2 ^ 32)
    (rlist : List RunlistElement) :
    setupLoop stream attrLen (runs.length + 1) offset chunk rlist =
      some (rlist ++ built chunk.vcn chunk.lcn runs) := by
  induction runs generalizing offset chunk rlist with
  | nil =>
    obtain ⟨chunk', hparse, hunalloc, -, hflag⟩ :=
      @parseDataRun_end stream offset attrLen chunk hat.cons.1
    rw [List.length_nil, setupLoop, hparse]
    dsimp only
    rw [if_neg (not_not.mpr hunalloc), if_pos hflag, built, List.append_nil]
  | cons r runs ih =>
    rw [encodeRuns_cons, List.append_assoc] at hat
    rw [encodeRuns_cons, List.length_append] at hend
    obtain ⟨chunk', hparse, hvcn, hlen, hlcn, hunalloc, halloc, hflag⟩ :=
      @parseDataRun_run stream offset attrLen chunk r _ hat (by omega)
    have hoff : u32 (offset + r.bytes.length) = offset + r.bytes.length :=
      Nat.mod_eq_of_lt (by omega)
    rw [List.length_cons, setupLoop, hparse]
    dsimp only
    rw [hoff, built, ← hlcn, ← hlen, ← hvcn]
    by_cases h0 : chunk'.lcn = 0
    · rw [if_pos (hunalloc.mpr h0), if_pos h0, ih hat.append.2 (by omega)]
    · rw [if_neg (fun hf => h0 (hunalloc.mp hf)), if_neg (not_not.mpr hflag),
        if_pos (halloc.mpr h0), if_neg h0, ih hat.append.2 (by omega), List.append_assoc]
      rfl

/-! ## The walk -/

/-- The length of a run in sectors, as it is computed. -/
theorem sectors_computed {len : Nat} (h : len * 2 ^ sb.clustShift < 2 ^ 32) :
    u64 (len * 2 ^ sb.clustByteShift) / 2 ^ sb.sectorShift = len * 2 ^ sb.clustShift ∧
      u32 (u64 (len * 2 ^ sb.clustByteShift + 2 ^ sb.sectorShift - 1) / 2 ^ sb.sectorShift) =
        len * 2 ^ sb.clustShift := by
  have hpos : 0 < 2 ^ sb.sectorShift := Nat.pow_pos (by decide)
  have hsec : 2 ^ sb.sectorShift < 2 ^ 31 := Nat.pow_lt_pow_right (by decide) sb.shift_lt
  have hbytes : len * 2 ^ sb.clustByteShift =
      2 ^ sb.sectorShift * (len * 2 ^ sb.clustShift) := by
    rw [sb.byteShift_eq, Nat.pow_add, ← Nat.mul_assoc, Nat.mul_comm]
  have hmul : 2 ^ sb.sectorShift * (len * 2 ^ sb.clustShift) ≤ 2 ^ 31 * 2 ^ 32 :=
    Nat.mul_le_mul (Nat.le_of_lt hsec) (Nat.le_of_lt h)
  rw [hbytes]
  constructor
  · rw [u64_of_lt (by omega), Nat.mul_div_cancel_left _ hpos]
  · rw [u64_of_lt (by omega), Nat.add_sub_assoc hpos, Nat.mul_add_div hpos,
      Nat.div_eq_of_lt (Nat.sub_lt hpos Nat.zero_lt_one), Nat.add_zero, u32_of_lt h]

/-- The call for an allocated run. -/
theorem ntfsNextExtent_run {inode : Inode NtfsPvt} {run : RunlistElement}
    {rlist : List RunlistElement} {lstart : Nat} (hnr : inode.pvt.nonResident = true)
    (hlist : inode.pvt.rlist = run :: rlist) (hhere : lstart = 0 ∨ inode.pvt.here ≤ lstart)
    (hlcn : 0 ≤ run.lcn) (hlen : run.len * 2 ^ sb.clustShift < 2 ^ 32)
    (hdisk : run.lcn.toNat * 2 ^ sb.clustShift < 2 ^ 64) :
    ∃ inode', ntfsNextExtent sb inode lstart = (false, inode') ∧
      inode'.pvt = ⟨true, rlist, run.len * 2 ^ sb.clustShift⟩ ∧
      inode'.nextExtent.pstart = run.lcn.toNat * 2 ^ sb.clustShift ∧
      inode'.nextExtent.len = run.len * 2 ^ sb.clustShift := by
  obtain ⟨hhereEq, hlenEq⟩ := sectors_computed hlen
  have hpstart : (run.lcn * 2 ^ sb.clustShift % 2 ^ 64).toNat =
      run.lcn.toNat * 2 ^ sb.clustShift := by
    obtain ⟨n, hn⟩ := Int.eq_ofNat_of_zero_le hlcn
    rw [hn, Int.toNat_natCast] at hdisk ⊢
    have hcast : ((n : Int) * 2 ^ sb.clustShift) = ((n * 2 ^ sb.clustShift : Nat) : Int) := by
      rw [Int.natCast_mul, Int.natCast_pow]
      rfl
    have hmod : (((n * 2 ^ sb.clustShift : Nat) : Int) % 2 ^ 64) =
        ((n * 2 ^ sb.clustShift % 2 ^ 64 : Nat) : Int) := rfl
    rw [hcast, hmod, Int.toNat_natCast, Nat.mod_eq_of_lt hdisk]
  unfold ntfsNextExtent
  rw [hnr, if_neg Bool.noConfusion, if_pos hhere, hlist]
  refine ⟨_, rfl, ?_, hpstart, hlenEq⟩
  dsimp only
  rw [hhereEq, hnr]

theorem lookup_cons_of_mem {e : Extent} {extents : List Extent} {s : Nat}
    (h : e.lstart ≤ s ∧ s < e.lstart + e.len) :
    lookup (e :: extents) s = some (e.phys (s - e.lstart)) := by
  have hp : decide (e.lstart ≤ s ∧ s < e.lstart + e.len) = true := decide_eq_true h
  rw [lookup, List.find?_cons, hp]
  rfl

theorem lookup_cons_of_not_mem {e : Extent} {extents : List Extent} {s : Nat}
    (h : ¬(e.lstart ≤ s ∧ s < e.lstart + e.len)) : lookup (e :: extents) s = lookup extents s := by
  have hp : decide (e.lstart ≤ s ∧ s < e.lstart + e.len) = false := decide_eq_false h
  rw [lookup, lookup, List.find?_cons, hp]

/-- A run that is allocated and read right is kept as it is. -/
theorem built_cons {base : Int} {vcn : Nat} {r : Run} (htotal : total < 2 ^ 63)
    (hvol : OnVolume sb total base (r :: runs)) (hne : r.delta ≠ [])
    (hplain : r.plain base = true) :
    built vcn base (r :: runs) = ⟨vcn, r.start base, leNat r.len⟩ ::
      built (u64 (vcn + leNat r.len)) (r.start base) runs := by
  rw [Run.plain, Bool.and_eq_true, if_neg hne, decide_eq_true_eq] at hplain
  obtain ⟨hlen, hstart⟩ := hplain
  obtain ⟨h0, hfit⟩ := hvol.1.2 hne
  have hpow : 1 ≤ 2 ^ sb.clustShift := Nat.pow_pos (by decide)
  have hclust : (r.start base).toNat ≤ (r.start base).toNat * 2 ^ sb.clustShift :=
    Nat.le_mul_of_pos_right _ hpow
  have hlcn : nextLcn base r = r.start base := by
    have hrange : r.start base < 2 ^ 63 := by omega
    rw [nextLcn, if_neg hne]
    rw [Run.start, if_neg hne] at h0 hrange ⊢
    exact i64_of_range (by omega) hrange
  rw [built, hlcn, if_neg hstart, readLen_plain r.len_le hlen]

/-- The walk maps the sectors of runs that are allocated and read right. -/
theorem lookup_walk (htotal : total < 2 ^ 63) {count : Nat} (hcount : count < 2 ^ 32)
    {base : Int} {pos vcn : Nat} {inode : Inode NtfsPvt} (hvol : OnVolume sb total base runs)
    (hwhole : wholeRuns sb count base pos runs = true) (hnr : inode.pvt.nonResident = true)
    (hlist : inode.pvt.rlist = built vcn base runs) (hhere : pos = 0 ∨ inode.pvt.here ≤ pos)
    {s : Nat} (hs : pos ≤ s) (hsc : s < count) :
    lookup (walk sb runs.length inode pos) s = sectorOf sb base runs (s - pos) := by
  induction runs generalizing base pos vcn inode with
  | nil => rfl
  | cons r runs ih =>
    simp only [wholeRuns, Bool.or_eq_true, Bool.and_eq_true, decide_eq_true_eq] at hwhole
    rcases hwhole with hle | ⟨⟨hne, hplain⟩, hrest⟩
    · omega
    rw [built_cons htotal hvol hne hplain] at hlist
    obtain ⟨⟨hsectors, hin⟩, hvolRest⟩ := hvol
    obtain ⟨h0, hfit⟩ := hin hne
    obtain ⟨inode', hnext, hpvt, hp, hl⟩ := ntfsNextExtent_run hnr hlist hhere h0 hsectors
      (Nat.lt_of_le_of_lt (Nat.le_trans (Nat.le_add_right _ _) hfit) (htotal.trans (by decide)))
    rw [List.length_cons, walk, hnext]
    dsimp only
    rw [hp, hl]
    by_cases hhit : s < pos + sb.sectors r
    · rw [lookup_cons_of_mem ⟨hs, hhit⟩, sectorOf, if_pos (by omega), if_neg hne, Extent.phys]
      dsimp only
      rw [if_neg (by rw [extentZero]; omega)]
    · have hoff : u32 (pos + leNat r.len * 2 ^ sb.clustShift) = pos + sb.sectors r := by
        change u32 (pos + sb.sectors r) = _
        exact u32_of_lt (by omega)
      rw [lookup_cons_of_not_mem (fun h => hhit h.2), hoff, sectorOf, if_neg (by omega),
        Nat.sub_sub]
      refine @ih _ _ (u64 (vcn + leNat r.len)) inode' hvolRest hrest ?_ ?_ ?_ (by omega)
      · rw [hpvt]
      · rw [hpvt]
      · right
        rw [hpvt]
        exact Nat.le_add_left _ _

/-- With clusters of more than one sector, a call does not make an extent of zeros. -/
theorem ntfsNextExtent_pstart_ne {inode inode' : Inode NtfsPvt} {lstart : Nat}
    (hshift : 0 < sb.clustShift) (hnr : inode.pvt.nonResident = true)
    (hnext : ntfsNextExtent sb inode lstart = (false, inode')) :
    inode'.nextExtent.pstart ≠ extentZero ∧ inode'.pvt.nonResident = true := by
  have heven : ∀ lcn : Int, (lcn * 2 ^ sb.clustShift % 2 ^ 64).toNat ≠ extentZero := by
    intro lcn heq
    obtain ⟨k, hk⟩ := Nat.exists_eq_succ_of_ne_zero hshift.ne'
    rw [hk, Int.pow_succ, ← Int.mul_assoc, extentZero] at heq
    omega
  rw [ntfsNextExtent, hnr, if_neg Bool.noConfusion] at hnext
  split_ifs at hnext with hcond
  · cases hlist : inode.pvt.rlist with
    | nil =>
      rw [hlist] at hnext
      exact Bool.noConfusion (congrArg Prod.fst hnext : true = false)
    | cons run rlist =>
      rw [hlist] at hnext
      rw [← (Prod.mk.inj hnext).2]
      exact ⟨heven run.lcn, hnr⟩
  · rw [← (Prod.mk.inj hnext).2]
    exact ⟨Nat.ne_of_lt (show 0 < extentZero by decide), hnr⟩

/-- With clusters of more than one sector, no extent is one of zeros. -/
theorem walk_pstart_ne {calls lstart : Nat} {inode : Inode NtfsPvt} (hshift : 0 < sb.clustShift)
    (hnr : inode.pvt.nonResident = true) :
    ∀ e ∈ walk sb calls inode lstart, e.pstart ≠ extentZero := by
  induction calls generalizing inode lstart with
  | zero => exact fun _ hmem => absurd hmem List.not_mem_nil
  | succ calls ih =>
    obtain ⟨failed, inode', hnext⟩ : ∃ failed inode',
      ntfsNextExtent sb inode lstart = (failed, inode') := ⟨_, _, rfl⟩
    rw [walk, hnext]
    cases failed with
    | true => exact fun _ hmem => absurd hmem List.not_mem_nil
    | false =>
      obtain ⟨hpstart, hnr'⟩ := ntfsNextExtent_pstart_ne hshift hnr hnext
      intro e hmem
      rcases List.mem_cons.mp hmem with heq | hmem
      · rw [heq]
        exact hpstart
      · exact ih hnr' e hmem

theorem lookup_ne_zero {extents : List Extent} (h : ∀ e ∈ extents, e.pstart ≠ extentZero)
    (s : Nat) : lookup extents s ≠ some none := by
  unfold lookup
  cases hfind : extents.find? fun e => e.lstart ≤ s ∧ s < e.lstart + e.len with
  | none => exact fun hf => nomatch hf
  | some e =>
    unfold Extent.phys
    rw [Option.map_some, if_neg (h e (List.mem_of_find?_eq_some hfind))]
    exact fun hf => nomatch hf

/-- Where a sector of the file is looked for: in the extents of calls from its first sector on. -/
def mapped (sb : NtfsSb) (stream : Nat → UInt8)
    (attrLen startBlk initializedSize calls s : Nat) : Option (Option Nat) :=
  (indexInodeSetup stream attrLen (calls + 1) startBlk initializedSize).bind
    fun inode => lookup (walk sb calls inode 0) s

theorem sectorCount_lt (sb : NtfsSb) (size : UInt32) : sb.sectorCount size < 2 ^ 32 := by
  have hpos : 0 < 2 ^ sb.sectorShift := Nat.pow_pos (by decide)
  have hsize := size.toNat_lt
  rw [NtfsSb.sectorCount, Nat.div_lt_iff_lt_mul hpos]
  have hmul : 2 ^ 32 - 1 + 2 ^ sb.sectorShift ≤ 2 ^ 32 * 2 ^ sb.sectorShift := by
    obtain ⟨c, hc⟩ := Nat.exists_eq_add_of_lt hpos
    omega
  omega

/-- The sectors of a file whose runs are allocated and read right, as far as they begin inside of
it, lie where the mapping pairs put them. With clusters of more than one sector a hole is enough
for this to fail, as no sector is ever mapped to zeros. -/
theorem ntfs_maps_file (sb : NtfsSb) (total : Nat) (stream : Nat → UInt8)
    (attrLen startBlk initializedSize : Nat) (runs : List Run)
    (hat : At stream 0 (encodeRuns runs ++ [0])) (hend : (encodeRuns runs).length ≤ attrLen)
    (hlt : attrLen < 2 ^ 32) (htotal : total < 2 ^ 63) (hvol : OnVolume sb total 0 runs) :
    (wholeRuns sb (sb.sectorCount (UInt32.ofNat initializedSize)) 0 0 runs = true →
      ∀ s < sb.sectorCount (UInt32.ofNat initializedSize),
        mapped sb stream attrLen startBlk initializedSize runs.length s = sectorOf sb 0 runs s) ∧
    (0 < sb.clustShift →
      (∀ s < sb.sectorCount (UInt32.ofNat initializedSize),
        mapped sb stream attrLen startBlk initializedSize runs.length s = sectorOf sb 0 runs s) →
      ∀ s < sb.sectorCount (UInt32.ofNat initializedSize), sectorOf sb 0 runs s ≠ some none) := by
  have hend' : 0 + (encodeRuns runs).length ≤ attrLen := by omega
  have hsetup := @setupLoop_eq stream 0 attrLen mappingChunkInit runs hat hend' hlt []
  rw [List.nil_append] at hsetup
  constructor
  · intro hwhole s hs
    rw [mapped, indexInodeSetup, hsetup]
    dsimp only
    split_ifs with hnil
    · -- Without a run in the list there is no run at all.
      cases runs with
      | nil => rfl
      | cons r runs =>
        simp only [wholeRuns, Bool.or_eq_true, Bool.and_eq_true, decide_eq_true_eq] at hwhole
        rcases hwhole with hle | ⟨⟨hne, hplain⟩, -⟩
        · omega
        · change built 0 0 (r :: runs) = [] at hnil
          rw [built_cons htotal hvol hne hplain] at hnil
          exact absurd hnil (List.cons_ne_nil _ _)
    · exact lookup_walk htotal (sectorCount_lt sb _) hvol hwhole rfl rfl (Or.inl rfl)
        (Nat.zero_le s) hs
  · intro hshift hall s hs heq
    have hmapped := (hall s hs).trans heq
    rw [mapped, indexInodeSetup, hsetup] at hmapped
    dsimp only at hmapped
    split_ifs at hmapped with hnil
    · exact nomatch hmapped
    · exact lookup_ne_zero (walk_pstart_ne hshift rfl) s hmapped

/-! ## Examples -/

/-- Sectors of 512 bytes, in clusters of eight. -/
def sampleSb : NtfsSb := ⟨3, 12, 9, 12, 32, rfl, usualShift_lt⟩

/-- The sample without its hole. -/
def solidRuns : List Run :=
  [shortRun 4 100, shortRun 8 50]

theorem ntfs_maps_file_sample :
    (wholeRuns sampleSb (sampleSb.sectorCount (UInt32.ofNat 49000)) 0 0 solidRuns = true →
      ∀ s < sampleSb.sectorCount (UInt32.ofNat 49000),
        mapped sampleSb (streamOf solidRuns) 7 0 49000 2 s = sectorOf sampleSb 0 solidRuns s) ∧
    (0 < sampleSb.clustShift →
      (∀ s < sampleSb.sectorCount (UInt32.ofNat 49000),
        mapped sampleSb (streamOf solidRuns) 7 0 49000 2 s = sectorOf sampleSb 0 solidRuns s) →
      ∀ s < sampleSb.sectorCount (UInt32.ofNat 49000),
        sectorOf sampleSb 0 solidRuns s ≠ some none) :=
  ntfs_maps_file sampleSb 2000 (streamOf solidRuns) 7 0 49000 solidRuns (streamOf_at solidRuns)
    (by decide) (by decide) (by decide)
    ⟨⟨by decide, fun _ => by decide⟩, ⟨by decide, fun _ => by decide⟩, trivial⟩

/-- The first sector of the hole is read from the clusters of the run in front of it. -/
theorem ntfs_fills_hole : ¬∀ (sb : NtfsSb) (total : Nat) (stream : Nat → UInt8)
    (attrLen startBlk initializedSize : Nat) (runs : List Run),
    At stream 0 (encodeRuns runs ++ [0]) → (encodeRuns runs).length ≤ attrLen →
      attrLen < 2 ^ 32 → total < 2 ^ 63 → OnVolume sb total 0 runs →
        ∀ s < sb.sectorCount (UInt32.ofNat initializedSize),
          mapped sb stream attrLen startBlk initializedSize runs.length s =
            sectorOf sb 0 runs s := by
  intro h
  have hall := h sampleSb 2000 (streamOf sampleRuns) 9 0 114688 sampleRuns (streamOf_at sampleRuns)
    (by decide) (by decide) (by decide)
    ⟨⟨by decide, fun _ => by decide⟩, ⟨by decide, fun hne => absurd rfl hne⟩,
      ⟨by decide, fun _ => by decide⟩, trivial⟩ 32 (by decide)
  have hread : mapped sampleSb (streamOf sampleRuns) 9 0 114688 3 32 = some (some 800) := by
    decide +kernel
  exact absurd (hread.symm.trans hall) (by decide)

end Liigboot.Fs.Ntfs
