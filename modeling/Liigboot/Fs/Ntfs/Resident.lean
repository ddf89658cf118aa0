import Liigboot.Fs.LoadMemory
import Liigboot.Fs.Ntfs.AttributeLookup
import Liigboot.Fs.Ntfs.IndexLookup

/-!
# Reading a resident file

`ntfs_getfssec` has the generic operation read some sectors of the MFT and advance the file, and
then stores the value of the attribute over them: all of it, whatever was asked for. A file is read
right when the first call that asks for sectors asks for enough of them.
-/

namespace Liigboot.Fs.Ntfs

/-! ## The source -/

/-- `attr->data.resident.value_offset`. -/
def valueOffset (mrec : List UInt8) (attr : Nat) : Nat := readLe mrec (attr + 20) 2

/-- A mounted NTFS volume, with `ntfs_next_extent`. -/
def ntfsInfo (sb : NtfsSb) (disk : Nat → List UInt8)
    (hdisk : ∀ p, (disk p).length = 2 ^ sb.sectorShift) : Fs.FsInfo NtfsPvt where
  nextExtent inode lstart :=
    let (error, next) := ntfsNextExtent sb inode lstart
    ⟨error, next.nextExtent.pstart, next.nextExtent.len, next.pvt⟩
  sectorShift := sb.sectorShift
  disk := disk
  shift_lt := sb.shift_lt
  disk_length := hdisk

/-- `index_inode_setup`, for a regular file with a data attribute that is resident. -/
def residentInodeSetup (v : Volume) (mftNo startBlk : Nat) : Option (Inode NtfsPvt) :=
  (v.mftRecordLookup mftNo).bind fun lmrec =>
    (v.ntfsAttrLookup atData lmrec lmrec).bind fun (mrec, attr) =>
      if nonResident mrec attr = 0 then
        some (Inode.fresh (UInt32.ofNat (valueLen mrec attr)) ⟨false, [], startBlk⟩)
      else none

/-- It is what the whole function does for such a file. -/
theorem indexInodeSetup_resident {v : Volume} {mftNo : Nat} {lmrec : List UInt8}
    {inode : Inode NtfsPvt} (hlookup : v.mftRecordLookup mftNo = some lmrec)
    (hmode : isDirectory lmrec = false)
    (h : residentInodeSetup v mftNo (v.startBlk mftNo) = some inode) :
    v.indexInodeSetup mftNo = some ⟨mftNo, seqNo lmrec, false, inode⟩ := by
  rw [residentInodeSetup, hlookup, Option.bind_some] at h
  obtain ⟨⟨mrec, attr⟩, hattr, hset⟩ := Option.bind_eq_some_iff.mp h
  dsimp only at hset
  split_ifs at hset with hres
  obtain rfl := Option.some.inj hset
  rw [Volume.indexInodeSetup, hlookup]
  dsimp only
  rw [hmode, if_neg Bool.false_ne_true, hattr]
  dsimp only
  rw [if_pos hres]

/-- What a call leaves: what it returns, with the state of the file, and the bytes that it stored
from the start of the buffer on. -/
structure NtfsGot where
  got : Got NtfsPvt
  stored : List UInt8

/-- `ntfs_getfssec`. There is no result where it copies bytes behind the record. -/
def ntfsGetfssec (v : Volume) (fs : Fs.FsInfo NtfsPvt) (fuel mftNo : Nat) (inode : Inode NtfsPvt)
    (offset sectors : Nat) : Option NtfsGot :=
  (genericGetfssec fs fuel inode offset sectors).bind fun got =>
    let buf := readBuffer fs fuel inode offset sectors
    if got.data = [] then some ⟨got, buf⟩
    else if inode.pvt.nonResident then some ⟨got, buf⟩
    else
      match v.mftRecordLookup mftNo with
      | none => some ⟨{ got with data := [] }, buf⟩
      | some lmrec =>
        match v.ntfsAttrLookup atData lmrec lmrec with
        | none => some ⟨{ got with data := [] }, buf⟩
        | some (mrec, attr) =>
          let p := attr + valueOffset mrec attr
          if mrec.length < p + inode.size.toNat then none
          else
            let value := (mrec.drop p).take inode.size.toNat
            some ⟨{ got with data := value }, value ++ buf.drop value.length⟩

/-- A sequence of calls. -/
def ntfsReads (v : Volume) (fs : Fs.FsInfo NtfsPvt) (fuel mftNo : Nat) :
    List Nat → Inode NtfsPvt → Nat → Option (List NtfsGot)
  | [], _, _ => some []
  | n :: requests, inode, offset =>
    (ntfsGetfssec v fs fuel mftNo inode offset n).bind fun r =>
      (ntfsReads v fs fuel mftNo requests r.got.inode r.got.offset).map (r :: ·)

/-! ## Resident files -/

/-- A file whose data attribute is resident: the value lies in the record. The size of a record is
a positive `int`. -/
structure ResidentFile (v : Volume) where
  mftNo : Nat
  lmrec : List UInt8
  mrec : List UInt8
  attr : Nat
  lookup : v.mftRecordLookup mftNo = some lmrec
  attrLookup : v.ntfsAttrLookup atData lmrec lmrec = some (mrec, attr)
  resident : nonResident mrec attr = 0
  value_le : attr + valueOffset mrec attr + valueLen mrec attr ≤ mrec.length
  record_lt : mrec.length < 2 ^ 31

variable {v : Volume} {f : ResidentFile v} {fs : Fs.FsInfo NtfsPvt} {fuel offset startBlk : Nat}
  {inode : Inode NtfsPvt} {sb : NtfsSb} {disk : Nat → List UInt8}
  {hdisk : ∀ p, (disk p).length = 2 ^ sb.sectorShift}

/-- The number of bytes of the value. -/
def ResidentFile.size (f : ResidentFile v) : Nat := valueLen f.mrec f.attr

def ResidentFile.value (f : ResidentFile v) : List UInt8 :=
  (f.mrec.drop (f.attr + valueOffset f.mrec f.attr)).take f.size

/-- The value has as many bytes as its size says. -/
theorem ResidentFile.length_value (f : ResidentFile v) : f.value.length = f.size := by
  have hle := f.value_le
  rw [value, List.length_take, List.length_drop, size]
  omega

/-- A resident file is smaller than 2 GiB. -/
theorem ResidentFile.size_lt (f : ResidentFile v) : f.size < 2 ^ 31 := by
  have hle := f.value_le
  have hlt := f.record_lt
  rw [size]
  omega

/-- The inode of the file when it is opened. -/
def ResidentFile.opened (f : ResidentFile v) (startBlk : Nat) : Inode NtfsPvt :=
  Inode.fresh (UInt32.ofNat f.size) ⟨false, [], startBlk⟩

/-- What the set-up makes of a resident file. -/
theorem ResidentFile.inodeSetup (f : ResidentFile v) (startBlk : Nat) :
    residentInodeSetup v f.mftNo startBlk = some (f.opened startBlk) := by
  rw [residentInodeSetup, f.lookup, Option.bind_some, f.attrLookup, Option.bind_some]
  exact if_pos f.resident

theorem ResidentFile.toNat_size (f : ResidentFile v) (startBlk : Nat) :
    (f.opened startBlk).size.toNat = f.size := by
  have hlt : f.size < UInt32.size := Nat.lt_trans f.size_lt (by decide)
  exact UInt32.toNat_ofNat_of_lt' hlt

/-- What is promised of the results of some calls: each one returns and stores no more bytes than it
was asked for, and together they return the value, as far as they reach. -/
def ResultsOk (fs : Fs.FsInfo NtfsPvt) (value : List UInt8) (requests : List Nat)
    (results : List NtfsGot) : Prop :=
  List.Forall₂ (fun n r => r.got.data.length ≤ n * fs.sectorSize ∧
    r.stored.length ≤ n * fs.sectorSize) requests results ∧
  (results.flatMap fun r => r.got.data) = value.take (requests.sum * fs.sectorSize)

/-- What is promised of a sequence of calls on the file behind opening it. -/
def ReadsResident (fs : Fs.FsInfo NtfsPvt) (f : ResidentFile v) (startBlk : Nat)
    (requests : List Nat) : Prop :=
  ∃ N, ∀ fuel ≥ N, ∃ inode results, residentInodeSetup v f.mftNo startBlk = some inode ∧
    ntfsReads v fs fuel f.mftNo requests inode 0 = some results ∧
    ResultsOk fs f.value requests results

/-! ## One call -/

/-- Nothing is done when nothing is asked for, or nothing is left. -/
theorem ntfsGetfssec_nothing (n : Nat) (h : n = 0 ∨ offset = inode.size.toNat) :
    ntfsGetfssec v fs fuel f.mftNo inode offset n = some ⟨⟨[], inode, offset, none⟩, []⟩ := by
  have hmin : min n (u32 (u32 (inode.size.toNat + 2 ^ 32 - offset) + fs.sectorSize - 1) /
      fs.sectorSize) = 0 := by
    rcases h with rfl | rfl
    · exact Nat.zero_min _
    · have hpos := fs.sectorSize_pos
      have hlt := fs.sectorSize_lt
      have hzero : u32 (inode.size.toNat + 2 ^ 32 - inode.size.toNat) = 0 := by
        rw [Nat.add_sub_cancel_left]
        rfl
      rw [hzero, u32_of_lt (by omega), Nat.div_eq_of_lt (by omega)]
      exact Nat.min_zero _
  have hgot : genericGetfssec fs fuel inode offset n = some ⟨[], inode, offset, none⟩ := by
    rw [genericGetfssec, hmin]
    exact if_pos rfl
  have hbuf : readBuffer fs fuel inode offset n = [] := by
    rw [readBuffer, hmin]
    exact if_pos rfl
  rw [ntfsGetfssec, hgot, Option.bind_some]
  dsimp only
  rw [if_pos rfl, hbuf]

/-- All calls at the end of the file. -/
theorem ntfsReads_end (requests : List Nat) (h : offset = inode.size.toNat) :
    ntfsReads v fs fuel f.mftNo requests inode offset =
      some (requests.map fun _ => ⟨⟨[], inode, offset, none⟩, []⟩) := by
  induction requests with
  | nil => rfl
  | cons n requests ih =>
    rw [ntfsReads, ntfsGetfssec_nothing n (Or.inr h), Option.bind_some, ih]
    rfl

/-- The extent that the driver returns for a resident file: sectors of the MFT. -/
def residentExtent (sb : NtfsSb) (inode : Inode NtfsPvt) : Extent :=
  ⟨u64 ((sb.mftBlk + inode.pvt.here) * 2 ^ sb.blockShift) / 2 ^ sb.sectorShift, 0,
    u32 (inode.size.toNat + 2 ^ sb.sectorShift - 1) / 2 ^ sb.sectorShift⟩

/-- The first read of sectors finds the extent and reads from its start. -/
theorem readLoop_resident {m : Nat} (hpos : 0 < m)
    (hle : m ≤ (residentExtent sb (f.opened startBlk)).len) :
    ∃ inode', inode'.size = (f.opened startBlk).size ∧
      readLoop (ntfsInfo sb disk hdisk) (fuel + 3) (f.opened startBlk) m 0 [] =
        some (inode', u32 (0 + u32 (m * (ntfsInfo sb disk hdisk).sectorSize)),
          readChunk (ntfsInfo sb disk hdisk) (residentExtent sb (f.opened startBlk)) m) := by
  let e := residentExtent sb (f.opened startBlk)
  have hlook : lookahead (ntfsInfo sb disk hdisk) (fuel + 2) (f.opened startBlk) m =
      some ({ f.opened startBlk with thisExtent := e, nextExtent := e }, m) := by
    have hnext : getNextExtent (ntfsInfo sb disk hdisk) (f.opened startBlk) =
        { f.opened startBlk with nextExtent := e } := rfl
    have hthis : (f.opened startBlk).thisExtent.len = 0 := rfl
    have hnone : (f.opened startBlk).nextExtent.len = 0 := rfl
    rw [lookahead, if_neg (show ¬m ≤ (f.opened startBlk).thisExtent.len by omega),
      if_pos (Or.inl hnone), hnext]
    dsimp only
    have hsome : ¬e.len = 0 := Nat.ne_of_gt (Nat.lt_of_lt_of_le hpos hle)
    rw [if_pos hthis, if_neg hsome, lookahead, if_pos hle]
  rw [readLoop, if_neg (by omega), hlook]
  dsimp only
  rw [Nat.min_eq_left hle, Nat.sub_self, readLoop, if_pos rfl, List.nil_append]
  refine ⟨_, ?_, rfl⟩
  rfl

/-- The sectors of the value. -/
theorem residentExtent_len (f : ResidentFile v) (sb : NtfsSb) (startBlk : Nat) :
    (residentExtent sb (f.opened startBlk)).len =
      (f.size + 2 ^ sb.sectorShift - 1) / 2 ^ sb.sectorShift := by
  have hsize := f.size_lt
  have hsec : 2 ^ sb.sectorShift < 2 ^ 31 := Nat.pow_lt_pow_right (by decide) sb.shift_lt
  rw [residentExtent, f.toNat_size, u32_of_lt (by omega)]

/-- The generic operation reads as many sectors of the MFT as the value would have. -/
theorem genericGetfssec_resident {n : Nat} (hsize : 0 < f.size) (hn : 0 < n) :
    ∃ g, genericGetfssec (ntfsInfo sb disk hdisk) (fuel + 3) (f.opened startBlk) 0 n = some g ∧
      g.data ≠ [] ∧ g.inode.size = (f.opened startBlk).size ∧
      g.offset = min (n * (ntfsInfo sb disk hdisk).sectorSize) f.size := by
  have hlt := f.size_lt
  have hpos := (ntfsInfo sb disk hdisk).sectorSize_pos
  have hsec := (ntfsInfo sb disk hdisk).sectorSize_lt
  have hlen : (residentExtent sb (f.opened startBlk)).len =
      (f.size + (ntfsInfo sb disk hdisk).sectorSize - 1) / (ntfsInfo sb disk hdisk).sectorSize :=
    residentExtent_len f sb startBlk
  have hread := fun m => @readLoop_resident v f fuel startBlk sb disk hdisk m
  have hleft : u32 ((f.opened startBlk).size.toNat + 2 ^ 32 - 0) = f.size := by
    rw [f.toNat_size, Nat.sub_zero, u32, Nat.add_mod_right, Nat.mod_eq_of_lt (by omega)]
  have hchunk := fun m => @length_readChunk _ (ntfsInfo sb disk hdisk)
    (residentExtent sb (f.opened startBlk)) m
  rw [genericGetfssec, hleft]
  generalize (ntfsInfo sb disk hdisk).sectorSize = S at hpos hsec hlen hread hchunk ⊢
  generalize (residentExtent sb (f.opened startBlk)).len = L at hlen hread ⊢
  rw [u32_of_lt (by omega), ← hlen]
  -- the sectors that are read hold the value, and fit 32 bits
  have hupper : L * S ≤ f.size + S - 1 := hlen ▸ Nat.div_mul_le_self _ _
  have hlower : f.size ≤ L * S := by
    have hround : f.size + S - 1 < _ := Nat.lt_div_mul_add hpos
    rw [hlen]
    omega
  have hL : 0 < L := by
    by_contra hzero
    rw [Nat.eq_zero_of_not_pos hzero, Nat.zero_mul] at hlower
    omega
  have hmS : min n L * S ≤ L * S := Nat.mul_le_mul_right S (Nat.min_le_right n L)
  have hmpos : 0 < min n L * S := Nat.mul_pos (by omega) hpos
  obtain ⟨inode', hinode, hrun⟩ := hread (min n L) (by omega) (Nat.min_le_right n L)
  dsimp only
  rw [if_neg (by omega), Nat.zero_div]
  have hseek : seekExtent (f.opened startBlk) 0 = f.opened startBlk := rfl
  rw [hseek, hrun, Nat.zero_add, u32_of_lt (show min n L * S < 2 ^ 32 by omega),
    u32_of_lt (show min n L * S < 2 ^ 32 by omega)]
  refine ⟨_, rfl, ?_, hinode, ?_⟩
  · rw [← List.length_pos_iff, List.length_take, hchunk _ (by omega)]
    omega
  · dsimp only
    rw [Nat.zero_add, u32_of_lt (by omega)]
    rcases Nat.le_total n L with hle | hle
    · rw [Nat.min_eq_left hle]
    · have := Nat.mul_le_mul_right S hle
      rw [Nat.min_eq_right hle]
      omega

/-- The first call that asks for sectors returns the value, and moves on by the sectors that it
was asked for. -/
theorem ntfsGetfssec_first {n : Nat} (hsize : 0 < f.size) (hn : 0 < n) :
    ∃ r, ntfsGetfssec v (ntfsInfo sb disk hdisk) (fuel + 3) f.mftNo (f.opened startBlk) 0 n =
        some r ∧ r.got.data = f.value ∧
      r.stored.length = max f.size
        (readBuffer (ntfsInfo sb disk hdisk) (fuel + 3) (f.opened startBlk) 0 n).length ∧
      r.got.inode.size = (f.opened startBlk).size ∧
      r.got.offset = min (n * (ntfsInfo sb disk hdisk).sectorSize) f.size := by
  obtain ⟨g, hg, hdata, hinode, hoffset⟩ :=
    @genericGetfssec_resident v f fuel startBlk sb disk hdisk n hsize hn
  have hvalue : (f.mrec.drop (f.attr + valueOffset f.mrec f.attr)).take
      (f.opened startBlk).size.toNat = f.value := by
    rw [f.toNat_size]
    rfl
  obtain ⟨buf, hbuf⟩ : ∃ buf,
      readBuffer (ntfsInfo sb disk hdisk) (fuel + 3) (f.opened startBlk) 0 n = buf := ⟨_, rfl⟩
  refine ⟨⟨{ g with data := f.value }, f.value ++ buf.drop f.value.length⟩, ?_, rfl, ?_, hinode,
    hoffset⟩
  · have hle : ¬f.mrec.length < f.attr + valueOffset f.mrec f.attr +
        (f.opened startBlk).size.toNat := by
      rw [f.toNat_size]
      exact Nat.not_lt.mpr f.value_le
    rw [ntfsGetfssec, hg, Option.bind_some, hbuf]
    dsimp only
    rw [if_neg hdata, if_neg (show ¬(f.opened startBlk).pvt.nonResident = true from nofun),
      f.lookup]
    dsimp only
    rw [f.attrLookup]
    dsimp only
    rw [if_neg hle, hvalue]
  · rw [hbuf, List.length_append, List.length_drop, f.length_value]
    omega

/-! ## A sequence of calls -/

/-- Calls that do nothing. -/
theorem forall₂_nothing (requests : List Nat) (inode : Inode NtfsPvt) (offset : Nat) :
    List.Forall₂ (fun n r => r.got.data.length ≤ n * fs.sectorSize ∧
      r.stored.length ≤ n * fs.sectorSize) requests
      (requests.map fun _ => NtfsGot.mk ⟨[], inode, offset, none⟩ []) :=
  List.forall₂_map_right_iff.mpr (List.forall₂_same.mpr fun _ _ =>
    ⟨Nat.zero_le _, Nat.zero_le _⟩)

/-- Requests that give nothing give nothing together. -/
theorem flatMap_nothing (requests : List Nat) (inode : Inode NtfsPvt) (offset : Nat) :
    ((requests.map fun _ => NtfsGot.mk ⟨[], inode, offset, none⟩ []).flatMap
      fun r => r.got.data) = [] := by
  rw [List.flatMap_map, List.flatMap_eq_nil_iff]
  exact fun _ _ => rfl

/-- The first call that asks for sectors decides. -/
theorem ntfsReads_iff (requests : List Nat) :
    (∃ results, ntfsReads v (ntfsInfo sb disk hdisk) (fuel + 3) f.mftNo requests
        (f.opened startBlk) 0 = some results ∧
      ResultsOk (ntfsInfo sb disk hdisk) f.value requests results) ↔
      ∀ n, requests.find? (0 < ·) = some n →
        f.size ≤ n * (ntfsInfo sb disk hdisk).sectorSize := by
  induction requests with
  | nil =>
    refine ⟨fun _ n h => (nomatch h), fun _ => ⟨[], rfl, .nil, ?_⟩⟩
    rw [List.sum_nil, Nat.zero_mul, List.take_zero]
    rfl
  | cons n requests ih =>
    by_cases hn : 0 < n
    · rw [List.find?_cons_of_pos (by simpa using hn)]
      by_cases hsize : 0 < f.size
      · obtain ⟨r, hfirst, hdata, hstored, hinode, hoffset⟩ :=
          @ntfsGetfssec_first v f fuel startBlk sb disk hdisk n hsize hn
        rw [ntfsReads, hfirst, Option.bind_some]
        constructor
        · rintro ⟨results, hreads, hforall, -⟩ m hm
          obtain rfl := Option.some.inj hm
          obtain ⟨rest, -, rfl⟩ := Option.map_eq_some_iff.mp hreads
          obtain ⟨⟨hlen, -⟩, -⟩ := List.forall₂_cons.mp hforall
          rwa [hdata, f.length_value] at hlen
        · intro hcovers
          have hle := hcovers n rfl
          rw [Nat.min_eq_right hle] at hoffset
          have hend : r.got.offset = r.got.inode.size.toNat := by
            rw [hoffset, hinode, f.toNat_size]
          refine ⟨_, congrArg (Option.map _) (ntfsReads_end requests hend),
            .cons ⟨?_, ?_⟩ (forall₂_nothing requests _ _), ?_⟩
          · rw [hdata, f.length_value]
            exact hle
          · rw [hstored]
            exact Nat.max_le.mpr ⟨hle, length_readBuffer_le⟩
          · rw [List.flatMap_cons, flatMap_nothing, List.append_nil, hdata, List.take_of_length_le]
            rw [f.length_value, List.sum_cons, Nat.add_mul]
            omega
      · have hzero : 0 = (f.opened startBlk).size.toNat := by
          rw [f.toNat_size]
          omega
        have hvalue : f.value = [] := List.eq_nil_of_length_eq_zero (by rw [f.length_value]; omega)
        refine ⟨fun _ m _ => by omega, fun _ => ⟨_, ntfsReads_end _ hzero,
          forall₂_nothing _ _ _, ?_⟩⟩
        rw [flatMap_nothing, hvalue, List.take_nil]
    · obtain rfl : n = 0 := by omega
      rw [List.find?_cons_of_neg (by decide), ← ih, ntfsReads,
        ntfsGetfssec_nothing 0 (Or.inl rfl), Option.bind_some]
      dsimp only
      constructor
      · rintro ⟨results, hreads, hforall, hdata⟩
        obtain ⟨rest, hrest, rfl⟩ := Option.map_eq_some_iff.mp hreads
        refine ⟨rest, hrest, (List.forall₂_cons.mp hforall).2, ?_⟩
        rwa [List.flatMap_cons, List.nil_append, List.sum_cons, Nat.zero_add] at hdata
      · rintro ⟨rest, hrest, hforall, hdata⟩
        refine ⟨_, congrArg (Option.map _) hrest, .cons ⟨Nat.zero_le _, Nat.zero_le _⟩ hforall, ?_⟩
        rw [List.flatMap_cons, List.nil_append, List.sum_cons, Nat.zero_add]
        exact hdata

/-- For every resident file and every sequence of calls: each one keeps to the sectors that it was
asked for, and the value is returned as it is, exactly when the first call that asks for sectors
asks for as many as the value has. -/
theorem ntfs_getfssec_resident_iff (f : ResidentFile v) (sb : NtfsSb) (disk : Nat → List UInt8)
    (hdisk : ∀ p, (disk p).length = 2 ^ sb.sectorShift) (startBlk : Nat) (requests : List Nat) :
    ReadsResident (ntfsInfo sb disk hdisk) f startBlk requests ↔
      ∀ n, requests.find? (0 < ·) = some n → f.size ≤ n * 2 ^ sb.sectorShift := by
  have hall := fun fuel => @ntfsReads_iff v f fuel startBlk sb disk hdisk requests
  constructor
  · rintro ⟨N, hN⟩
    obtain ⟨inode, results, hsetup, hreads, hok⟩ := hN (N + 3) (by omega)
    rw [f.inodeSetup] at hsetup
    cases hsetup
    exact (hall N).mp ⟨results, hreads, hok⟩
  · intro hcovers
    refine ⟨3, fun fuel hfuel => ?_⟩
    obtain ⟨fuel, rfl⟩ := Nat.exists_eq_add_of_le' hfuel
    obtain ⟨results, hreads, hok⟩ := (hall fuel).mpr hcovers
    exact ⟨_, results, f.inodeSetup startBlk, hreads, hok⟩

/-! ## Examples -/

/-- A record with a value of some bytes. -/
def valueRecord (size : Nat) : List UInt8 :=
  recordFront 30 ++ (leBytes atData 4 ++ leBytes (24 + size) 4 ++ List.replicate 8 0 ++
    leBytes size 4 ++ leBytes 24 2 ++ [0, 0] ++ List.replicate size 0x61) ++ leBytes atEnd 4

/-- A volume with that record. -/
def valueVolume (size : Nat) : Volume where
  fs := ⟨9, 9, 0, 10, 4⟩
  disk := fun _ => 0
  mftRecordLookup number := if number = 30 then some (valueRecord size) else none
  startBlk _ := 32
  ntfsAttrLookup type mrec _ := if type = atData then some (mrec, 48) else none

/-- A value of 600 bytes. -/
def valueFile : ResidentFile (valueVolume 600) where
  mftNo := 30
  lmrec := valueRecord 600
  mrec := valueRecord 600
  attr := 48
  lookup := rfl
  attrLookup := rfl
  resident := by decide +kernel
  value_le := by decide +kernel
  record_lt := by decide +kernel

/-- Sectors of zeros. -/
def zeroDisk : Nat → List UInt8 := fun _ => List.replicate 512 0

theorem length_zeroDisk (p : Nat) : (zeroDisk p).length = 2 ^ sampleSb.sectorShift :=
  List.length_replicate

/-- Two requests with one for nothing in between. -/
theorem ntfs_getfssec_resident_iff_two :
    ReadsResident (ntfsInfo sampleSb zeroDisk length_zeroDisk) valueFile 32 [0, 2, 1] := by
  have hsize : valueFile.size ≤ 2 * 2 ^ sampleSb.sectorShift := by decide +kernel
  refine (ntfs_getfssec_resident_iff valueFile sampleSb zeroDisk length_zeroDisk 32
    [0, 2, 1]).mpr fun n hn => ?_
  obtain rfl := Option.some.inj hn
  exact hsize

/-- Read sector by sector, each call stores and returns the whole value. -/
theorem ntfs_getfssec_overruns : ¬∀ (v : Volume) (f : ResidentFile v) (sb : NtfsSb)
    (disk : Nat → List UInt8) (hdisk : ∀ p, (disk p).length = 2 ^ sb.sectorShift) (startBlk : Nat)
    (requests : List Nat), ReadsResident (ntfsInfo sb disk hdisk) f startBlk requests := by
  intro h
  obtain ⟨N, hN⟩ := h (valueVolume 600) valueFile sampleSb zeroDisk length_zeroDisk 32 [1, 1]
  obtain ⟨inode, results, hsetup, hreads, hok⟩ := hN (N + 3) (by omega)
  rw [valueFile.inodeSetup] at hsetup
  cases hsetup
  have hcovers := (ntfsReads_iff [1, 1]).mp ⟨results, hreads, hok⟩ 1 rfl
  exact absurd hcovers (by decide +kernel)

end Liigboot.Fs.Ntfs
