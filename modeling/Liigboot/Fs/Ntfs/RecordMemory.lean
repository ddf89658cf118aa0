import Liigboot.Fs.Ntfs.Attributes
import Mathlib.Data.Finite.Prod
import Mathlib.Data.Set.Finite.Lattice

/-!
# A record in the memory around it

A lookup reads each record to one buffer on the heap. Nothing bounds the fixups by the record, so
that a large count makes them go on in the memory behind it: each sector there that ends with the
update sequence number is changed, too. While they stay inside, the lookup is the one on records.
-/

namespace Liigboot.Fs.Ntfs

open Relation

/-! ## The source -/

/-- The loop of `ntfs_fixups_writeback`, on pointers. -/
def fixupsLoopMem (sectorSize usaNo : Nat) : Nat → Nat → Nat → Memory → Memory
  | 0, _, _, mem => mem
  | count + 1, usa, blk, mem =>
    if memLe mem blk 2 ≠ usaNo then mem
    else
      fixupsLoopMem sectorSize usaNo count (u32 (usa + 2)) (u32 (blk + sectorSize))
        (mem.write blk [mem usa, mem (usa + 1)])

def Mrec.magic (mrec : Mrec) : Nat := memLe mrec.mem mrec.addr 4

def Mrec.usaOfs (mrec : Mrec) : Nat := memLe mrec.mem (mrec.addr + 4) 2

def Mrec.usaCount (mrec : Mrec) : Nat := memLe mrec.mem (mrec.addr + 6) 2

/-- `ntfs_fixups_writeback`, for a record at its address. -/
def Mrec.fixupsWriteback (mrec : Mrec) (sectorSize : Nat) : Mrec :=
  if mrec.magic ≠ magicFile ∧ mrec.magic ≠ magicIndx then mrec
  else
    let usa := u32 (mrec.addr + mrec.usaOfs)
    { mrec with
      mem := fixupsLoopMem sectorSize (memLe mrec.mem usa 2)
        ((mrec.usaCount + (2 ^ 16 - 1)) % 2 ^ 16) (u32 (usa + 2))
        (u32 (mrec.addr + sectorSize + (2 ^ 32 - 2))) mrec.mem }

/-- A record is the one that is looked up: any in NTFS 3.0, the one with its number in 3.1. -/
def accepts (v31 : Bool) (file : Nat) (mrec : Mrec) : Bool :=
  if v31 then mrec.magic = magicFile ∧ mrec.mftRecordNo = file else mrec.magic = magicFile

/-- The record that an iteration of a lookup has read to the buffer. -/
def Mrec.read (buf : Mrec) (fs : FsInfo) (r : Read) : Mrec :=
  Mrec.fixupsWriteback { buf with mem := buf.mem.write buf.addr r.buf } fs.sectorSize

/-- An iteration of a lookup, with the buffer in the memory that the iterations before have left.
There is no result when the record is not read out of the cached blocks. -/
def versionStep (fs : FsInfo) (disk : Disk) (v31 : Bool) (file : Nat) (s : Probe × Mrec) :
    Step (Probe × Mrec) (Option Mrec) :=
  let rightBlk := u64 (s.1.curBlk + fs.mftBlk)
  match ntfsRead fs disk fs.mftRecordSize fs.mftRecordSize rightBlk s.1.offset s.1.lcn with
  | none => .hang
  | some none => .stop none
  | some (some r) =>
    let mrec := s.2.read fs r
    if accepts v31 file mrec then .stop (some mrec)
    else if r.blkNextOffset ≥ fs.blockSize then
      .next (⟨u64 (subBlk r.blk fs.mftBlk + 1), 0, r.lcn⟩, mrec)
    else .next (⟨subBlk r.blk fs.mftBlk, r.blkNextOffset, r.lcn⟩, mrec)

/-- The function that `mft_record_lookup` points to, for a version of NTFS and a number of
iterations. `buf` is the buffer that it allocates, with the memory around it. -/
def versionLookup (fs : FsInfo) (disk : Disk) (v31 : Bool) (buf : Mrec) (file iterations : Nat) :
    Option (Option Mrec) :=
  runLoop (versionStep fs disk v31 file) iterations (fs.probe file, buf)

/-! ## Fixups inside a record -/

variable {mem : Memory} {addr : Nat} {nrec : List UInt8}

/-- The number at an offset of a record is the one in memory. -/
theorem memLe_write {off len : Nat} (h : off + len ≤ nrec.length) :
    memLe (mem.write addr nrec) (addr + off) len = readLe nrec off len := by
  rw [memLe, readLe]
  congr 1
  refine List.ext_getElem? fun i => ?_
  rw [List.getElem?_map, getElem?_slice]
  by_cases hi : i < len
  · rw [if_pos hi, List.getElem?_range hi, Option.map_some, Nat.add_assoc,
      List.getElem?_eq_getElem (by omega),
      Memory.write_add (List.getElem?_eq_getElem (by omega : off + i < nrec.length))]
  · rw [if_neg hi, List.getElem?_eq_none (by rw [List.length_range]; omega), Option.map_none]

/-- A store inside a record is one to the memory. -/
theorem write_blit {off : Nat} {bs : List UInt8} (h : off + bs.length ≤ nrec.length) :
    (mem.write addr nrec).write (addr + off) bs = mem.write addr (blit nrec off bs) := by
  funext i
  by_cases hbefore : i < addr
  · rw [Memory.write_before _ (by omega), Memory.write_before _ hbefore,
      Memory.write_before _ hbefore]
  · obtain ⟨j, rfl⟩ := Nat.exists_eq_add_of_le (Nat.le_of_not_lt hbefore)
    have hoff : off ≤ nrec.length := by omega
    have hold : (mem.write addr nrec) (addr + j) = (nrec[j]?).getD (mem (addr + j)) := by
      rw [Memory.write, if_pos (Nat.le_add_right addr j), Nat.add_sub_cancel_left,
        List.getD_eq_getElem?_getD]
    have hnew : (mem.write addr (blit nrec off bs)) (addr + j) =
        ((blit nrec off bs)[j]?).getD (mem (addr + j)) := by
      rw [Memory.write, if_pos (Nat.le_add_right addr j), Nat.add_sub_cancel_left,
        List.getD_eq_getElem?_getD]
    rw [hnew, getElem?_blit hoff]
    by_cases hlow : j < off
    · rw [if_pos hlow, Memory.write_before _ (by omega), hold]
    · obtain ⟨k, rfl⟩ := Nat.exists_eq_add_of_le (Nat.le_of_not_lt hlow)
      rw [if_neg hlow, ← Nat.add_assoc]
      by_cases hin : k < bs.length
      · rw [if_pos (Nat.add_lt_add_left hin off), Nat.add_sub_cancel_left,
          Memory.write_add (List.getElem?_eq_getElem hin), List.getElem?_eq_getElem hin,
          Option.getD_some]
      · rw [if_neg (by omega), Memory.write_behind (Nat.le_of_not_lt hin), Nat.add_assoc, hold]

/-- The loop on pointers changes the record as the loop on its bytes does, while that one stays
inside. -/
theorem fixupsLoopMem_eq {sectorSize usaNo count : Nat} {out : List UInt8}
    (hfits : addr + nrec.length ≤ 2 ^ 32) {usa blk : Nat}
    (h : fixupsLoop sectorSize usaNo count usa blk nrec = some out) :
    fixupsLoopMem sectorSize usaNo count (u32 (addr + usa)) (u32 (addr + blk))
      (mem.write addr nrec) = mem.write addr out := by
  induction count generalizing usa blk nrec with
  | zero =>
    obtain rfl := Option.some.inj h
    rfl
  | succ count ih =>
    rw [fixupsLoop] at h
    split_ifs at h with hblk hno husa
    · rw [fixupsLoopMem]
      have hptr : u32 (addr + blk) = addr + blk := Nat.mod_eq_of_lt (by omega)
      rw [hptr, memLe_write (Nat.le_of_not_lt hblk), if_pos hno, Option.some.inj h]
    · have hptr : u32 (addr + blk) = addr + blk := Nat.mod_eq_of_lt (by omega)
      have harr : u32 (addr + usa) = addr + usa := Nat.mod_eq_of_lt (by omega)
      have hword : slice nrec usa 2 =
          [mem.write addr nrec (addr + usa), mem.write addr nrec (addr + usa + 1)] := by
        have hfst : usa < nrec.length := by omega
        have hsnd : usa + 1 < nrec.length := by omega
        rw [Memory.write_add (List.getElem?_eq_getElem hfst), Nat.add_assoc addr usa 1,
          Memory.write_add (List.getElem?_eq_getElem hsnd), slice, List.drop_eq_getElem_cons hfst,
          List.drop_eq_getElem_cons hsnd]
        rfl
      have hlen : (slice nrec usa 2).length = 2 := by rw [hword]; rfl
      have hstore : blk + (slice nrec usa 2).length ≤ nrec.length := by omega
      rw [fixupsLoopMem, hptr, harr, memLe_write (Nat.le_of_not_lt hblk), if_neg hno, ← hword,
        write_blit hstore, Nat.add_assoc addr usa 2, Nat.add_assoc addr blk sectorSize]
      exact ih (by rwa [length_blit hstore]) h

/-- Fixups that stay inside a record are the ones on its bytes. -/
theorem fixupsWriteback_write {sectorSize : Nat} {out : List UInt8} (hsector : 2 ≤ sectorSize)
    (hhead : 8 ≤ nrec.length) (hfits : addr + nrec.length ≤ 2 ^ 32)
    (h : fixupsWriteback sectorSize nrec = some out) :
    Mrec.fixupsWriteback ⟨mem.write addr nrec, addr⟩ sectorSize =
      ⟨mem.write addr out, addr⟩ := by
  have hmagic : Mrec.magic ⟨mem.write addr nrec, addr⟩ = magic nrec :=
    @memLe_write mem addr nrec 0 4 (by omega)
  have hofs : Mrec.usaOfs ⟨mem.write addr nrec, addr⟩ = usaOfs nrec := memLe_write (by omega)
  have hcount : Mrec.usaCount ⟨mem.write addr nrec, addr⟩ = usaCount nrec :=
    memLe_write (by omega)
  rw [fixupsWriteback] at h
  rw [Mrec.fixupsWriteback, hmagic, hofs, hcount]
  split_ifs at h ⊢ with hother husa
  · rw [Option.some.inj h]
  · have hptr : u32 (addr + usaOfs nrec) = addr + usaOfs nrec := Nat.mod_eq_of_lt (by omega)
    have hblk : u32 (addr + sectorSize + (2 ^ 32 - 2)) = u32 (addr + (sectorSize - 2)) := by
      rw [u32, u32]
      omega
    dsimp only
    rw [hptr, memLe_write (Nat.le_of_not_lt husa), hblk, Nat.add_assoc,
      fixupsLoopMem_eq hfits h]

/-! ## The lookup of records -/

variable {fs : FsInfo} {disk : Disk} {v31 : Bool} {file n : Nat}

/-- The loop of `ntfs_read` copies all bytes. In front of an iteration the rest of the record is
to be copied, or the rest of the first block. -/
theorem runLoop_copyStep_length {c d : Copy} (hrun : runLoop (copyStep fs disk) n c = some d)
    (hleft : c.lbytes = c.bytes ∨ c.lbytes ≤ c.bytes ∧ c.offset + c.lbytes ≥ fs.blockSize) :
    d.buf.length = c.buf.length + c.bytes := by
  induction n generalizing c with
  | zero => cases hrun
  | succ n ih =>
    rw [runLoop, copyStep] at hrun
    by_cases hdone : c.bytes = 0
    · rw [if_pos hdone] at hrun
      obtain rfl := Option.some.inj hrun
      rw [hdone, Nat.add_zero]
    · rw [if_neg hdone, copyData] at hrun
      by_cases hin : c.offset + c.lbytes ≤ fs.cacheBlockSize
      · rw [if_pos hin] at hrun
        dsimp only at hrun
        by_cases hnext : c.offset + c.lbytes ≥ fs.blockSize
        · rw [if_pos hnext] at hrun
          rw [ih hrun (Or.inl rfl), List.length_append, length_bytesAt]
          dsimp only
          omega
        · rw [if_neg hnext] at hrun
          dsimp only at hrun
          -- All that was left has been copied: the next iteration ends the loop.
          have hall : c.lbytes = c.bytes := hleft.resolve_right fun h => hnext h.2
          cases n with
          | zero => cases hrun
          | succ n =>
            rw [runLoop, copyStep] at hrun
            dsimp only at hrun
            rw [if_pos (Nat.sub_eq_zero_of_le hall.ge)] at hrun
            obtain rfl := Option.some.inj hrun
            rw [List.length_append, length_bytesAt, hall]
      · rw [if_neg hin] at hrun
        cases hrun

theorem ntfsRead_length {count blk blkOffset lcn : Nat} {r : Read}
    (h : ntfsRead fs disk count count blk blkOffset lcn = some (some r)) :
    r.buf.length = count := by
  rw [ntfsRead, if_neg (Nat.lt_irrefl count)] at h
  obtain ⟨c, hcopied, hc⟩ := Option.map_eq_some_iff.mp h
  obtain rfl := Option.some.inj hc
  dsimp only at hcopied ⊢
  generalize (if blkOffset = 0 then u64 (lcn <<< fs.clustByteShift) % fs.blockSize
    else blkOffset) = offset at hcopied
  split_ifs at hcopied with hroom
  · obtain ⟨buf, hdata, rfl⟩ := Option.map_eq_some_iff.mp hcopied
    rw [copyData] at hdata
    split_ifs at hdata
    obtain rfl := Option.some.inj hdata
    exact length_bytesAt ..
  · rw [runLoop_copyStep_length hcopied (Or.inr ⟨by dsimp only; omega, by dsimp only; omega⟩)]
    exact Nat.zero_add count

theorem length_fixupsLoop {sectorSize usaNo count usa blk : Nat} {nrec out : List UInt8}
    (h : fixupsLoop sectorSize usaNo count usa blk nrec = some out) :
    out.length = nrec.length := by
  induction count generalizing usa blk nrec with
  | zero => rw [Option.some.inj h]
  | succ count ih =>
    rw [fixupsLoop] at h
    split_ifs at h with hblk hno husa
    · rw [Option.some.inj h]
    · rw [ih h, length_blit (by rw [length_slice]; omega)]

theorem length_fixupsWriteback {sectorSize : Nat} {nrec out : List UInt8}
    (h : fixupsWriteback sectorSize nrec = some out) : out.length = nrec.length := by
  rw [fixupsWriteback] at h
  split_ifs at h
  · rw [Option.some.inj h]
  · exact length_fixupsLoop h

/-- The lookup in memory does what the one on records does, while the fixups stay inside. -/
theorem versionLookup_eq {accept : List UInt8 → Bool} {nrec : List UInt8} {blk : Nat}
    (hfs : fs.WellFormed) (hfits : addr + fs.mftRecordSize ≤ 2 ^ 32)
    (haccept : ∀ (mem : Memory) nrec, nrec.length = fs.mftRecordSize →
      accepts v31 file ⟨mem.write addr nrec, addr⟩ = accept nrec) (s : Probe)
    (h : runLoop (lookupStep fs disk accept) n s = some (some (nrec, blk))) :
    ∃ mem' : Memory, runLoop (versionStep fs disk v31 file) n (s, ⟨mem, addr⟩) =
      some (some ⟨mem'.write addr nrec, addr⟩) := by
  have hsector : 2 ^ 9 ≤ fs.sectorSize := Nat.pow_le_pow_right (by decide) hfs.sector
  have hrecord : 2 ^ 9 ≤ fs.mftRecordSize := Nat.pow_le_pow_right (by decide) hfs.record
  induction n generalizing s mem with
  | zero => cases h
  | succ n ih =>
    rw [runLoop, lookupStep] at h
    rw [runLoop, versionStep]
    dsimp only at h ⊢
    cases hread : ntfsRead fs disk fs.mftRecordSize fs.mftRecordSize (u64 (s.curBlk + fs.mftBlk))
        s.offset s.lcn with
    | none =>
      rw [hread] at h
      cases h
    | some got =>
      cases got with
      | none =>
        rw [hread] at h
        cases h
      | some r =>
        rw [hread] at h
        dsimp only at h ⊢
        cases hfix : fixupsWriteback fs.sectorSize r.buf with
        | none =>
          rw [hfix] at h
          cases h
        | some mrec =>
          rw [hfix] at h
          have hlen := ntfsRead_length hread
          have hread' : Mrec.read ⟨mem, addr⟩ fs r = ⟨mem.write addr mrec, addr⟩ :=
            fixupsWriteback_write (by omega) (by omega) (by rwa [hlen]) hfix
          have hmrec : mrec.length = fs.mftRecordSize := by
            rw [← hlen]
            exact length_fixupsWriteback hfix
          rw [hread', haccept mem mrec hmrec]
          dsimp only at h ⊢
          split_ifs at h ⊢ with hfound hnext
          · obtain ⟨rfl, -⟩ := Prod.mk.inj (Option.some.inj (Option.some.inj h))
            exact ⟨mem, rfl⟩
          · exact ih _ h
          · exact ih _ h

/-- What a version of NTFS looks for in a record of some size is in its first bytes. -/
theorem magic_write {nrec : List UInt8} (hlen : 48 ≤ nrec.length) :
    Mrec.magic ⟨mem.write addr nrec, addr⟩ = magic nrec ∧
      Mrec.mftRecordNo ⟨mem.write addr nrec, addr⟩ = mftRecordNo nrec := by
  exact ⟨@memLe_write mem addr nrec 0 4 (by omega), memLe_write (by omega)⟩

/-- A record that the lookup of NTFS 3.0 returns is in the buffer of the one in memory. -/
theorem versionLookup_of_lookup30 (hfs : fs.WellFormed) (hfits : addr + fs.mftRecordSize ≤ 2 ^ 32)
    (mem : Memory) {nrec : List UInt8} {blk : Nat}
    (h : ntfsMftRecordLookup30 fs disk file n = some (some (nrec, blk))) :
    ∃ mem' : Memory, versionLookup fs disk false ⟨mem, addr⟩ file n =
      some (some ⟨mem'.write addr nrec, addr⟩) := by
  have hrecord : 2 ^ 9 ≤ fs.mftRecordSize := Nat.pow_le_pow_right (by decide) hfs.record
  refine versionLookup_eq hfs hfits (fun mem nrec hlen => ?_) _ h
  rw [accepts, if_neg Bool.false_ne_true, (magic_write (by omega)).1]

/-- The same for NTFS 3.1. -/
theorem versionLookup_of_lookup31 (hfs : fs.WellFormed) (hfits : addr + fs.mftRecordSize ≤ 2 ^ 32)
    (mem : Memory) {nrec : List UInt8} {blk : Nat}
    (h : ntfsMftRecordLookup31 fs disk file n = some (some (nrec, blk))) :
    ∃ mem' : Memory, versionLookup fs disk true ⟨mem, addr⟩ file n =
      some (some ⟨mem'.write addr nrec, addr⟩) := by
  have hrecord : 2 ^ 9 ≤ fs.mftRecordSize := Nat.pow_le_pow_right (by decide) hfs.record
  refine versionLookup_eq hfs hfits (fun mem nrec hlen => ?_) _ h
  have hhead : Mrec.magic ⟨mem.write addr nrec, addr⟩ = magic nrec ∧
      Mrec.mftRecordNo ⟨mem.write addr nrec, addr⟩ = mftRecordNo nrec := magic_write (by omega)
  rw [accepts, if_pos rfl, hhead.1, hhead.2]

/-! ## Finitely many states -/

/-- There are finitely many memories that agree from some byte on. -/
theorem finite_memories (mem : Memory) (a : Nat) :
    {m : Memory | ∀ i, a ≤ i → m i = mem i}.Finite := by
  have hbyte : Finite UInt8 := Finite.of_injective UInt8.toFin fun _ _ h => UInt8.toFin_inj.mp h
  refine Set.Finite.of_injOn (f := fun m (i : Fin a) => m i) (t := Set.univ)
    (fun _ _ => Set.mem_univ _) ?_ Set.finite_univ
  intro m hm m' hm' heq
  funext i
  by_cases hi : i < a
  · exact congrFun heq ⟨i, hi⟩
  · rw [hm i (Nat.le_of_not_lt hi), hm' i (Nat.le_of_not_lt hi)]

/-- The fixups store below `2 ^ 32 + 1`: pointers have 32 bits, and words two bytes. -/
theorem fixupsLoopMem_of_le {sectorSize usaNo count usa blk i : Nat} (hblk : blk < 2 ^ 32)
    (hi : 2 ^ 32 + 1 ≤ i) (mem : Memory) :
    fixupsLoopMem sectorSize usaNo count usa blk mem i = mem i := by
  induction count generalizing usa blk mem with
  | zero => rfl
  | succ count ih =>
    rw [fixupsLoopMem]
    split_ifs
    · rfl
    · have hnext : u32 (blk + sectorSize) < 2 ^ 32 := Nat.mod_lt _ (by decide)
      obtain ⟨j, rfl⟩ := Nat.exists_eq_add_of_le (show blk ≤ i by omega)
      rw [ih hnext, Memory.write_behind]
      change 2 ≤ j
      omega

/-- A read leaves the buffer where it is in the heap. -/
theorem read_addr {buf : Mrec} {r : Read} : (buf.read fs r).addr = buf.addr := by
  rw [Mrec.read, Mrec.fixupsWriteback]
  split_ifs <;> rfl

/-- A read stores to the buffer and below `2 ^ 32 + 1`. -/
theorem read_mem_of_le {buf : Mrec} {r : Read} {i : Nat}
    (hi : buf.addr + r.buf.length + (2 ^ 32 + 1) ≤ i) : (buf.read fs r).mem i = buf.mem i := by
  have hstore : buf.mem.write buf.addr r.buf i = buf.mem i := by
    obtain ⟨j, rfl⟩ := Nat.exists_eq_add_of_le (show buf.addr ≤ i by omega)
    exact Memory.write_behind (by omega)
  rw [Mrec.read, Mrec.fixupsWriteback]
  split_ifs
  · exact hstore
  · have hblk : u32 (buf.addr + fs.sectorSize + (2 ^ 32 - 2)) < 2 ^ 32 :=
      Nat.mod_lt _ (by decide)
    dsimp only
    rw [fixupsLoopMem_of_le hblk (by omega), hstore]

/-- The cluster number that is kept is a 64-bit number. -/
theorem ntfsRead_lcn_lt {len count blk blkOffset lcn : Nat} {r : Read}
    (h : ntfsRead fs disk len count blk blkOffset lcn = some (some r)) : r.lcn < 2 ^ 64 := by
  rw [ntfsRead] at h
  by_cases hlen : count > len
  · rw [if_pos hlen] at h
    cases h
  · rw [if_neg hlen] at h
    obtain ⟨c, -, hc⟩ := Option.map_eq_some_iff.mp h
    obtain rfl := Option.some.inj hc
    exact Nat.mod_lt _ (by decide)

/-- The places that a lookup may come to. -/
def FsInfo.places (fs : FsInfo) (file : Nat) : Set Probe :=
  {s | s = fs.probe file ∨ s.curBlk < 2 ^ 64 ∧ s.offset < fs.blockSize ∧ s.lcn < 2 ^ 64}

/-- A lookup has only finitely many places to read. -/
theorem places_finite (fs : FsInfo) (file : Nat) : (fs.places file).Finite := by
  have hprod := (Set.finite_lt_nat (2 ^ 64)).prod
    ((Set.finite_lt_nat fs.blockSize).prod (Set.finite_lt_nat (2 ^ 64)))
  refine ((hprod.image fun p => (⟨p.1, p.2.1, p.2.2⟩ : Probe)).insert (fs.probe file)).subset ?_
  rintro ⟨curBlk, offset, lcn⟩ (hstart | ⟨hblk, hoffset, hlcn⟩)
  · exact Or.inl hstart
  · exact Or.inr ⟨(curBlk, offset, lcn), ⟨hblk, hoffset, hlcn⟩, rfl⟩

/-- Every place is inside of a block. -/
theorem offset_lt_of_places {s : Probe} (hs : s ∈ fs.places file) : s.offset < fs.blockSize := by
  rcases hs with rfl | ⟨-, hoffset, -⟩
  · exact Nat.mod_lt _ (blockSize_pos fs)
  · exact hoffset

/-- A lookup goes from a place to a place, and changes no memory far behind the buffer. -/
theorem versionStep_next {s t : Probe × Mrec} (h : versionStep fs disk v31 file s = .next t) :
    t.1 ∈ fs.places file ∧ t.2.addr = s.2.addr ∧
      ∀ i, s.2.addr + fs.mftRecordSize + (2 ^ 32 + 1) ≤ i → t.2.mem i = s.2.mem i := by
  rw [versionStep] at h
  dsimp only at h
  split at h
  · cases h
  · cases h
  · rename_i r hread
    have hlcn := ntfsRead_lcn_lt hread
    have hlen := ntfsRead_length hread
    have hmem : ∀ i, s.2.addr + fs.mftRecordSize + (2 ^ 32 + 1) ≤ i →
        (s.2.read fs r).mem i = s.2.mem i := fun i hi => read_mem_of_le (by rwa [hlen])
    split_ifs at h with haccept hnext
    · obtain rfl := Step.next.inj h
      exact ⟨Or.inr ⟨Nat.mod_lt _ (by decide), blockSize_pos fs, hlcn⟩, read_addr, hmem⟩
    · obtain rfl := Step.next.inj h
      exact ⟨Or.inr ⟨Nat.mod_lt _ (by decide), Nat.lt_of_not_le hnext, hlcn⟩, read_addr, hmem⟩

/-- What a lookup comes to. -/
def FsInfo.probes (fs : FsInfo) (file : Nat) (buf : Mrec) : Set (Probe × Mrec) :=
  {s | s.1 ∈ fs.places file ∧ s.2.addr = buf.addr ∧
    ∀ i, buf.addr + fs.mftRecordSize + (2 ^ 32 + 1) ≤ i → s.2.mem i = buf.mem i}

/-- What a run reaches is a place with the buffer that was read there. -/
theorem mem_probes {buf : Mrec} {s : Probe × Mrec}
    (hs : ReflTransGen (Goes fun _ => versionStep fs disk v31 file) (fs.probe file, buf) s) :
    s ∈ fs.probes file buf := by
  refine reached_mem ⟨Or.inl rfl, rfl, fun _ _ => rfl⟩ ?_ hs
  rintro n t u ⟨-, haddr, hmem⟩ hstep
  obtain ⟨hplace, haddr', hmem'⟩ := versionStep_next hstep
  refine ⟨hplace, haddr'.trans haddr, fun i hi => ?_⟩
  rw [hmem' i (by rwa [haddr]), hmem i hi]

/-- A lookup can only be in finitely many states. -/
theorem probes_finite (fs : FsInfo) (file : Nat) (buf : Mrec) :
    (fs.probes file buf).Finite := by
  have hmemories := finite_memories buf.mem (buf.addr + fs.mftRecordSize + (2 ^ 32 + 1))
  refine ((places_finite fs file).prod (hmemories.image fun m => ⟨m, buf.addr⟩)).subset ?_
  rintro ⟨s, ⟨mem, addr⟩⟩ ⟨hplace, haddr, hmem⟩
  dsimp only at haddr
  subst haddr
  exact ⟨hplace, mem, hmem, rfl⟩

/-! ## When the lookup ends -/

/-- Each record that the lookup of a record reads is read out of the cached blocks, and the lookup
does not come back to a place with the same memory. -/
structure LookupPasses (fs : FsInfo) (disk : Disk) (v31 : Bool) (buf : Mrec) (file : Nat) :
    Prop where
  read : ∀ s, ReflTransGen (Goes fun _ => versionStep fs disk v31 file) (fs.probe file, buf) s →
    ∃ r, ntfsRead fs disk fs.mftRecordSize fs.mftRecordSize (u64 (s.1.curBlk + fs.mftBlk))
      s.1.offset s.1.lcn = some (some r)
  noReturn : NoReturn (fun _ => versionStep fs disk v31 file) (fs.probe file, buf)

/-- A read of no more than its buffer does not fail. -/
theorem ntfsRead_ne_fails {count blk blkOffset lcn : Nat} :
    ntfsRead fs disk count count blk blkOffset lcn ≠ some none := by
  rw [ntfsRead, if_neg (Nat.lt_irrefl count)]
  intro h
  obtain ⟨c, -, hc⟩ := Option.map_eq_some_iff.mp h
  cases hc

/-- A step does not hang if its read returns. -/
theorem versionStep_ne_hang_iff {s : Probe × Mrec} :
    versionStep fs disk v31 file s ≠ .hang ↔
      ∃ r, ntfsRead fs disk fs.mftRecordSize fs.mftRecordSize (u64 (s.1.curBlk + fs.mftBlk))
        s.1.offset s.1.lcn = some (some r) := by
  rw [versionStep]
  dsimp only
  cases hread : ntfsRead fs disk fs.mftRecordSize fs.mftRecordSize (u64 (s.1.curBlk + fs.mftBlk))
      s.1.offset s.1.lcn with
  | none => exact ⟨fun h => absurd rfl h, fun ⟨_, h⟩ => nomatch h⟩
  | some got =>
    cases got with
    | none => exact absurd hread ntfsRead_ne_fails
    | some r =>
      refine ⟨fun _ => ⟨r, rfl⟩, fun _ => ?_⟩
      dsimp only
      split_ifs <;> exact nofun

/-- A lookup of a record ends exactly when it passes. -/
theorem lookup_ends_iff {buf : Mrec} :
    (∃ n result, versionLookup fs disk v31 buf file n = some result) ↔
      LookupPasses fs disk v31 buf file := by
  have hfin := (probes_finite fs file buf).subset fun s hs => @mem_probes fs disk v31 file buf s hs
  simp only [versionLookup]
  rw [(steady_const _).ends_iff hfin, passes_iff]
  simp only [exists_const, versionStep_ne_hang_iff]
  exact ⟨fun ⟨h, hno⟩ => ⟨h, hno⟩, fun ⟨h, hno⟩ => ⟨h, hno⟩⟩

end Liigboot.Fs.Ntfs
