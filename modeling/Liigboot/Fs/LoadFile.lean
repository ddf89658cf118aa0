import Liigboot.Fs.LoadLoop
import Liigboot.Fs.ReadFile

/-!
# What `pm_load_high` loads

A file whose sectors are all mapped is loaded up to its end or to the number of bytes that is
asked for, unless memory ends first. This is stated for the end of the loop only: of a file with
nothing left to read, the loop may not come to an end.
-/

namespace Liigboot.Fs

variable {σ : Type} {fs : FsInfo σ} {map : SectorMap} {size : UInt32} {ok : σ → Prop}
  {fuel limit : Nat} {callback : Bool} {s t : LoadState σ} {flag : LoadFlag}

/-- The chunk of an iteration, where a sector fits in front of the limit. -/
theorem chunk_spec (hshift : fs.sectorShift ≤ 20) (hroom : s.buf + fs.sectorSize ≤ limit)
    (hlimit : limit < 2 ^ 32) :
    s.buf + s.chunk fs limit callback ≤ limit ∧
      (s.chunk fs limit callback = s.bytes ∨ fs.sectorSize ∣ s.chunk fs limit callback) ∧
      (0 < s.bytes → 0 < s.chunk fs limit callback) := by
  have hss := fs.sectorSize_pos
  have hmax : fs.sectorSize ∣ maxChunk := Nat.pow_dvd_pow 2 hshift
  have hdiff : u32 (limit + 2 ^ 32 - s.buf) = limit - s.buf := by
    rw [u32]
    omega
  have hle : (limit - s.buf) / fs.sectorSize * fs.sectorSize ≤ limit - s.buf :=
    Nat.div_mul_le_self _ _
  have hone : 1 ≤ (limit - s.buf) / fs.sectorSize := (Nat.one_le_div_iff hss).mpr (by omega)
  have hpos : 0 < (limit - s.buf) / fs.sectorSize * fs.sectorSize := Nat.mul_pos hone hss
  have hdvd : fs.sectorSize ∣ (limit - s.buf) / fs.sectorSize * fs.sectorSize :=
    Nat.dvd_mul_left _ _
  rw [LoadState.chunk, hdiff]
  generalize (limit - s.buf) / fs.sectorSize * fs.sectorSize = room at hle hpos hdvd
  have hmaxPos : 0 < maxChunk := by decide
  split_ifs with hcallback hover hover
  · exact ⟨by omega, Or.inr hdvd, fun _ => hpos⟩
  · refine ⟨by omega, ?_, fun hbytes => by omega⟩
    rcases Nat.le_total s.bytes maxChunk with h | h
    · exact Or.inl (Nat.min_eq_left h)
    · rw [Nat.min_eq_right h]
      exact Or.inr hmax
  · exact ⟨by omega, Or.inr hdvd, fun _ => hpos⟩
  · exact ⟨by omega, Or.inl rfl, fun hbytes => hbytes⟩

/-- A chunk does not reach into the last sector in front of 4 GiB. -/
theorem chunk_add_le : s.chunk fs limit callback + fs.sectorSize ≤ 2 ^ 32 := by
  have hss := fs.sectorSize_pos
  have hword : u32 (limit + 2 ^ 32 - s.buf) / fs.sectorSize * fs.sectorSize + fs.sectorSize ≤
      2 ^ 32 := by
    rw [← Nat.succ_mul]
    obtain ⟨k, hk⟩ : fs.sectorSize ∣ 2 ^ 32 :=
      Nat.pow_dvd_pow 2 (Nat.le_of_lt (Nat.lt_of_lt_of_le fs.shift_lt (by decide)))
    have hlt : u32 (limit + 2 ^ 32 - s.buf) / fs.sectorSize < k := by
      refine Nat.div_lt_of_lt_mul ?_
      rw [← hk]
      exact Nat.mod_lt _ (Nat.two_pow_pos 32)
    calc (u32 (limit + 2 ^ 32 - s.buf) / fs.sectorSize).succ * fs.sectorSize
        ≤ k * fs.sectorSize := Nat.mul_le_mul_right _ hlt
      _ = 2 ^ 32 := by rw [hk, Nat.mul_comm]
  rw [LoadState.chunk]
  split_ifs <;> omega

/-- The sectors that are asked for hold the chunk, and just the chunk when it is made of whole
ones. -/
theorem request_spec (hshift : fs.sectorShift ≤ 20) (hroom : s.buf + fs.sectorSize ≤ limit)
    (hlimit : limit < 2 ^ 32) :
    s.chunk fs limit callback ≤ s.request fs limit callback * fs.sectorSize ∧
      s.request fs limit callback < 2 ^ 32 ∧
      (s.chunk fs limit callback ≠ s.bytes →
        s.request fs limit callback * fs.sectorSize = s.chunk fs limit callback) := by
  have hss := fs.sectorSize_pos
  obtain ⟨-, hdvd, -⟩ := @chunk_spec _ fs limit callback s hshift hroom hlimit
  have hle := @chunk_add_le _ fs limit callback s
  rw [LoadState.request]
  generalize s.chunk fs limit callback = chunk at hle hdvd
  rw [u32_of_lt (by omega)]
  refine ⟨?_, ?_, fun hne => ?_⟩
  · have hlt := Nat.lt_div_mul_add (a := chunk + (fs.sectorSize - 1)) hss
    omega
  · exact Nat.lt_of_le_of_lt (Nat.div_le_self _ _) (by omega)
  · obtain ⟨k, rfl⟩ := hdvd.resolve_left hne
    rw [Nat.mul_add_div hss, Nat.div_eq_of_lt (Nat.sub_lt hss Nat.one_pos), Nat.add_zero,
      Nat.mul_comm]

/-- The loop loads what is left of the file, or as many bytes as are asked for. -/
theorem loadStep_loads (himpl : Implements fs map size ok)
    (hsize : size.toNat + fs.sectorSize - 1 < 2 ^ 32) (hshift : fs.sectorShift ≤ 20)
    (hlimit : limit + fs.sectorSize < 2 ^ 32) (hfuel : 2 ^ 33 ≤ fuel) (n : Nat)
    (hcached : Cached map size ok s.inode) (hoff : AtBoundary fs size s.offset)
    (hbuf : s.buf + fs.sectorSize < 2 ^ 32)
    (hrun : runLoop (loadStep fs fuel limit callback) n s = some (flag, t))
    (hflag : flag ≠ .overflow) :
    t.buf = s.buf + min s.bytes (size.toNat - s.offset) ∧ t.buf ≤ max s.buf limit := by
  induction n generalizing s with
  | zero => exact nomatch hrun
  | succ n ih =>
    rw [runLoop, loadStep, u32_of_lt hbuf] at hrun
    by_cases hbytes : s.bytes = 0
    · rw [if_pos hbytes] at hrun
      obtain ⟨-, rfl⟩ := Prod.mk.inj (Option.some.inj hrun)
      rw [hbytes, Nat.zero_min]
      exact ⟨rfl, Nat.le_max_left _ _⟩
    by_cases hover : s.buf + fs.sectorSize > limit
    · rw [if_neg hbytes, if_pos hover] at hrun
      exact absurd (Prod.mk.inj (Option.some.inj hrun)).1.symm hflag
    obtain ⟨hle, -, hpos⟩ := @chunk_spec _ fs limit callback s hshift (by omega) (by omega)
    obtain ⟨hrequest, hrequestLt, hexact⟩ :=
      @request_spec _ fs limit callback s hshift (by omega) (by omega)
    have hchunkLe := @chunk_le _ fs limit callback s
    obtain ⟨got, hgot, hcached', hoffset, hdata, hnone, hsome⟩ := genericGetfssec_spec himpl hsize
      hcached hoff (show s.request fs limit callback + 2 ≤ fuel by omega)
    have hlength := congrArg List.length hdata
    rw [List.length_take, List.length_drop, length_contents] at hlength
    have hoff' : AtBoundary fs size got.offset := hoffset ▸ hoff.next _
    rw [if_neg hbytes, if_neg hover, hgot] at hrun
    dsimp only at hrun
    have hinside := hoff.1
    have hrequestPos : 0 < s.request fs limit callback := by
      have hpos := hpos (Nat.pos_of_ne_zero hbytes)
      exact Nat.pos_of_mul_pos_right (hpos.trans_le hrequest)
    generalize s.chunk fs limit callback = chunk at *
    generalize s.request fs limit callback * fs.sectorSize = room at *
    have hbufLt : u32 (s.buf + min got.data.length chunk) = s.buf + min got.data.length chunk :=
      u32_of_lt (by omega)
    rw [hbufLt] at hrun
    split_ifs at hrun with hmore
    · obtain ⟨hbuf', hle'⟩ := ih hcached' hoff' (by dsimp only; omega) hrun
      dsimp only at hbuf' hle'
      refine ⟨?_, by omega⟩
      rw [hbuf']
      rcases Nat.lt_or_eq_of_le hinside with hlt | heq
      · -- More is left, so that the whole chunk was read.
        rw [hsome hlt hrequestPos, Option.getD_some, decide_eq_true_eq] at hmore
        omega
      · omega
    · obtain ⟨-, rfl⟩ := Prod.mk.inj (Option.some.inj hrun)
      dsimp only
      refine ⟨?_, by omega⟩
      rcases Nat.lt_or_eq_of_le hinside with hlt | heq
      · -- Nothing is left, so that the rest of the file was read.
        rw [hsome hlt hrequestPos, Option.getD_some, decide_eq_true_eq] at hmore
        omega
      · omega

/-- Of a file whose size wraps when it is rounded up to whole sectors, nothing is read. -/
theorem genericGetfssec_wraps {inode : Inode σ}
    (hsize : 2 ^ 32 ≤ inode.size.toNat + fs.sectorSize - 1) (n : Nat) :
    genericGetfssec fs fuel inode 0 n = some ⟨[], inode, 0, none⟩ := by
  have hs := inode.size.toNat_lt
  have hss := fs.sectorSize_lt
  have hbytes : u32 (inode.size.toNat + 2 ^ 32 - 0) = inode.size.toNat := by
    rw [u32]
    omega
  have hzero : u32 (inode.size.toNat + fs.sectorSize - 1) / fs.sectorSize = 0 := by
    refine Nat.div_eq_of_lt ?_
    rw [u32]
    omega
  rw [genericGetfssec, hbytes, hzero, Nat.min_zero]
  exact if_pos rfl

/-- Nothing is loaded of it either. -/
theorem loadStep_wraps (hsize : 2 ^ 32 ≤ s.inode.size.toNat + fs.sectorSize - 1) (n : Nat)
    (hoff : s.offset = 0) (hbuf : s.buf < 2 ^ 32)
    (hrun : runLoop (loadStep fs fuel limit callback) n s = some (flag, t)) :
    t.buf = s.buf := by
  induction n generalizing s with
  | zero => exact nomatch hrun
  | succ n ih =>
    rw [runLoop, loadStep, hoff, genericGetfssec_wraps hsize] at hrun
    dsimp only at hrun
    rw [List.length_nil, Nat.zero_min, Nat.add_zero, u32_of_lt hbuf] at hrun
    by_cases hbytes : s.bytes = 0
    · rw [if_pos hbytes] at hrun
      rw [← (Prod.mk.inj (Option.some.inj hrun)).2]
    by_cases hover : u32 (s.buf + fs.sectorSize) > limit
    · rw [if_neg hbytes, if_pos hover] at hrun
      rw [← (Prod.mk.inj (Option.some.inj hrun)).2]
    rw [if_neg hbytes, if_neg hover] at hrun
    split_ifs at hrun with hmore
    · exact @ih ⟨s.buf, s.bytes - 0, none.getD s.haveMore, s.inode, 0, s.data ++ List.take 0 []⟩
        hsize rfl hbuf hrun
    · rw [← (Prod.mk.inj (Option.some.inj hrun)).2]

end Liigboot.Fs
