import Liigboot.Boot.Shuffle
import Mathlib.Algebra.Group.Nat.Defs

/-!
# Moving a kernel and its initrd into place

The kernel is loaded at `free_high_memory`, and the initrds behind it. The shuffler then moves
the kernel down to its final address and the initrds up to the end of memory.
-/

namespace Liigboot.Boot

/-- The addresses that the linker gives to symbols. -/
structure Symbols where
  freeHighMemory : UInt32
  coreRealMode : UInt32
  replaceStub : UInt32
  /-- The linker script aligns it to 64K. -/
  free_aligned : freeHighMemory.toNat % 65536 = 0

/-- The variables of the loader, and the fields of the kernel's header. -/
structure Loader where
  loadFlags : UInt8
  cmdLineEnd : UInt16
  kernelEnd : UInt32
  initRDPtr : UInt16
  initRDStart : UInt32
  initRDEnd : UInt32
  myHighMemSize : UInt32
  suRamdiskat : UInt32
  suRamdisklen : UInt32
  deriving DecidableEq, Repr

/-- `LOAD_HIGH`. -/
def loadHighFlag : UInt8 := 1

/-! ## The source -/

/-- The end of `parse_load_initrd`: the target of the initrds. -/
def placeInitrd (s : Loader) : Loader :=
  let edx := s.initRDEnd - s.initRDStart
  let eax := s.myHighMemSize &&& 0xFFFFF000
  let eax := (eax - edx) &&& 0xFFFFF000
  { s with suRamdisklen := edx, suRamdiskat := eax }

/-- `setup_move`. -/
def setupMove (sym : Symbols) (s : Loader) : List Descriptor :=
  let high := s.loadFlags &&& loadHighFlag ≠ 0
  (if high then [] else [⟨0x90000, sym.coreRealMode, s.cmdLineEnd.toUInt32⟩]) ++
    [⟨if high then 0x100000 else 0x10000, sym.freeHighMemory,
      -sym.freeHighMemory + s.kernelEnd⟩] ++
    if s.initRDPtr = 0 then [] else [⟨s.suRamdiskat, s.initRDStart, s.suRamdisklen⟩]

/-- What runs once the loader is set up: the moves, and the jump to the stub. -/
def shuffleAndBoot (sym : Symbols) (s : Loader) (mem : Memory) : Memory × Option Descriptor :=
  pmShuffle (setupMove sym s ++ [terminator sym.replaceStub]) mem

/-! ## Addresses -/

/-- Rounding down to a page. -/
theorem toNat_and_page (x : UInt32) : (x &&& 0xFFFFF000).toNat = x.toNat / 2 ^ 12 * 2 ^ 12 := by
  have hmask : (0xFFFFF000 : UInt32).toNat = (2 ^ 20 - 1) * 2 ^ 12 := rfl
  rw [UInt32.toNat_and, hmask]
  refine Nat.eq_of_testBit_eq fun i => ?_
  rw [Nat.testBit_and, Nat.testBit_mul_two_pow, Nat.testBit_mul_two_pow, Nat.testBit_div_two_pow,
    Nat.testBit_two_pow_sub_one]
  by_cases hi : 12 ≤ i
  · rw [Nat.sub_add_cancel hi]
    rcases Nat.lt_or_ge i 32 with hlt | hge
    · have hsub : i - 12 < 20 := by omega
      simp [hi, hsub]
    · have hbit : x.toNat.testBit i = false :=
        Nat.testBit_lt_two_pow (x.toNat_lt.trans_le (Nat.pow_le_pow_right (by decide) hge))
      rw [hbit, Bool.false_and, Bool.and_false]
  · simp [hi]

/-! ## The moves -/

variable {sym : Symbols} {s : Loader}

/-- The target of the initrds, as a number: no subtraction wraps. -/
theorem placeInitrd_spec (hhigh : 0x102000 ≤ s.initRDStart.toNat)
    (hinitrd : s.initRDStart < s.initRDEnd) (hmem : s.initRDEnd ≤ s.myHighMemSize) :
    (placeInitrd s).suRamdisklen.toNat = s.initRDEnd.toNat - s.initRDStart.toNat ∧
      (placeInitrd s).suRamdiskat.toNat % 4096 = 0 ∧
      (placeInitrd s).suRamdiskat.toNat + (placeInitrd s).suRamdisklen.toNat ≤
        s.myHighMemSize.toNat ∧
      s.initRDStart.toNat < (placeInitrd s).suRamdiskat.toNat + 0x2000 := by
  rw [UInt32.lt_iff_toNat_lt] at hinitrd
  rw [UInt32.le_iff_toNat_le] at hmem
  have hlen : (s.initRDEnd - s.initRDStart).toNat = s.initRDEnd.toNat - s.initRDStart.toNat :=
    UInt32.toNat_sub_of_le _ _ (UInt32.le_iff_toNat_le.mpr hinitrd.le)
  have hround := toNat_and_page s.myHighMemSize
  have hle : s.initRDEnd - s.initRDStart ≤ s.myHighMemSize &&& 0xFFFFF000 := by
    rw [UInt32.le_iff_toNat_le, hlen, hround]
    omega
  have hsub := UInt32.toNat_sub_of_le _ _ hle
  have hat := toNat_and_page ((s.myHighMemSize &&& 0xFFFFF000) - (s.initRDEnd - s.initRDStart))
  rw [hsub, hround, hlen] at hat
  change (s.initRDEnd - s.initRDStart).toNat = _ ∧ ((s.myHighMemSize &&& 0xFFFFF000) -
    (s.initRDEnd - s.initRDStart) &&& 0xFFFFF000).toNat % 4096 = 0 ∧
      ((s.myHighMemSize &&& 0xFFFFF000) - (s.initRDEnd - s.initRDStart) &&& 0xFFFFF000).toNat +
        (s.initRDEnd - s.initRDStart).toNat ≤ _ ∧ _ < ((s.myHighMemSize &&& 0xFFFFF000) -
          (s.initRDEnd - s.initRDStart) &&& 0xFFFFF000).toNat + 0x2000
  rw [hat, hlen]
  omega

/-- The moves for a kernel that is loaded high and an initrd. -/
theorem setupMove_high (hhigh : s.loadFlags &&& loadHighFlag ≠ 0) (hptr : s.initRDPtr ≠ 0) :
    setupMove sym (placeInitrd s) =
      [⟨0x100000, sym.freeHighMemory, s.kernelEnd - sym.freeHighMemory⟩,
        ⟨(placeInitrd s).suRamdiskat, s.initRDStart, (placeInitrd s).suRamdisklen⟩] := by
  have hhigh' : (placeInitrd s).loadFlags &&& loadHighFlag ≠ 0 := hhigh
  have hptr' : (placeInitrd s).initRDPtr ≠ 0 := hptr
  have hlen : -sym.freeHighMemory + (placeInitrd s).kernelEnd =
      s.kernelEnd - sym.freeHighMemory := by
    rw [UInt32.add_comm, ← UInt32.sub_eq_add_neg]
    rfl
  rw [setupMove, if_pos hhigh', if_neg hptr', if_pos hhigh', hlen]
  rfl

theorem ne_zero_of_toNat_pos {x : UInt32} (h : 0 < x.toNat) : x ≠ 0 := by
  rintro rfl
  exact Nat.lt_irrefl 0 h

theorem ne_minusOne_of_lt {x y : UInt32} (h : x.toNat < y.toNat) : x ≠ 0xFFFFFFFF := by
  rintro rfl
  have hy := y.toNat_lt
  change 4294967295 < y.toNat at h
  omega

/-- The shuffler leaves the kernel at 1 MB and the initrd, page-aligned, at the end of memory,
and enters the stub. -/
theorem shuffleAndBoot_places (sym : Symbols) (s : Loader) (mem : Memory)
    (hhigh : s.loadFlags &&& loadHighFlag ≠ 0) (hptr : s.initRDPtr ≠ 0)
    (hfree : 0x100000 + 0x2000 ≤ sym.freeHighMemory.toNat)
    (hkernel : sym.freeHighMemory < s.kernelEnd) (hafter : s.kernelEnd ≤ s.initRDStart)
    (hinitrd : s.initRDStart < s.initRDEnd) (hmem : s.initRDEnd ≤ s.myHighMemSize) :
    (∀ i < s.kernelEnd.toNat - sym.freeHighMemory.toNat,
      (shuffleAndBoot sym (placeInitrd s) mem).1 (0x100000 + i) =
        mem (sym.freeHighMemory.toNat + i)) ∧
    (∀ i < s.initRDEnd.toNat - s.initRDStart.toNat,
      (shuffleAndBoot sym (placeInitrd s) mem).1 ((placeInitrd s).suRamdiskat.toNat + i) =
        mem (s.initRDStart.toNat + i)) ∧
    (shuffleAndBoot sym (placeInitrd s) mem).2 = some (terminator sym.replaceStub) ∧
    (placeInitrd s).suRamdisklen.toNat = s.initRDEnd.toNat - s.initRDStart.toNat ∧
    (placeInitrd s).suRamdiskat.toNat % 4096 = 0 ∧
    (placeInitrd s).suRamdiskat.toNat + (placeInitrd s).suRamdisklen.toNat ≤
      s.myHighMemSize.toNat ∧
    Apart 0x100000 (s.kernelEnd.toNat - sym.freeHighMemory.toNat)
      (placeInitrd s).suRamdiskat.toNat (placeInitrd s).suRamdisklen.toNat := by
  rw [UInt32.lt_iff_toNat_lt] at hkernel
  rw [UInt32.le_iff_toNat_le] at hafter
  obtain ⟨hlen, hpage, hend, hat⟩ := placeInitrd_spec (by omega) hinitrd hmem
  rw [UInt32.lt_iff_toNat_lt] at hinitrd
  have hkernelLen : (s.kernelEnd - sym.freeHighMemory).toNat =
      s.kernelEnd.toNat - sym.freeHighMemory.toNat :=
    UInt32.toNat_sub_of_le _ _ (UInt32.le_iff_toNat_le.mpr hkernel.le)
  have hlist := @setupMove_high sym s hhigh hptr
  generalize hk : s.kernelEnd - sym.freeHighMemory = kernelLen at hlist hkernelLen
  generalize hr : placeInitrd s = placed at hlist hlen hpage hend hat ⊢
  have hbelow : Apart 0x100000 kernelLen.toNat placed.suRamdiskat.toNat
      placed.suRamdisklen.toNat := by
    left
    omega
  have hrun : shuffleAndBoot sym placed mem = (runMoves [⟨0x100000, sym.freeHighMemory.toNat,
      kernelLen.toNat⟩, ⟨placed.suRamdiskat.toNat, s.initRDStart.toNat,
        placed.suRamdisklen.toNat⟩] mem, some (terminator sym.replaceStub)) := by
    have hkernelNe : kernelLen ≠ 0 := ne_zero_of_toNat_pos (by omega)
    have hinitrdNe : placed.suRamdisklen ≠ 0 := ne_zero_of_toNat_pos (by omega)
    have hkernelSrc := ne_minusOne_of_lt hkernel
    have hinitrdSrc := ne_minusOne_of_lt hinitrd
    rw [shuffleAndBoot, hlist, pmShuffle_eq _ rfl, foldl_pmBcopy]
    · rfl
    · simp only [List.mem_cons, List.not_mem_nil, or_false, forall_eq_or_imp, forall_eq]
      exact ⟨hkernelSrc, hinitrdSrc⟩
    · simp only [List.mem_cons, List.not_mem_nil, or_false, forall_eq_or_imp, forall_eq]
      exact ⟨hkernelNe, hinitrdNe⟩
  have hspares : List.Pairwise Move.Spares [⟨0x100000, sym.freeHighMemory.toNat,
      kernelLen.toNat⟩, ⟨placed.suRamdiskat.toNat, s.initRDStart.toNat,
        placed.suRamdisklen.toNat⟩] := by
    rw [List.pairwise_pair]
    refine ⟨?_, hbelow⟩
    left
    dsimp only
    omega
  rw [hrun, ← hkernelLen, ← hlen]
  refine ⟨fun i hi => ?_, fun i hi => ?_, rfl, rfl, hpage, hend, hbelow⟩
  · exact runMoves_delivers hspares List.mem_cons_self hi
  · exact runMoves_delivers hspares (List.mem_cons_of_mem _ List.mem_cons_self) hi

/-! ## Examples -/

def sampleSymbols : Symbols := ⟨0x120000, 0x20000, 0x700, by decide⟩

/-- A kernel of 5000 bytes and an initrd of 300 bytes, in 16 MB. -/
def sampleLoader : Loader :=
  ⟨1, 0, 0x120000 + 5000, 0x800, 0x120000 + 5000, 0x120000 + 5300, 0x1000000, 0, 0⟩

theorem shuffleAndBoot_places_sample :
    (∀ i < 5000, (shuffleAndBoot sampleSymbols (placeInitrd sampleLoader) fun a =>
        UInt8.ofNat a).1 (0x100000 + i) = UInt8.ofNat (0x120000 + i)) ∧
      (placeInitrd sampleLoader).suRamdiskat = 0xFFF000 :=
  ⟨(shuffleAndBoot_places sampleSymbols sampleLoader (fun a => UInt8.ofNat a) (by decide)
    (by decide) (by decide) (by decide) (by decide) (by decide) (by decide)).1, by decide⟩

end Liigboot.Boot
