import Liigboot.Boot.ReadKernel

/-!
# Clearing the base memory behind a boot sector

`replace_bootstrap_one` of `bootsect.inc` puts a second descriptor behind that of the boot sector,
which is to clear what is left of the base memory. A boot sector is accepted if it ends below 640K,
but the base memory may end earlier.
-/

namespace Liigboot.Boot

open Liigboot.Fs

variable {σ : Type} {m : Machine σ} {fuel iterations : Nat} {file : DiskFile m.fs}
  {garbage : Bool}

/-- A descriptor that clears the base memory behind an image of some length, and nothing else. -/
structure ClearsRest (m : Machine σ) (length : Nat) (d : Descriptor) : Prop where
  dst : d.dst.toNat = 0x7C00 + length
  len : (d.len.toNat : Int) = (m.biosFbm.toNat * 1024 : Nat) - (0x7C00 + length : Nat)
  below : ∀ (mem : Memory) (a : Nat), m.biosFbm.toNat * 1024 ≤ a → pmBcopy d mem a = mem a

/-- The memory that is cleared is what is left of the base memory: exactly when the boot sector
ends there. -/
theorem clear_descriptor_iff (m : Machine σ) (file : DiskFile m.fs) (garbage : Bool)
    (fuel iterations : Nat) (hfuel : 2 ^ 33 ≤ fuel) (list : List Descriptor)
    (h : isBootsector m fuel iterations file garbage = some list) :
    (∃ boot clear, list = [boot, clear] ∧ ClearsRest m file.delivers clear) ↔
      0x7C00 + file.delivers ≤ m.biosFbm.toNat * 1024 := by
  obtain ⟨length, hlength, hsmall, rfl⟩ := isBootsector_eq hfuel h
  have htop := toNat_bootsecEnd (hlength ▸ hsmall)
  have hfbm := toNat_biosFbm m
  rw [hlength] at htop
  constructor
  · rintro ⟨boot, clear, -, hclear⟩
    have hlen := hclear.len
    omega
  · intro hle
    have hlen : (m.biosFbm.toUInt32 <<< 10 - (0x7C00 + length)).toNat =
        m.biosFbm.toNat * 1024 - (0x7C00 + file.delivers) := by
      rw [UInt32.toNat_sub_of_le _ _ (UInt32.le_iff_toNat_le.mpr (by omega)), hfbm, htop]
    refine ⟨_, _, rfl, htop, ?_, fun mem a ha => ?_⟩
    · rw [hlen]
      omega
    · rw [pmBcopy, if_pos rfl, hlen, htop, if_neg (by omega)]

/-- A boot sector that has room is loaded, and accepted if it ends below 640K. -/
theorem isBootsector_returns (hfuel : 2 ^ 33 ≤ fuel)
    (hsize : file.size.toNat + m.fs.sectorSize - 1 < 2 ^ 32) (hpos : 0 < file.size.toNat)
    (hsmall : file.size.toNat ≤ 0xA0000 - 0x7C00)
    (hroom : m.sym.freeHighMemory.toNat + m.fs.sectorsOf file.size.toNat * m.fs.sectorSize ≤
      m.myHighMemSize.toNat) (hn : file.size.toNat < iterations) :
    ∃ list, isBootsector m fuel iterations file garbage = some list := by
  have hlimit : (LoadRegs.mk 0xA0000 m.abortCheck 0 m.sym.freeHighMemory m.myHighMemSize).limit =
      m.myHighMemSize.toNat := by
    have hmask : ~~~(0 : UInt16).toUInt32 = -1 := by decide
    rw [LoadRegs.limit, hmask, UInt32.and_neg_one]
  obtain ⟨loaded, hload, hflag⟩ := @pmLoadHigh_returns _ m.fs fuel 0 file.map file.size file.ok
    ⟨0xA0000, m.abortCheck, 0, m.sym.freeHighMemory, m.myHighMemSize⟩
    (Inode.fresh file.size file.pvt) garbage iterations file.implements hsize m.shift_le
    (Cached.fresh file.map file.size file.pvt_ok) (Nat.dvd_zero _) hpos (Nat.zero_le _) m.mem_le
    hfuel (by rw [hlimit]; exact hroom) (by omega)
  have hloaded := loadHigh_iff.mpr ⟨hload, hflag⟩
  have hlength := loadBootsec_length hfuel hloaded
  have hmax : (0xA0000 - 0x7C00 : UInt32).toNat = 0x98400 := rfl
  have hdelivers : file.delivers = file.size.toNat := if_pos hsize
  rw [isBootsector, hloaded]
  dsimp only [Option.bind_eq_bind, Option.bind_some]
  rw [if_neg]
  · exact ⟨_, rfl⟩
  · rw [gt_iff_lt, UInt32.lt_iff_toNat_lt, hmax, hlength]
    omega

/-! ## Examples -/

/-- A machine with 639K of base memory loads a file of up to 609K. -/
theorem sampleFile_returns {size : UInt32} (h : size.toNat ≤ 2 ^ 20) (hpos : 0 < size.toNat)
    (hsmall : size.toNat ≤ 0xA0000 - 0x7C00) :
    ∃ list, isBootsector sampleMachine (2 ^ 33) (2 ^ 20) (sampleFile size h) false = some list := by
  have hmem : sampleMachine.myHighMemSize.toNat = 0x1000000 := rfl
  have hfree : sampleMachine.sym.freeHighMemory.toNat = 0x120000 := rfl
  have hss : sampleMachine.fs.sectorSize = 512 := rfl
  have hsectors : sampleMachine.fs.sectorsOf size.toNat = (size.toNat + 511) / 512 := rfl
  refine isBootsector_returns le_rfl ?_ hpos hsmall ?_ ?_
  · rw [hss]
    change size.toNat + 512 - 1 < 2 ^ 32
    omega
  · change _ + sampleMachine.fs.sectorsOf size.toNat * _ ≤ _
    rw [hmem, hfree, hss, hsectors]
    omega
  · change size.toNat < 2 ^ 20
    omega

theorem clear_descriptor_iff_sample :
    (∃ boot clear, [⟨0x7C00, 0x120000, 512⟩, ⟨0x7E00, 0xFFFFFFFF, 0x97E00⟩] = [boot, clear] ∧
        ClearsRest sampleMachine (sampleFile 512 (by decide)).delivers clear) ↔
      0x7C00 + (sampleFile 512 (by decide)).delivers ≤ sampleMachine.biosFbm.toNat * 1024 :=
  clear_descriptor_iff sampleMachine (sampleFile 512 (by decide)) false (2 ^ 33) 9 le_rfl _
    (by decide +kernel)

/-- With 639K of base memory, a boot sector of 609K is accepted, and the length wraps. -/
theorem clear_descriptor_wraps : ¬∀ (m : Machine Unit) (file : DiskFile m.fs) (garbage : Bool)
    (fuel iterations : Nat) (list : List Descriptor), 2 ^ 33 ≤ fuel →
      isBootsector m fuel iterations file garbage = some list →
        ∃ boot clear, list = [boot, clear] ∧ ClearsRest m file.delivers clear := by
  intro h
  obtain ⟨list, hlist⟩ := @sampleFile_returns 0x98400 (by decide) (by decide) (by decide)
  obtain ⟨boot, clear, -, hclear⟩ := h _ _ _ _ _ list le_rfl hlist
  have hlen := hclear.len
  have hdelivers : (sampleFile 0x98400 (by decide)).delivers = 0x98400 := if_pos (by decide)
  have hfbm : sampleMachine.biosFbm.toNat = 639 := rfl
  rw [hdelivers, hfbm] at hlen
  omega

end Liigboot.Boot
