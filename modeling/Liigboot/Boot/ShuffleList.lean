import Liigboot.Boot.LoadKernel

/-!
# The descriptors of an image

Only the last descriptor may have a length of zero. The kernel's and the boot sector's lengths are
what is loaded of them; the initrds' is the distance from the end of the kernel to the end of the
last file, with the padding of all others.
-/

namespace Liigboot.Boot

open Liigboot.Fs

variable {σ : Type} {fs : FsInfo σ} {m : Machine σ} {fuel iterations : Nat}

/-! ## Loading a file -/

/-- The bytes of a file that can be loaded: none when its size wraps as it is rounded up. -/
def DiskFile.delivers (f : DiskFile fs) : Nat :=
  if f.size.toNat + fs.sectorSize - 1 < 2 ^ 32 then f.size.toNat else 0

/-- Sectors are 32 KiB at most. -/
theorem sectorSize_le (hshift : fs.sectorShift ≤ 15) : fs.sectorSize ≤ 0x8000 :=
  Nat.pow_le_pow_right (by decide) hshift

/-- The limit kept for the load is not above `EBP`. -/
theorem LoadRegs.limit_le (regs : LoadRegs) : regs.limit ≤ regs.ebp.toNat := by
  rw [LoadRegs.limit, UInt32.toNat_and]
  exact Nat.and_le_left

/-- `load_high` returns where the loop ends, without memory having ended. -/
theorem loadHigh_eq {regs : LoadRegs} {inode : Inode σ} {offset : Nat} {garbage : Bool}
    {loaded : Loaded σ}
    (h : loadHigh fs fuel iterations regs inode offset garbage = some loaded) :
    ∃ flag s, runLoop (loadStep fs fuel regs.limit (regs.bx ≠ 0)) iterations
        (loadInit regs inode offset garbage) = some (flag, s) ∧ flag ≠ .overflow ∧
      loaded.ebx = UInt32.ofNat s.buf ∧
      loaded.edi = UInt32.ofNat s.buf + (UInt32.ofNat s.buf &&& regs.dx.toUInt32) := by
  unfold loadHigh pmLoadHigh LoadRegs.step at h
  cases hrun : runLoop (loadStep fs fuel regs.limit (regs.bx ≠ 0)) iterations
      (loadInit regs inode offset garbage) with
  | none =>
    rw [hrun] at h
    exact nomatch h
  | some result =>
    obtain ⟨flag, s⟩ := result
    rw [hrun] at h
    dsimp only [Option.map_some] at h
    split_ifs at h with hflag
    obtain rfl := Option.some.inj h
    exact ⟨flag, s, rfl, hflag, rfl, rfl⟩

/-- Where the loading of a mapped file ends. -/
theorem loadHigh_spec {map : SectorMap} {size : UInt32} {ok : σ → Prop} {regs : LoadRegs}
    {inode : Inode σ} {offset : Nat} {garbage : Bool} {loaded : Loaded σ}
    (hshift : fs.sectorShift ≤ 15) (himpl : Implements fs map size ok)
    (hsize : size.toNat + fs.sectorSize - 1 < 2 ^ 32) (hcached : Cached map size ok inode)
    (hoff : AtBoundary fs size offset) (hmem : regs.ebp.toNat ≤ 0xFFFF0000)
    (hedi : regs.edi.toNat ≤ 0xFFFF0004) (hfuel : 2 ^ 33 ≤ fuel)
    (h : loadHigh fs fuel iterations regs inode offset garbage = some loaded) :
    loaded.ebx.toNat = regs.edi.toNat + min regs.eax.toNat (size.toNat - offset) ∧
      loaded.ebx.toNat ≤ max regs.edi.toNat 0xFFFF0000 ∧
      loaded.edi = loaded.ebx + (loaded.ebx &&& regs.dx.toUInt32) := by
  have hss := sectorSize_le hshift
  have hlimit := LoadRegs.limit_le regs
  obtain ⟨flag, s, hrun, hflag, hebx, hpad⟩ := loadHigh_eq h
  obtain ⟨hbuf, hle⟩ := loadStep_loads himpl hsize (by omega) (by omega) hfuel iterations hcached
    hoff (show regs.edi.toNat + fs.sectorSize < 2 ^ 32 by omega) hrun hflag
  change s.buf = regs.edi.toNat + min regs.eax.toNat (size.toNat - offset) at hbuf
  change s.buf ≤ max regs.edi.toNat regs.limit at hle
  have hebx' : loaded.ebx.toNat = s.buf := by
    rw [hebx, UInt32.toNat_ofNat_of_lt' (show s.buf < 2 ^ 32 by omega)]
  rw [hebx', hebx]
  exact ⟨hbuf, by omega, hpad⟩

/-- Where the loading of a file from its start ends. -/
theorem loadHigh_fresh {f : DiskFile fs} {regs : LoadRegs} {garbage : Bool} {loaded : Loaded σ}
    (hshift : fs.sectorShift ≤ 15) (hmem : regs.ebp.toNat ≤ 0xFFFF0000)
    (hedi : regs.edi.toNat ≤ 0xFFFF0004) (hfuel : 2 ^ 33 ≤ fuel)
    (h : loadHigh fs fuel iterations regs (Inode.fresh f.size f.pvt) 0 garbage = some loaded) :
    loaded.ebx.toNat = regs.edi.toNat + min regs.eax.toNat f.delivers ∧
      loaded.ebx.toNat ≤ max regs.edi.toNat 0xFFFF0000 ∧
      loaded.edi = loaded.ebx + (loaded.ebx &&& regs.dx.toUInt32) := by
  rw [DiskFile.delivers]
  split_ifs with hsize
  · exact loadHigh_spec hshift f.implements hsize (Cached.fresh f.map f.size f.pvt_ok)
      ⟨Nat.zero_le _, Or.inl (Nat.dvd_zero _)⟩ hmem hedi hfuel h
  · obtain ⟨flag, s, hrun, -, hebx, hpad⟩ := loadHigh_eq h
    have hbuf := loadStep_wraps (Nat.le_of_not_lt hsize) iterations rfl regs.edi.toNat_lt hrun
    change s.buf = regs.edi.toNat at hbuf
    rw [hbuf, UInt32.ofNat_toNat] at hebx hpad
    rw [hpad, hebx, Nat.min_zero]
    exact ⟨rfl, Nat.le_max_left _ _, rfl⟩

/-! ## The initrds -/

/-- An address with the padding of `pm_load_high` behind it. -/
def padded (addr : Nat) : Nat := addr + addr % 4

/-- The padding mask 3, as a number. -/
theorem toNat_padded {x : UInt32} (h : x.toNat + 3 < 2 ^ 32) :
    (x + (x &&& (3 : UInt16).toUInt32)).toNat = padded x.toNat := by
  have hand : (x &&& (3 : UInt16).toUInt32).toNat = x.toNat % 4 := by
    rw [UInt32.toNat_and]
    exact Nat.and_two_pow_sub_one_eq_mod x.toNat 2
  have hmod := Nat.mod_lt x.toNat (show 0 < 4 by decide)
  rw [UInt32.toNat_add, hand, padded]
  exact Nat.mod_eq_of_lt (by omega)

/-- Where the last of some files ends that are loaded from an address on. -/
def initrdsEnd : List Nat → Nat → Nat → Nat
  | [], _, initRDEnd => initRDEnd
  | length :: lengths, edi, _ => initrdsEnd lengths (padded (edi + length)) (edi + length)

/-- The bytes that are loaded of a file. -/
def delivered : Option (DiskFile fs) → Nat
  | none => 0
  | some f => f.delivers

/-- `loadinitrd` ends where the lengths of the files say. -/
theorem loadInitrds_spec {mem : UInt32} {garbage : Nat → Bool} (hfuel : 2 ^ 33 ≤ fuel)
    (hmem : mem.toNat ≤ 0xFFFF0000) (files : List (Option (DiskFile m.fs))) {n : Nat}
    {edi initRDEnd e : UInt32} (hedi : edi.toNat ≤ 0xFFFF0004) (heven : edi.toNat % 2 = 0)
    (h : loadInitrds m fuel iterations mem garbage files n edi initRDEnd = some e) :
    e.toNat = initrdsEnd (files.map delivered) edi.toNat initRDEnd.toNat := by
  induction files generalizing n edi initRDEnd with
  | nil =>
    obtain rfl := Option.some.inj h
    rfl
  | cons file files ih =>
    cases file with
    | none => exact nomatch h
    | some f =>
      rw [loadInitrds] at h
      cases hload : loadHigh m.fs fuel iterations ⟨f.size, m.dotPause, 3, edi, mem⟩
          (Inode.fresh f.size f.pvt) 0 (garbage n) with
      | none =>
        rw [hload] at h
        exact nomatch h
      | some loaded =>
        rw [hload] at h
        obtain ⟨hebx, hle, hpad⟩ := loadHigh_fresh m.shift_le hmem hedi hfuel hload
        dsimp only at hebx hle hpad h
        have hmin : min f.size.toNat f.delivers = f.delivers := by
          rw [DiskFile.delivers]
          split_ifs
          · exact Nat.min_self _
          · exact Nat.min_zero _
        have hedi' : loaded.edi.toNat = padded loaded.ebx.toNat := by
          rw [hpad]
          exact toNat_padded (by omega)
        rw [hmin] at hebx
        have heven' : padded loaded.ebx.toNat % 2 = 0 := by
          rw [padded]
          omega
        have hedi'' : padded loaded.ebx.toNat ≤ 0xFFFF0004 := by
          rw [padded]
          omega
        rw [ih (hedi' ▸ hedi'') (hedi' ▸ heven') h, hedi', hebx]
        rfl

/-- Padding an address never takes it down. -/
theorem le_padded (addr : Nat) : addr ≤ padded addr := Nat.le_add_right _ _

/-- The end of the initial RAM disks is not below where they start. -/
theorem initrdsEnd_ge {lengths : List Nat} (hne : lengths ≠ []) {edi initRDEnd : Nat} :
    edi ≤ initrdsEnd lengths edi initRDEnd := by
  induction lengths generalizing edi initRDEnd with
  | nil => exact absurd rfl hne
  | cons length lengths ih =>
    rw [initrdsEnd]
    cases lengths with
    | nil => exact Nat.le_add_right _ _
    | cons next lengths =>
      have hpad := le_padded (edi + length)
      exact (Nat.le_add_right _ _).trans (hpad.trans (ih (List.cons_ne_nil _ _)))

/-- Files that are not all empty end behind the address where they begin. -/
theorem initrdsEnd_gt {lengths : List Nat} {n : Nat} (hn : n ∈ lengths) (hpos : 0 < n)
    {edi initRDEnd : Nat} : edi < initrdsEnd lengths edi initRDEnd := by
  induction lengths generalizing edi initRDEnd with
  | nil => exact nomatch hn
  | cons length lengths ih =>
    have hpad := le_padded (edi + length)
    rw [initrdsEnd]
    rcases List.mem_cons.mp hn with rfl | hlater
    · cases lengths with
      | nil => exact Nat.lt_add_of_pos_right hpos
      | cons next lengths =>
        exact (Nat.lt_add_of_pos_right hpos).trans_le
          (hpad.trans (initrdsEnd_ge (List.cons_ne_nil _ _)))
    · exact (Nat.le_add_right _ _).trans_lt (hpad.trans_lt (ih hlater))

/-- Empty files end where they begin, when that address needs no padding. -/
theorem initrdsEnd_aligned {lengths : List Nat} (h : ∀ n ∈ lengths, n = 0) {edi : Nat}
    (hedi : edi % 4 = 0) : initrdsEnd lengths edi edi = edi := by
  induction lengths with
  | nil => rfl
  | cons length lengths ih =>
    rw [List.forall_mem_cons] at h
    rw [initrdsEnd, h.1, Nat.add_zero, padded, hedi, Nat.add_zero]
    exact ih h.2

/-- The first of several empty files is padded to an address that needs no padding. -/
theorem initrdsEnd_empty {lengths : List Nat} (h : ∀ n ∈ lengths, n = 0) (hne : lengths ≠ [])
    {edi initRDEnd : Nat} (heven : edi % 2 = 0) :
    initrdsEnd lengths edi initRDEnd = if lengths.length = 1 then edi else padded edi := by
  cases lengths with
  | nil => exact absurd rfl hne
  | cons length lengths =>
    cases lengths with
    | nil =>
      rw [List.forall_mem_singleton] at h
      rw [initrdsEnd, initrdsEnd, h]
      rfl
    | cons next lengths =>
      have haligned : padded edi % 4 = 0 := by
        rw [padded]
        omega
      have hlength : (length :: next :: lengths).length ≠ 1 := by
        rw [List.length_cons, List.length_cons]
        omega
      simp only [List.forall_mem_cons] at h
      obtain ⟨rfl, rfl, hrest⟩ := h
      rw [if_neg hlength, initrdsEnd, initrdsEnd, Nat.add_zero, Nat.add_zero]
      have hpad : padded (padded edi) = padded edi := by
        rw [padded.eq_def (padded edi), haligned, Nat.add_zero]
      rw [hpad]
      exact initrdsEnd_aligned hrest haligned

/-- The files take up memory when one of them is not empty, or when there is padding between
them. -/
theorem initrdsEnd_ne_iff {lengths : List Nat} (hne : lengths ≠ []) {edi initRDEnd : Nat}
    (heven : edi % 2 = 0) :
    initrdsEnd lengths edi initRDEnd ≠ edi ↔
      (∃ n ∈ lengths, 0 < n) ∨ (2 ≤ lengths.length ∧ edi % 4 ≠ 0) := by
  by_cases hsome : ∃ n ∈ lengths, 0 < n
  · obtain ⟨n, hn, hpos⟩ := hsome
    exact ⟨fun _ => Or.inl ⟨n, hn, hpos⟩, fun _ => (initrdsEnd_gt hn hpos).ne'⟩
  · have hempty : ∀ n ∈ lengths, n = 0 := by
      intro n hn
      by_contra hpos
      exact hsome ⟨n, hn, Nat.pos_of_ne_zero hpos⟩
    have hlength := List.length_pos_iff.mpr hne
    rw [or_iff_right hsome, initrdsEnd_empty hempty hne heven]
    split_ifs with hone
    · exact ⟨fun h => absurd rfl h, fun h => by omega⟩
    · rw [padded]
      omega

/-! ## The kernel -/

/-- What `getfsbytes` reads of a kernel that is not rejected as too short. -/
theorem getfsbytes_spec {f : DiskFile fs} {got : Got σ} (hshift : fs.sectorShift ≤ 15)
    (hfuel : 2 ^ 33 ≤ fuel)
    (h : getfsbytes fs fuel (Inode.fresh f.size f.pvt) 0 0x8000 = some got)
    (hlength : 1024 ≤ got.data.length) :
    f.size.toNat + fs.sectorSize - 1 < 2 ^ 32 ∧ Cached f.map f.size f.ok got.inode ∧
      got.offset = min f.size.toNat 0x8000 ∧
      got.data = (contents fs f.map f.size.toNat).take 0x8000 ∧
      got.haveMore = some (decide (0x8000 < f.size.toNat)) := by
  have hss := sectorSize_le hshift
  have hdvd : 0x8000 / fs.sectorSize * fs.sectorSize = 0x8000 :=
    Nat.div_mul_cancel (Nat.pow_dvd_pow 2 hshift)
  have hrequest : 0 < 0x8000 / fs.sectorSize := Nat.div_pos hss fs.sectorSize_pos
  have hrequestLe : 0x8000 / fs.sectorSize ≤ 0x8000 := Nat.div_le_self _ _
  change genericGetfssec fs fuel _ 0 (0x8000 / fs.sectorSize) = some got at h
  generalize 0x8000 / fs.sectorSize = request at *
  by_cases hsize : f.size.toNat + fs.sectorSize - 1 < 2 ^ 32
  · obtain ⟨got', hgot, hcached, hoffset, hdata, -, hmore⟩ := genericGetfssec_spec f.implements
      hsize (Cached.fresh f.map f.size f.pvt_ok) ⟨Nat.zero_le _, Or.inl (Nat.dvd_zero _)⟩
      (show request + 2 ≤ fuel by omega)
    obtain rfl := Option.some.inj (hgot.symm.trans h)
    rw [hdvd, Nat.zero_add] at hoffset
    rw [hdvd, List.drop_zero] at hdata
    rw [hdata, List.length_take, length_contents] at hlength
    refine ⟨hsize, hcached, hoffset, hdata, ?_⟩
    rw [hmore (by omega) hrequest, hoffset]
    exact congrArg some (decide_eq_decide.mpr (by omega))
  · have hgot := @genericGetfssec_wraps _ fs fuel (Inode.fresh f.size f.pvt)
      (Nat.le_of_not_lt hsize) request
    obtain rfl := Option.some.inj (hgot.symm.trans h)
    exact absurd hlength (Nat.not_succ_le_zero _)

/-- The setup code is made of whole sectors. -/
theorem setupBytes_mod (h : SetupHeader) : (setupBytes h).toNat % 512 = 0 := by
  have hnine : (9 : UInt16).toNat % 16 = 9 := rfl
  rw [setupBytes, UInt16.toNat_shiftLeft, hnine, Nat.shiftLeft_eq]
  omega

/-- Where the copy of the first 32K ends. -/
theorem toNat_copyEnd (m : Machine σ) {h : SetupHeader}
    (hsetup : (setupBytes h).toUInt32 ≤ 0x8000) :
    (m.sym.freeHighMemory + (0x8000 - (setupBytes h).toUInt32)).toNat =
      m.sym.freeHighMemory.toNat + 0x8000 - (setupBytes h).toNat := by
  have hfree := m.free_lt
  have hwhole : (0x8000 : UInt32).toNat = 0x8000 := rfl
  have hle : (setupBytes h).toNat ≤ 0x8000 := by
    rw [UInt32.le_iff_toNat_le, UInt16.toNat_toUInt32] at hsetup
    exact hsetup
  rw [UInt32.toNat_add, UInt32.toNat_sub_of_le _ _ hsetup, UInt16.toNat_toUInt32, hwhole]
  omega

/-- Where the kernel ends that is loaded. -/
theorem readKernel_spec {f : DiskFile m.fs} {got : Got σ} {h : SetupHeader} {garbage : Bool}
    {kernelEnd : UInt32} (hfuel : 2 ^ 33 ≤ fuel)
    (hsize : f.size.toNat + m.fs.sectorSize - 1 < 2 ^ 32)
    (hcached : Cached f.map f.size f.ok got.inode) (hoffset : got.offset = min f.size.toNat 0x8000)
    (hread : readKernel m fuel iterations h got (decide (0x8000 < f.size.toNat)) garbage =
      some kernelEnd) :
    (setupBytes h).toNat ≤ 0x8000 ∧ kernelEnd.toNat ≤ 0xFFFF0004 ∧ kernelEnd.toNat % 2 = 0 ∧
      kernelEnd.toNat = if 0x8000 < f.size.toNat then
          padded (m.sym.freeHighMemory.toNat + f.size.toNat - (setupBytes h).toNat)
        else m.sym.freeHighMemory.toNat + 0x8000 - (setupBytes h).toNat := by
  have hfree := m.free_lt
  have haligned := m.sym.free_aligned
  have hwhole := setupBytes_mod h
  have hss := sectorSize_le m.shift_le
  rw [readKernel] at hread
  dsimp only at hread
  by_cases hsetup : (setupBytes h).toUInt32 > 0x8000
  · rw [if_pos hsetup] at hread
    exact nomatch hread
  have hsetup' : (setupBytes h).toUInt32 ≤ 0x8000 := UInt32.not_lt.mp hsetup
  have hle : (setupBytes h).toNat ≤ 0x8000 := by
    rw [UInt32.le_iff_toNat_le, UInt16.toNat_toUInt32] at hsetup'
    exact hsetup'
  have hedi := toNat_copyEnd m hsetup'
  rw [if_neg hsetup] at hread
  refine ⟨hle, ?_⟩
  split_ifs with hmore
  · have hmore' : decide (0x8000 < f.size.toNat) = true := decide_eq_true hmore
    rw [if_pos hmore', Option.map_eq_some_iff] at hread
    obtain ⟨loaded, hload, rfl⟩ := hread
    have hboundary : AtBoundary m.fs f.size got.offset := by
      rw [hoffset, Nat.min_eq_right (by omega)]
      exact ⟨by omega, Or.inl (Nat.pow_dvd_pow 2 m.shift_le)⟩
    have hfirst : m.sym.freeHighMemory.toNat + 0x8000 - (setupBytes h).toNat ≤ 0xFFFF0000 := by
      omega
    obtain ⟨hebx, hbound, hpad⟩ := loadHigh_spec m.shift_le f.implements hsize hcached hboundary
      m.mem_le (by dsimp only; omega) hfuel hload
    dsimp only at hebx hbound hpad
    rw [hedi] at hebx hbound
    replace hbound := hbound.trans (max_le hfirst le_rfl)
    have hmax : (0xFFFFFFFF : UInt32).toNat = 2 ^ 32 - 1 := rfl
    have hlt := f.size.toNat_lt
    have hend : loaded.ebx.toNat =
        m.sym.freeHighMemory.toNat + f.size.toNat - (setupBytes h).toNat := by
      rw [hebx, hmax, hoffset]
      omega
    rw [hpad, toNat_padded (by omega), hend]
    refine ⟨?_, ?_, rfl⟩
    · rw [padded]
      omega
    · rw [padded]
      omega
  · have hmore' : ¬decide (0x8000 < f.size.toNat) = true := by
      rw [decide_eq_true_eq]
      exact hmore
    rw [if_neg hmore'] at hread
    obtain rfl := Option.some.inj hread
    rw [hedi]
    exact ⟨by omega, by omega, rfl⟩

/-! ## The lists -/

/-- All descriptors have a length, so that the shuffler executes them and enters the stub. -/
def ShufflesAll (sym : Symbols) (list : List Descriptor) : Prop :=
  (∀ d ∈ list, d.len ≠ 0) ∧ ∀ mem, pmShuffle (list ++ [terminator sym.replaceStub]) mem =
    (list.foldl (fun mem d => pmBcopy d mem) mem, some (terminator sym.replaceStub))

/-- The shuffler makes every move if no descriptor has the length zero, which ends its list. -/
theorem shufflesAll_iff (sym : Symbols) (list : List Descriptor) :
    ShufflesAll sym list ↔ ∀ d ∈ list, d.len ≠ 0 :=
  ⟨And.left, fun h => ⟨h, fun _ => pmShuffle_eq h rfl⟩⟩

/-- The header of a kernel, which lies in its first 32K. -/
def Kernel.header (k : Kernel m) : SetupHeader :=
  setupHeader ((contents m.fs k.kernel.map k.kernel.size.toNat).take 0x8000)

/-- The setup code leaves something of a kernel, and one of the initrds is not empty, or there is
padding between them. -/
def Kernel.MovesAll (k : Kernel m) : Prop :=
  (k.kernel.size.toNat ≤ 0x8000 → setupBytes k.header ≠ 0x8000) ∧
    (k.initrds = [] ∨ (∃ f, some f ∈ k.initrds ∧ 0 < f.delivers) ∨
      (2 ≤ k.initrds.length ∧ 0x8000 < k.kernel.size.toNat ∧ k.kernel.size.toNat % 2 = 1))

/-- The images whose descriptors all have a length. A boot sector has to leave some of the low
memory, or more than all of it. -/
def Image.MovesAll : Image m → Prop
  | .linux k => k.MovesAll
  | .bootsector file _ =>
    file.delivers ≠ 0 ∧ 0x7C00 + file.delivers ≠ m.biosFbm.toNat * 1024

/-- When no descriptor of a Linux kernel has the length zero. -/
theorem setupMove_lengths (sym : Symbols) (s : Loader) :
    (∀ d ∈ setupMove sym s, d.len ≠ 0) ↔
      (s.loadFlags &&& loadHighFlag = 0 → s.cmdLineEnd.toUInt32 ≠ 0) ∧
        s.kernelEnd ≠ sym.freeHighMemory ∧ (s.initRDPtr ≠ 0 → s.suRamdisklen ≠ 0) := by
  have hkernel : -sym.freeHighMemory + s.kernelEnd ≠ 0 ↔ s.kernelEnd ≠ sym.freeHighMemory := by
    rw [UInt32.add_comm, ← UInt32.sub_eq_add_neg]
    exact not_congr UInt32.sub_eq_iff_eq_add |>.trans (by rw [UInt32.zero_add])
  rw [← hkernel, setupMove]
  by_cases hhigh : s.loadFlags &&& loadHighFlag = 0 <;> by_cases hptr : s.initRDPtr = 0 <;>
    simp [hhigh, hptr, or_imp, forall_and]

theorem cmdLineEnd_ne_zero (kernelVersion cmdLineLen : UInt16) :
    (cmdLineEnd kernelVersion cmdLineLen).toUInt32 ≠ 0 := by
  have hlimit : (if kernelVersion ≤ 0x201 then (255 : UInt16) else 2047).toNat ≤ 2047 := by
    split_ifs
    · exact Nat.le_of_ble_eq_true rfl
    · exact le_rfl
  rw [cmdLineEnd]
  generalize (if kernelVersion ≤ 0x201 then (255 : UInt16) else 2047) = limit at hlimit ⊢
  have hmin : (min cmdLineLen limit).toNat ≤ 2047 := by
    change (if cmdLineLen ≤ limit then cmdLineLen else limit).toNat ≤ 2047
    split_ifs with hle
    · exact (UInt16.le_iff_toNat_le.mp hle).trans hlimit
    · exact hlimit
  have hbase : (0x9800 : UInt16).toNat = 0x9800 := rfl
  have hone : (1 : UInt16).toNat = 1 := rfl
  refine ne_zero_of_toNat_pos ?_
  rw [UInt16.toNat_toUInt32, UInt16.toNat_add, UInt16.toNat_add, hbase, hone]
  omega

/-- Some bytes are delivered if one of the files delivers any. -/
theorem exists_delivered (files : List (Option (DiskFile fs))) :
    (∃ n ∈ files.map delivered, 0 < n) ↔ ∃ f, some f ∈ files ∧ 0 < f.delivers := by
  constructor
  · rintro ⟨n, hn, hpos⟩
    obtain ⟨file, hfile, rfl⟩ := List.mem_map.mp hn
    cases file with
    | none => exact absurd hpos (lt_irrefl 0)
    | some f => exact ⟨f, hfile, hpos⟩
  · rintro ⟨f, hfile, hpos⟩
    exact ⟨_, List.mem_map_of_mem hfile, hpos⟩

/-- What the loader has done when it comes to the descriptors of a kernel. -/
theorem isLinuxKernel_eq {k : Kernel m} {list : List Descriptor}
    (h : isLinuxKernel m fuel iterations k = some list) :
    ∃ (got : Got σ) (s : Loader),
      getfsbytes m.fs fuel (Inode.fresh k.kernel.size k.kernel.pvt) 0 0x8000 = some got ∧
      1024 ≤ got.data.length ∧
      readKernel m fuel iterations (setupHeader got.data) got (got.haveMore.getD (k.garbage 0))
        (k.garbage 1) = some s.kernelEnd ∧
      s.myHighMemSize ≤ m.myHighMemSize ∧
      loadInitrds m fuel iterations s.myHighMemSize k.garbage k.initrds 2 s.kernelEnd s.kernelEnd =
        some s.initRDEnd ∧
      s.initRDPtr = k.initRDPtr ∧ s.initRDStart = s.kernelEnd ∧ s.cmdLineEnd.toUInt32 ≠ 0 ∧
      list = setupMove m.sym (if k.initRDPtr = 0 then s else placeInitrd s) := by
  rw [isLinuxKernel] at h
  obtain ⟨got, hgot, h⟩ := Option.bind_eq_some_iff.mp h
  dsimp only at h
  by_cases hbad : got.data.length < 1024 ∨ (setupHeader got.data).bsBootsign ≠ 0xAA55
  · rw [if_pos hbad] at h
    exact nomatch h
  rw [if_neg hbad] at h
  rw [not_or, Nat.not_lt] at hbad
  obtain ⟨prepared, -, h⟩ := Option.bind_eq_some_iff.mp h
  obtain ⟨kernelEnd, hread, h⟩ := Option.bind_eq_some_iff.mp h
  obtain ⟨initRDEnd, hinitrds, h⟩ := Option.bind_eq_some_iff.mp h
  refine ⟨got, _, hgot, hbad.1, hread, ?_, hinitrds, rfl, rfl, cmdLineEnd_ne_zero _ _,
    (Option.some.inj h).symm⟩
  dsimp only
  split_ifs with hmax
  · exact UInt32.le_refl _
  · exact UInt32.not_lt.mp hmax

/-- The descriptors of a kernel. -/
theorem isLinuxKernel_lengths {k : Kernel m} {list : List Descriptor} (hfuel : 2 ^ 33 ≤ fuel)
    (h : isLinuxKernel m fuel iterations k = some list) :
    (∀ d ∈ list, d.len ≠ 0) ↔ k.MovesAll := by
  obtain ⟨got, s, hgot, hlength, hread, hmem, hinitrds, hptr, hstart, hcmdLine, rfl⟩ :=
    isLinuxKernel_eq h
  obtain ⟨hsize, hcached, hoffset, hdata, hmore⟩ := getfsbytes_spec m.shift_le hfuel hgot hlength
  rw [hmore, Option.getD_some, hdata] at hread
  change readKernel m fuel iterations k.header _ _ _ = _ at hread
  obtain ⟨hsetup, hbound, heven, hend⟩ := readKernel_spec hfuel hsize hcached hoffset hread
  have hwhole := setupBytes_mod k.header
  have haligned := m.sym.free_aligned
  have hmem' := (UInt32.le_iff_toNat_le.mp hmem).trans m.mem_le
  have hkernel : s.kernelEnd ≠ m.sym.freeHighMemory ↔
      (k.kernel.size.toNat ≤ 0x8000 → setupBytes k.header ≠ 0x8000) := by
    have hset : setupBytes k.header ≠ 0x8000 ↔ (setupBytes k.header).toNat ≠ 0x8000 :=
      not_congr UInt16.toNat_inj.symm
    rw [hset, ne_eq, ← UInt32.toNat_inj, hend]
    split_ifs with hlarge
    · rw [padded]
      omega
    · omega
  have hpad : s.kernelEnd.toNat % 4 ≠ 0 ↔
      0x8000 < k.kernel.size.toNat ∧ k.kernel.size.toNat % 2 = 1 := by
    rw [hend]
    split_ifs with hlarge
    · rw [padded]
      omega
    · omega
  have hinitrd : (s.initRDPtr ≠ 0 → s.initRDEnd - s.kernelEnd ≠ 0) ↔
      k.initrds = [] ∨ (∃ f, some f ∈ k.initrds ∧ 0 < f.delivers) ∨
        (2 ≤ k.initrds.length ∧ 0x8000 < k.kernel.size.toNat ∧
          k.kernel.size.toNat % 2 = 1) := by
    by_cases hnil : k.initrds = []
    · exact ⟨fun _ => Or.inl hnil, fun _ hne => absurd (hptr.trans (k.ptr_eq_zero.mpr hnil)) hne⟩
    · have hne : s.initRDPtr ≠ 0 := hptr ▸ mt k.ptr_eq_zero.mp hnil
      rw [or_iff_right hnil, ← exists_delivered, ← hpad, ← List.length_map delivered,
        ← initrdsEnd_ne_iff (mt List.map_eq_nil_iff.mp hnil) heven,
        ← loadInitrds_spec hfuel hmem' k.initrds hbound heven hinitrds, imp_iff_right hne, ne_eq,
        UInt32.sub_eq_iff_eq_add, UInt32.zero_add, ← UInt32.toNat_inj]
  rw [Kernel.MovesAll, ← hkernel, ← hinitrd, setupMove_lengths]
  split_ifs with hzero
  · rw [hptr]
    exact ⟨fun h => ⟨h.2.1, absurd hzero⟩, fun h => ⟨fun _ => hcmdLine, h.1, absurd hzero⟩⟩
  · have hlen : (placeInitrd s).suRamdisklen = s.initRDEnd - s.kernelEnd :=
      congrArg (s.initRDEnd - ·) hstart
    rw [hlen]
    exact ⟨And.right, fun h => ⟨fun _ => hcmdLine, h⟩⟩

/-- The length of a boot sector that is loaded. -/
theorem loadBootsec_length {file : DiskFile m.fs} {garbage : Bool} {loaded : Loaded σ}
    (hfuel : 2 ^ 33 ≤ fuel)
    (h : loadHigh m.fs fuel iterations
      ⟨0xA0000, m.abortCheck, 0, m.sym.freeHighMemory, m.myHighMemSize⟩
      (Inode.fresh file.size file.pvt) 0 garbage = some loaded) :
    (loaded.edi - m.sym.freeHighMemory).toNat = min 0xA0000 file.delivers := by
  have hfree := m.free_lt
  obtain ⟨hebx, -, hpad⟩ := loadHigh_fresh m.shift_le m.mem_le (by dsimp only; omega) hfuel h
  have hedi : loaded.edi = loaded.ebx := by
    rw [hpad]
    exact (congrArg _ UInt32.and_zero).trans (UInt32.add_zero _)
  have hmax : (0xA0000 : UInt32).toNat = 0xA0000 := rfl
  dsimp only at hebx
  rw [hmax] at hebx
  rw [hedi, UInt32.toNat_sub_of_le _ _ (UInt32.le_iff_toNat_le.mpr (by omega)), hebx]
  omega

/-- The descriptors of a boot sector: itself, and what is left of the base memory. -/
theorem isBootsector_eq {file : DiskFile m.fs} {garbage : Bool} {list : List Descriptor}
    (hfuel : 2 ^ 33 ≤ fuel) (h : isBootsector m fuel iterations file garbage = some list) :
    ∃ length : UInt32, length.toNat = file.delivers ∧ file.delivers ≤ 0xA0000 - 0x7C00 ∧
      list = [⟨0x7C00, m.sym.freeHighMemory, length⟩,
        ⟨0x7C00 + length, 0xFFFFFFFF, m.biosFbm.toUInt32 <<< 10 - (0x7C00 + length)⟩] := by
  rw [isBootsector] at h
  obtain ⟨loaded, hload, h⟩ := Option.bind_eq_some_iff.mp h
  have hlength := loadBootsec_length hfuel hload
  dsimp only at h
  by_cases hbig : loaded.edi - m.sym.freeHighMemory > 0xA0000 - 0x7C00
  · rw [if_pos hbig] at h
    exact nomatch h
  have hsmall := UInt32.le_iff_toNat_le.mp (UInt32.not_lt.mp hbig)
  change _ ≤ 0x98400 at hsmall
  rw [if_neg hbig] at h
  exact ⟨_, by omega, by omega, (Option.some.inj h).symm⟩

/-- The base memory, in bytes. -/
theorem toNat_biosFbm (m : Machine σ) :
    (m.biosFbm.toUInt32 <<< 10).toNat = m.biosFbm.toNat * 1024 := by
  have hten : (10 : UInt32).toNat % 32 = 10 := rfl
  have hlt := m.biosFbm.toNat_lt
  rw [UInt32.toNat_shiftLeft, hten, Nat.shiftLeft_eq, UInt16.toNat_toUInt32]
  omega

/-- Where a boot sector ends. -/
theorem toNat_bootsecEnd {length : UInt32} (h : length.toNat ≤ 0xA0000 - 0x7C00) :
    (0x7C00 + length).toNat = 0x7C00 + length.toNat := by
  have hbase : (0x7C00 : UInt32).toNat = 0x7C00 := rfl
  rw [UInt32.toNat_add, hbase]
  omega

/-- When no descriptor of a boot sector has the length zero. -/
theorem isBootsector_lengths {file : DiskFile m.fs} {garbage : Bool} {list : List Descriptor}
    (hfuel : 2 ^ 33 ≤ fuel)
    (h : isBootsector m fuel iterations file garbage = some list) :
    (∀ d ∈ list, d.len ≠ 0) ↔ (Image.bootsector file garbage).MovesAll := by
  obtain ⟨length, hlength, hsmall, rfl⟩ := isBootsector_eq hfuel h
  have htop := toNat_bootsecEnd (hlength ▸ hsmall)
  have hzero : (0 : UInt32).toNat = 0 := rfl
  rw [Image.MovesAll, List.forall_mem_cons, List.forall_mem_singleton, ne_eq, ne_eq,
    UInt32.sub_eq_iff_eq_add, UInt32.zero_add, ← UInt32.toNat_inj, ← UInt32.toNat_inj,
    toNat_biosFbm, htop, hlength, hzero, eq_comm (a := m.biosFbm.toNat * 1024)]

/-- For every image that the loader accepts, all its descriptors have a length, and the shuffler
executes them all and enters the stub, if and only if something is moved in each of them. -/
theorem shufflesAll_iff_movesAll (m : Machine σ) (image : Image m) (fuel iterations : Nat)
    (hfuel : 2 ^ 33 ≤ fuel) (list : List Descriptor)
    (h : image.descriptors fuel iterations = some list) :
    ShufflesAll m.sym list ↔ image.MovesAll := by
  rw [shufflesAll_iff]
  cases image with
  | linux k => exact isLinuxKernel_lengths hfuel h
  | bootsector file garbage => exact isBootsector_lengths hfuel h

/-! ## Examples -/

/-- The first sectors of a kernel: the signature, a setup code of two sectors, and a header of
version 2.06 that asks to be loaded high. -/
def sampleKernelDisk (p : Nat) : List UInt8 :=
  match p with
  | 0 => List.replicate 0x1F1 0 ++ 2 :: List.replicate 12 0 ++ [0x55, 0xAA]
  | 1 => [0xEB, 0x3C, 0x48, 0x64, 0x72, 0x53, 6, 2] ++ List.replicate 9 0 ++ 1 ::
      List.replicate 26 0 ++ [0xFF, 0xFF, 0xFF, 0x37] ++ List.replicate 464 0
  | _ => List.replicate 512 0

theorem sampleKernelDisk_length (p : Nat) : (sampleKernelDisk p).length = 2 ^ 9 := by
  match p with
  | 0 => decide +kernel
  | 1 => decide +kernel
  | _ + 2 => exact List.length_replicate

/-- A file that lies in the first sectors of the disk. -/
def sampleKernelFs : FsInfo Unit where
  nextExtent _ lstart := ⟨false, lstart, 1, ()⟩
  sectorShift := 9
  disk := sampleKernelDisk
  shift_lt := usualShift_lt
  disk_length := sampleKernelDisk_length

/-- The sample file system implements the file that the loader is given. -/
theorem sampleKernelFs_implements (size : UInt32) (h : size.toNat ≤ 2 ^ 20) :
    Implements sampleKernelFs some size fun _ => True := by
  refine ⟨fun _ lstart _ _ _ hlt => ?_⟩
  have hsectors : sampleKernelFs.sectorsOf size.toNat = (size.toNat + 511) / 512 := rfl
  have hlstart : lstart < 2 ^ 21 := by omega
  refine ⟨rfl, Nat.one_pos, trivial, ?_, fun _ => Or.inr ?_, fun j hj => ?_⟩
  · change lstart + 1 < 2 ^ 32
    omega
  · change lstart + 1 ≤ extentVoid
    rw [extentVoid]
    omega
  · have hordinary : lstart ≠ extentZero := by
      rw [extentZero]
      omega
    exact (if_neg hordinary).symm

def sampleMachine : Machine Unit where
  sym := sampleSymbols
  fs := sampleKernelFs
  biosFbm := 639
  myHighMemSize := 0x1000000
  dotPause := 1
  abortCheck := 1
  shift_le := by decide
  free_lt := by decide
  mem_le := by decide

def sampleFile (size : UInt32) (h : size.toNat ≤ 2 ^ 20) : DiskFile sampleMachine.fs where
  size := size
  pvt := ()
  map := some
  ok _ := True
  implements := sampleKernelFs_implements size h
  pvt_ok := trivial

/-- A kernel of 1536 bytes and an initrd. -/
def sampleKernel (size : UInt32) (h : size.toNat ≤ 2 ^ 20) : Kernel sampleMachine where
  kernel := sampleFile 1536 (by decide)
  cmdLineLen := 40
  quietBoot := 0
  initRDPtr := 0xF820
  initrds := [some (sampleFile size h)]
  ptr_eq_zero := ⟨nofun, nofun⟩
  garbage _ := false

/-- A kernel with one initial RAM disk of 700 bytes. -/
theorem shufflesAll_iff_movesAll_sample :
    ShufflesAll sampleSymbols [⟨0x100000, 0x120000, 31232⟩, ⟨0xFFF000, 1210880, 700⟩] ↔
      (Image.linux (sampleKernel 700 (by decide))).MovesAll :=
  shufflesAll_iff_movesAll sampleMachine (.linux (sampleKernel 700 (by decide))) (2 ^ 33) 9 le_rfl
    [⟨0x100000, 0x120000, 31232⟩, ⟨0xFFF000, 1210880, 700⟩] (by decide +kernel)

/-- With an empty initrd, the shuffler ends at its descriptor, and enters its target. -/
theorem empty_initrd_not_shufflesAll : ¬∀ (m : Machine Unit) (image : Image m)
    (fuel iterations : Nat) (list : List Descriptor), 2 ^ 33 ≤ fuel →
      image.descriptors fuel iterations = some list → ShufflesAll m.sym list := by
  intro h
  have hlist : (Image.linux (sampleKernel 0 (by decide))).descriptors (2 ^ 33) 9 =
      some [⟨0x100000, 0x120000, 31232⟩, ⟨0x1000000, 1210880, 0⟩] := by
    decide +kernel
  have hlen := (h sampleMachine _ _ _ _ le_rfl hlist).1 ⟨0x1000000, 1210880, 0⟩
    (List.mem_cons_of_mem _ List.mem_cons_self)
  exact hlen rfl

end Liigboot.Boot
