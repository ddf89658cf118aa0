import Liigboot.Boot.ParseCmdline
import Liigboot.Boot.ShuffleList
import Liigboot.Fs.LoadRest

/-!
# A kernel in memory

The first 32K of a kernel are read into the segment `real_mode_seg`. From there, `read_kernel`
copies all that is behind the setup code to `free_high_memory`, however long the file is; it loads
the rest of the file behind that, and clears the segment behind the setup code.
-/

namespace Liigboot.Boot

open Liigboot.Fs

variable {σ : Type}

/-! ## The source -/

/-- What is stored into the segment of a kernel between the read and `read_kernel`, by the addresses
in the segment: fields of the boot sector and of the header behind it, and the command line. -/
structure Patches where
  stores : List (Nat × UInt8)
  places : ∀ x ∈ stores, 0x1FA ≤ x.1 ∧ x.1 < 0x226 ∨ cmdLineHere ≤ x.1 ∧ x.1 < 0x10000

/-- The memory in front of `read_kernel`. -/
def kernelSegment (m : Machine σ) (fuel : Nat) (f : DiskFile m.fs) (patches : Patches)
    (mem : Memory) : Memory :=
  let read := readBuffer m.fs fuel (Inode.fresh f.size f.pvt) 0 (0x8000 / m.fs.sectorSize)
  let mem := putAll mem (storesFrom m.sym.coreRealMode.toNat read)
  putAll mem (patches.stores.map fun (a, b) => (m.sym.coreRealMode.toNat + a, b))

/-- `bcopy`. -/
def bcopy (d : Descriptor) (mem : Memory) : Memory :=
  if d.len = 0 then mem else pmBcopy d mem

/-- The end of `read_kernel`: the segment is cleared from the end of the setup code up to the
command line. -/
def clearSegment (m : Machine σ) (h : SetupHeader) (mem : Memory) : Memory :=
  let di := setupBytes h
  let cx := (UInt16.ofNat cmdLineHere - di) >>> 2
  repStosb mem 0 (4 * cx.toNat) (m.sym.coreRealMode.toNat + di.toNat)

/-- `read_kernel`, with the memory. -/
def readKernelMemory (m : Machine σ) (fuel iterations : Nat) (h : SetupHeader) (got : Got σ)
    (haveMore garbage : Bool) (mem : Memory) : Option (UInt32 × Memory) :=
  let esi := (setupBytes h).toUInt32
  let ecx := 0x8000 - esi
  -- A length below zero wraps, and the copy runs over the loader.
  if esi > 0x8000 then none
  else
    let mem := bcopy ⟨m.sym.freeHighMemory, m.sym.coreRealMode + esi, ecx⟩ mem
    let edi := m.sym.freeHighMemory + ecx
    if haveMore then
      let regs : LoadRegs := ⟨0xFFFFFFFF, m.dotPause, 3, edi, m.myHighMemSize⟩
      (loadHigh m.fs fuel iterations regs got.inode got.offset garbage).map fun loaded =>
        let stores := pmLoadHighStores m.fs fuel iterations regs got.inode got.offset garbage loaded
        (loaded.edi, clearSegment m h (putAll mem stores))
    else some (edi, clearSegment m h mem)

/-- `is_linux_kernel`, as far as `read_kernel`: `KernelEnd` and the memory. A file that is too
short, or has no signature, is rejected. -/
def loadLinuxKernel (m : Machine σ) (fuel iterations : Nat) (f : DiskFile m.fs) (patches : Patches)
    (garbage : Nat → Bool) (mem : Memory) : Option (UInt32 × Memory) := do
  let got ← getfsbytes m.fs fuel (Inode.fresh f.size f.pvt) 0 0x8000
  let h := setupHeader got.data
  if got.data.length < 1024 ∨ h.bsBootsign ≠ 0xAA55 then none
  else
    let haveMore := got.haveMore.getD (garbage 0)
    readKernelMemory m fuel iterations h got haveMore (garbage 1) (kernelSegment m fuel f patches mem)

/-! ## What is in memory -/

/-- The sectors of the boot sector and the setup code. -/
def setupSecs (h : SetupHeader) : Nat :=
  (if h.bsSetupsecs = 0 then 4 else h.bsSetupsecs.toNat) + 1

/-- The header of a file, which lies in its first 32K. -/
def DiskFile.header {fs : FsInfo σ} (f : DiskFile fs) : SetupHeader :=
  setupHeader ((contents fs f.map f.size.toNat).take 0x8000)

/-- The bytes of a file's boot sector and setup code. -/
def DiskFile.setup {fs : FsInfo σ} (f : DiskFile fs) : Nat := setupSecs f.header * 512

/-- What `read_kernel` is to leave: the file behind its setup code, padding, and nothing else. -/
structure KernelExact (m : Machine σ) (f : DiskFile m.fs) (mem : Memory) (kernelEnd : UInt32)
    (mem' : Memory) : Prop where
  setup_le : f.setup ≤ 0x8000 ∧ f.setup ≤ f.size.toNat
  kernelEnd_le : m.sym.freeHighMemory.toNat + (f.size.toNat - f.setup) ≤ kernelEnd.toNat ∧
    kernelEnd.toNat ≤ m.sym.freeHighMemory.toNat + (f.size.toNat - f.setup) + 3
  bytes : ∀ i b, (contents m.fs f.map f.size.toNat)[f.setup + i]? = some b →
    mem' (m.sym.freeHighMemory.toNat + i) = b
  padding : ∀ a, m.sym.freeHighMemory.toNat + (f.size.toNat - f.setup) ≤ a →
    a < kernelEnd.toNat → mem' a = 0
  others : ∀ a, ¬(m.sym.freeHighMemory.toNat ≤ a ∧ a < kernelEnd.toNat) → mem' a = mem a

/-- What `read_kernel` leaves when the setup code lies in the first 32K. -/
structure KernelLoaded (m : Machine σ) (f : DiskFile m.fs) (mem : Memory) (kernelEnd : UInt32)
    (mem' : Memory) : Prop where
  kernelEnd_eq : kernelEnd.toNat = if 0x8000 < f.size.toNat then
      padded (m.sym.freeHighMemory.toNat + f.size.toNat - f.setup)
    else m.sym.freeHighMemory.toNat + 0x8000 - f.setup
  bytes : ∀ i b, (contents m.fs f.map f.size.toNat)[f.setup + i]? = some b →
    mem' (m.sym.freeHighMemory.toNat + i) = b
  padding : 0x8000 < f.size.toNat → ∀ a, m.sym.freeHighMemory.toNat + f.size.toNat ≤ a + f.setup →
    a < kernelEnd.toNat → mem' a = 0
  /-- Behind a file of less than 32K, the segment is copied as it is. -/
  window : ∀ i, f.size.toNat ≤ f.setup + i → f.setup + i < 0x8000 →
    mem' (m.sym.freeHighMemory.toNat + i) = mem (m.sym.coreRealMode.toNat + f.setup + i)
  cleared : ∀ a, m.sym.coreRealMode.toNat + f.setup ≤ a →
    a < m.sym.coreRealMode.toNat + cmdLineHere → mem' a = 0
  /-- The last sector of the file is stored as a whole. -/
  others : ∀ a, ¬(m.sym.coreRealMode.toNat + f.setup ≤ a ∧
      a < m.sym.coreRealMode.toNat + cmdLineHere) →
    ¬(m.sym.freeHighMemory.toNat ≤ a ∧ (a < kernelEnd.toNat ∨
      a + f.setup < m.sym.freeHighMemory.toNat +
        m.fs.sectorsOf f.size.toNat * m.fs.sectorSize)) → mem' a = mem a

/-! ## The steps -/

variable {m : Machine σ} {f : DiskFile m.fs} {patches : Patches} {fuel iterations : Nat}
  {h : SetupHeader} {got : Got σ} {haveMore garbage : Bool} {mem mem' : Memory}
  {kernelEnd : UInt32} {a : Nat}

/-- The addresses do not depend on the memory. -/
theorem readKernelMemory_fst :
    (readKernelMemory m fuel iterations h got haveMore garbage mem).map Prod.fst =
      readKernel m fuel iterations h got haveMore garbage := by
  rw [readKernelMemory, readKernel]
  dsimp only
  split_ifs
  · rfl
  · rw [Option.map_map]
    rfl
  · rfl

theorem setupSecs_pos : 2 ≤ setupSecs h := by
  rw [setupSecs]
  split_ifs with hzero
  · decide
  · have hpos : h.bsSetupsecs.toNat ≠ 0 := fun heq => hzero (UInt8.toNat_inj.mp heq)
    omega

/-- A setup code that lies in the first 32K has a length of 16 bits. -/
theorem toNat_setupBytes (hle : setupSecs h * 512 ≤ 0x8000) :
    (setupBytes h).toNat = setupSecs h * 512 := by
  have hnine : (9 : UInt16).toNat % 16 = 9 := rfl
  have hsecs : ((if h.bsSetupsecs = 0 then 4 else h.bsSetupsecs.toUInt16) + 1).toNat =
      setupSecs h := by
    have hlt := h.bsSetupsecs.toNat_lt
    rw [UInt16.toNat_add, setupSecs]
    split_ifs
    · rfl
    · rw [UInt8.toNat_toUInt16]
      exact Nat.mod_eq_of_lt (by change h.bsSetupsecs.toNat + 1 < _; omega)
  rw [setupBytes, UInt16.toNat_shiftLeft, hnine, hsecs, Nat.shiftLeft_eq]
  exact Nat.mod_eq_of_lt (by omega)

/-- A descriptor with a source is a move of memory. -/
theorem bcopy_eq (d : Descriptor) (hsrc : d.src ≠ 0xFFFFFFFF) :
    bcopy d mem = d.move.run mem := by
  rw [bcopy, pmBcopy, if_neg hsrc]
  split_ifs with hlen
  · funext a
    have hnone : d.move.len = 0 := congrArg UInt32.toNat hlen
    rw [Move.run, if_neg (by omega)]
  · rfl

/-- The segment is cleared from behind the setup code up to the command line. -/
theorem clearSegment_eq (hle : (setupBytes h).toNat ≤ 0x8000) :
    clearSegment m h mem a =
      if m.sym.coreRealMode.toNat + (setupBytes h).toNat ≤ a ∧
        a < m.sym.coreRealMode.toNat + cmdLineHere then 0 else mem a := by
  have hmod := setupBytes_mod h
  have hend : (UInt16.ofNat cmdLineHere).toNat = cmdLineHere := rfl
  have hsub : (UInt16.ofNat cmdLineHere - setupBytes h).toNat =
      cmdLineHere - (setupBytes h).toNat := by
    rw [UInt16.toNat_sub_of_le _ _ (UInt16.le_iff_toNat_le.mpr ?_), hend]
    rw [hend, cmdLineHere]
    omega
  have htwo : (2 : UInt16).toNat % 16 = 2 := rfl
  have hcount : 4 * ((UInt16.ofNat cmdLineHere - setupBytes h) >>> 2).toNat =
      cmdLineHere - (setupBytes h).toNat := by
    rw [UInt16.toNat_shiftRight, htwo, hsub, Nat.shiftRight_eq_div_pow, cmdLineHere]
    omega
  have hplace : m.sym.coreRealMode.toNat + (setupBytes h).toNat +
      (cmdLineHere - (setupBytes h).toNat) = m.sym.coreRealMode.toNat + cmdLineHere := by
    rw [cmdLineHere]
    omega
  rw [clearSegment, repStosb_eq, hcount, hplace]

/-- What was read of the file stands in the segment, behind the header. -/
theorem kernelSegment_byte
    (hlayout : m.sym.coreRealMode.toNat + 0x10000 ≤ m.sym.freeHighMemory.toNat)
    (hgot : getfsbytes m.fs fuel (Inode.fresh f.size f.pvt) 0 0x8000 = some got) {i : Nat}
    (hi : 0x226 ≤ i ∧ i < cmdLineHere) {b : UInt8} (hb : got.data[i]? = some b) :
    kernelSegment m fuel f patches mem (m.sym.coreRealMode.toNat + i) = b := by
  have hfree := m.free_lt
  have hlength := @length_readBuffer_le _ m.fs fuel (Inode.fresh f.size f.pvt) 0
    (0x8000 / m.fs.sectorSize)
  have hwhole : 0x8000 / m.fs.sectorSize * m.fs.sectorSize ≤ 0x8000 := Nat.div_mul_le_self _ _
  rw [kernelSegment]
  dsimp only
  rw [putAll_of_ne, storesFrom_eq (by omega)]
  · exact putAll_storesAt_front (data_front hgot) hb
  · intro x hx
    obtain ⟨⟨place, byte⟩, hmem, rfl⟩ := List.mem_map.mp hx
    have hplace := patches.places _ hmem
    dsimp only at hplace ⊢
    omega

/-! ## The whole -/

/-- What `readKernelMemory` does with the memory in front of the end. -/
theorem readKernelMemory_cases
    (hread : readKernelMemory m fuel iterations h got haveMore garbage mem =
      some (kernelEnd, mem')) :
    ∃ placed, mem' = clearSegment m h placed ∧
      (haveMore = false ∧ placed = bcopy ⟨m.sym.freeHighMemory,
          m.sym.coreRealMode + (setupBytes h).toUInt32, 0x8000 - (setupBytes h).toUInt32⟩ mem ∨
        haveMore = true ∧ ∃ regs loaded, regs = LoadRegs.mk 0xFFFFFFFF m.dotPause 3
            (m.sym.freeHighMemory + (0x8000 - (setupBytes h).toUInt32)) m.myHighMemSize ∧
          loadHigh m.fs fuel iterations regs got.inode got.offset garbage = some loaded ∧
          kernelEnd = loaded.edi ∧
          placed = putAll (bcopy ⟨m.sym.freeHighMemory, m.sym.coreRealMode +
            (setupBytes h).toUInt32, 0x8000 - (setupBytes h).toUInt32⟩ mem)
            (pmLoadHighStores m.fs fuel iterations regs got.inode got.offset garbage loaded)) := by
  rw [readKernelMemory] at hread
  dsimp only at hread
  split_ifs at hread with hsetup hmore
  · obtain ⟨loaded, hload, heq⟩ := Option.map_eq_some_iff.mp hread
    obtain ⟨rfl, rfl⟩ := Prod.mk.inj heq
    exact ⟨_, rfl, Or.inr ⟨hmore, _, loaded, rfl, hload, rfl, rfl⟩⟩
  · obtain ⟨-, rfl⟩ := Prod.mk.inj (Option.some.inj hread)
    exact ⟨_, rfl, Or.inl ⟨Bool.eq_false_iff.mpr hmore, rfl⟩⟩

/-- A load that returns is one that did not run out of memory. -/
theorem loadHigh_iff {regs : LoadRegs} {inode : Inode σ} {offset : Nat} {loaded : Loaded σ} :
    loadHigh m.fs fuel iterations regs inode offset garbage = some loaded ↔
      pmLoadHigh m.fs fuel iterations regs inode offset garbage = some loaded ∧
        loaded.flag ≠ .overflow := by
  unfold loadHigh
  cases pmLoadHigh m.fs fuel iterations regs inode offset garbage with
  | none => exact ⟨fun h => (nomatch h), fun h => (nomatch h.1)⟩
  | some loaded' =>
    dsimp only
    split_ifs with hflag
    · refine ⟨fun h => (nomatch h), fun ⟨heq, hne⟩ => ?_⟩
      obtain rfl := Option.some.inj heq
      exact absurd hflag hne
    · refine ⟨fun heq => ⟨heq, ?_⟩, fun h => h.1⟩
      obtain rfl := Option.some.inj heq
      exact hflag

/-- What the copy of the first 32K leaves. -/
structure Copied (m : Machine σ) (setup : Nat) (mem copied : Memory) : Prop where
  window : ∀ i, setup + i < 0x8000 →
    copied (m.sym.freeHighMemory.toNat + i) = mem (m.sym.coreRealMode.toNat + setup + i)
  others : ∀ a, ¬(m.sym.freeHighMemory.toNat ≤ a ∧
    a + setup < m.sym.freeHighMemory.toNat + 0x8000) → copied a = mem a

/-- The move brings the setup code into the segment. -/
theorem bcopy_copied
    (hlayout : m.sym.coreRealMode.toNat + 0x10000 ≤ m.sym.freeHighMemory.toNat)
    (hle : (setupBytes h).toNat ≤ 0x8000) :
    Copied m (setupBytes h).toNat mem (bcopy ⟨m.sym.freeHighMemory,
      m.sym.coreRealMode + (setupBytes h).toUInt32, 0x8000 - (setupBytes h).toUInt32⟩ mem) := by
  have hfree := m.free_lt
  have hsrc : (m.sym.coreRealMode + (setupBytes h).toUInt32).toNat =
      m.sym.coreRealMode.toNat + (setupBytes h).toNat := by
    rw [UInt32.toNat_add, UInt16.toNat_toUInt32]
    exact Nat.mod_eq_of_lt (by omega)
  have hsetup : (setupBytes h).toUInt32 ≤ 0x8000 := by
    rw [UInt32.le_iff_toNat_le, UInt16.toNat_toUInt32]
    exact hle
  have hwhole : (0x8000 : UInt32).toNat = 0x8000 := rfl
  have hlen : (0x8000 - (setupBytes h).toUInt32).toNat = 0x8000 - (setupBytes h).toNat := by
    rw [UInt32.toNat_sub_of_le _ _ hsetup, UInt16.toNat_toUInt32, hwhole]
  have hlast : (0xFFFFFFFF : UInt32).toNat = 2 ^ 32 - 1 := rfl
  have hne : m.sym.coreRealMode + (setupBytes h).toUInt32 ≠ 0xFFFFFFFF := by
    intro heq
    have hnat := congrArg UInt32.toNat heq
    rw [hsrc, hlast] at hnat
    omega
  rw [bcopy_eq ⟨m.sym.freeHighMemory, m.sym.coreRealMode + (setupBytes h).toUInt32,
    0x8000 - (setupBytes h).toUInt32⟩ hne]
  refine ⟨fun i hi => ?_, fun a ha => ?_⟩
  · have hplace : m.sym.freeHighMemory.toNat + i - m.sym.freeHighMemory.toNat = i :=
      Nat.add_sub_cancel_left _ _
    rw [Move.run, Descriptor.move]
    dsimp only
    rw [hsrc, hlen, if_pos (by omega), hplace]
  · rw [Move.run, Descriptor.move]
    dsimp only
    rw [hlen, if_neg (by omega)]

/-- The end of `read_kernel` spares what is loaded. -/
theorem KernelLoaded.of_placed {placed : Memory}
    (hlayout : m.sym.coreRealMode.toNat + 0x10000 ≤ m.sym.freeHighMemory.toNat)
    (hle : f.setup ≤ 0x8000) (hsetup : (setupBytes f.header).toNat = f.setup)
    (hend : kernelEnd.toNat = if 0x8000 < f.size.toNat then
        padded (m.sym.freeHighMemory.toNat + f.size.toNat - f.setup)
      else m.sym.freeHighMemory.toNat + 0x8000 - f.setup)
    (hbytes : ∀ i b, (contents m.fs f.map f.size.toNat)[f.setup + i]? = some b →
      placed (m.sym.freeHighMemory.toNat + i) = b)
    (hpadding : 0x8000 < f.size.toNat → ∀ a,
      m.sym.freeHighMemory.toNat + f.size.toNat ≤ a + f.setup → a < kernelEnd.toNat → placed a = 0)
    (hwindow : ∀ i, f.size.toNat ≤ f.setup + i → f.setup + i < 0x8000 →
      placed (m.sym.freeHighMemory.toNat + i) = mem (m.sym.coreRealMode.toNat + f.setup + i))
    (hothers : ∀ a, ¬(m.sym.freeHighMemory.toNat ≤ a ∧ (a < kernelEnd.toNat ∨
      a + f.setup < m.sym.freeHighMemory.toNat +
        m.fs.sectorsOf f.size.toNat * m.fs.sectorSize)) → placed a = mem a) :
    KernelLoaded m f mem kernelEnd (clearSegment m f.header placed) := by
  have hline : cmdLineHere ≤ 0x10000 := by decide
  have hclear : ∀ a, clearSegment m f.header placed a =
      if m.sym.coreRealMode.toNat + f.setup ≤ a ∧ a < m.sym.coreRealMode.toNat + cmdLineHere then 0
      else placed a := by
    intro a
    rw [clearSegment_eq (by omega), hsetup]
  refine ⟨hend, fun i b hb => ?_, fun hlong a hge hlt => ?_, fun i hge hlt => ?_,
    fun a hge hlt => ?_, fun a hsegment hhigh => ?_⟩
  · rw [hclear, if_neg (by omega)]
    exact hbytes i b hb
  · rw [hclear, if_neg (by omega)]
    exact hpadding hlong a hge hlt
  · rw [hclear, if_neg (by omega)]
    exact hwindow i hge hlt
  · rw [hclear, if_pos ⟨hge, hlt⟩]
  · rw [hclear, if_neg hsegment]
    exact hothers a hhigh

/-- What is behind the setup code in the segment. -/
theorem kernelSegment_kernel
    (hlayout : m.sym.coreRealMode.toNat + 0x10000 ≤ m.sym.freeHighMemory.toNat)
    (hgot : getfsbytes m.fs fuel (Inode.fresh f.size f.pvt) 0 0x8000 = some got)
    (hdata : got.data = (contents m.fs f.map f.size.toNat).take 0x8000) {i : Nat}
    (hi : f.setup + i < 0x8000) {b : UInt8}
    (hb : (contents m.fs f.map f.size.toNat)[f.setup + i]? = some b) :
    kernelSegment m fuel f patches mem (m.sym.coreRealMode.toNat + f.setup + i) = b := by
  have hsecs := @setupSecs_pos f.header
  rw [Nat.add_assoc]
  refine kernelSegment_byte hlayout hgot ⟨?_, ?_⟩ ?_
  · rw [DiskFile.setup]
    omega
  · rw [cmdLineHere]
    omega
  · rw [hdata, List.getElem?_take, if_pos hi]
    exact hb

/-- A kernel is loaded whose setup code lies in the first 32K. -/
theorem readKernel_loaded
    (hlayout : m.sym.coreRealMode.toNat + 0x10000 ≤ m.sym.freeHighMemory.toNat)
    (hfuel : 2 ^ 33 ≤ fuel)
    (hgot : getfsbytes m.fs fuel (Inode.fresh f.size f.pvt) 0 0x8000 = some got)
    (hlength : 1024 ≤ got.data.length) (hle : f.setup ≤ 0x8000)
    (hread : readKernelMemory m fuel iterations f.header got (decide (0x8000 < f.size.toNat))
      garbage (kernelSegment m fuel f patches mem) = some (kernelEnd, mem')) :
    KernelLoaded m f (kernelSegment m fuel f patches mem) kernelEnd mem' := by
  obtain ⟨hsize, hcached, hoffset, hdata, -⟩ := getfsbytes_spec m.shift_le hfuel hgot hlength
  have hsetup : (setupBytes f.header).toNat = f.setup := toNat_setupBytes hle
  have hfree := m.free_lt
  have hread' : readKernel m fuel iterations f.header got (decide (0x8000 < f.size.toNat)) garbage =
      some kernelEnd := by
    rw [← readKernelMemory_fst, hread]
    rfl
  obtain ⟨-, -, -, hend⟩ := readKernel_spec hfuel hsize hcached hoffset hread'
  rw [hsetup] at hend
  have hcopied := @bcopy_copied _ m f.header (kernelSegment m fuel f patches mem) hlayout
    (by omega)
  rw [hsetup] at hcopied
  have hkernel : ∀ {i}, f.setup + i < 0x8000 → ∀ {b},
      (contents m.fs f.map f.size.toNat)[f.setup + i]? = some b →
      kernelSegment m fuel f patches mem (m.sym.coreRealMode.toNat + f.setup + i) = b :=
    fun hi _ hb => kernelSegment_kernel hlayout hgot hdata hi hb
  have hinside : ∀ {i b}, (contents m.fs f.map f.size.toNat)[i]? = some b →
      i < f.size.toNat := by
    intro i b hb
    have hi := (List.getElem?_eq_some_iff.mp hb).1
    rwa [length_contents] at hi
  obtain ⟨placed, rfl, ⟨hmore, hplaced⟩ | ⟨hmore, regs, loaded, hregs, hload, hedi, hplaced⟩⟩ :=
    readKernelMemory_cases hread
  · -- all of the file is in the segment
    have hshort : ¬0x8000 < f.size.toNat := of_decide_eq_false hmore
    rw [if_neg hshort] at hend
    rw [← hplaced] at hcopied
    refine .of_placed hlayout hle hsetup ?_ (fun i b hb => ?_)
      (fun hlong => absurd hlong hshort) (fun i _ hlt => hcopied.window i hlt) (fun a ha => ?_)
    · rw [if_neg hshort, hend]
    · have hi := hinside hb
      rw [hcopied.window i (by omega)]
      exact hkernel (by omega) hb
    · exact hcopied.others a (by omega)
  · -- the rest of the file is loaded behind what is copied
    have hlong : 0x8000 < f.size.toNat := of_decide_eq_true hmore
    rw [if_pos hlong] at hend
    rw [Nat.min_eq_right hlong.le] at hoffset
    rw [hoffset] at hload hplaced
    generalize bcopy _ (kernelSegment m fuel f patches mem) = copied at hcopied hplaced
    have hmax : (0xFFFFFFFF : UInt32).toNat = 2 ^ 32 - 1 := rfl
    have hle32 : (setupBytes f.header).toUInt32 ≤ 0x8000 := by
      rw [UInt32.le_iff_toNat_le, UInt16.toNat_toUInt32, hsetup]
      exact hle
    have hediEq : regs.edi.toNat = m.sym.freeHighMemory.toNat + 0x8000 - f.setup := by
      rw [hregs]
      dsimp only
      rw [toNat_copyEnd m hle32, hsetup]
    have heax : regs.eax.toNat = 2 ^ 32 - 1 := by rw [hregs, hmax]
    have hebp : regs.ebp = m.myHighMemSize := by rw [hregs]
    have hdx : regs.dx = 3 := by rw [hregs]
    clear hregs
    have hss := sectorSize_le m.shift_le
    have hsizeLt := f.size.toNat_lt
    have hmem := m.mem_le
    have hboundary : AtBoundary m.fs f.size 0x8000 :=
      ⟨hlong.le, Or.inl (Nat.pow_dvd_pow 2 m.shift_le)⟩
    obtain ⟨hebx, hebxLe, hpad⟩ := loadHigh_spec m.shift_le f.implements hsize hcached hboundary
      (by rw [hebp]; exact hmem) (by omega) hfuel hload
    obtain ⟨hpm, hflag⟩ := loadHigh_iff.mp hload
    have hrest := pmLoadHigh_rest f.implements hsize m.shift_le hcached
      (Nat.pow_dvd_pow 2 m.shift_le) hlong (by omega) (by omega) (by rw [hebp]; exact hmem)
      (by omega) hfuel hpm hflag copied
    rw [← hplaced] at hrest
    rw [hediEq, heax, Nat.min_eq_right (by omega)] at hebx
    have hmod : loaded.pad regs = loaded.ebx.toNat % 4 := by
      rw [Loaded.pad, hdx, UInt32.toNat_and]
      exact Nat.and_two_pow_sub_one_eq_mod _ 2
    have hebxEq : loaded.ebx.toNat = m.sym.freeHighMemory.toNat + f.size.toNat - f.setup := by
      omega
    have hendEq : kernelEnd.toNat = loaded.ebx.toNat + loaded.pad regs := by
      rw [hend, padded, hmod, hebxEq]
    refine .of_placed hlayout hle hsetup ?_ (fun i b hb => ?_) (fun _ a hge hlt => ?_)
      (fun i hge hlt => ?_) (fun a ha => ?_)
    · rw [if_pos hlong, hend]
    · by_cases hi : f.setup + i < 0x8000
      · rw [hrest.front _ (by omega), hcopied.window i hi]
        exact hkernel hi hb
      · obtain ⟨j, hj⟩ := Nat.exists_eq_add_of_le (Nat.le_of_not_lt hi)
        have hplace : m.sym.freeHighMemory.toNat + i = regs.edi.toNat + j := by omega
        rw [hj] at hb
        rw [hplace]
        exact hrest.bytes j b hb
    · exact hrest.padding a (by omega) (by omega)
    · omega
    · by_cases hfront : a < regs.edi.toNat
      · rw [hrest.front a hfront]
        exact hcopied.others a (by omega)
      · rw [hrest.behind a (by omega) (by omega)]
        exact hcopied.others a (by omega)

/-! ## A kernel that fits -/

/-- A file that is accepted as a kernel. -/
structure DiskFile.IsKernel {fs : FsInfo σ} (f : DiskFile fs) : Prop where
  /-- Its size does not wrap as it is rounded up to whole sectors. -/
  size_fits : f.size.toNat + fs.sectorSize - 1 < 2 ^ 32
  length : 1024 ≤ f.size.toNat
  signature : f.header.bsBootsign = 0xAA55

/-- There is room for the sectors of a kernel in front of the last four bytes of memory. -/
def HasRoom (m : Machine σ) (f : DiskFile m.fs) : Prop :=
  0x8000 < f.size.toNat →
    m.sym.freeHighMemory.toNat + m.fs.sectorsOf f.size.toNat * m.fs.sectorSize ≤
      (m.myHighMemSize &&& 0xFFFFFFFC).toNat + f.setup

/-- The first 32 KiB of a file are read. -/
theorem getfsbytes_returns (hfuel : 2 ^ 33 ≤ fuel)
    (hsize : f.size.toNat + m.fs.sectorSize - 1 < 2 ^ 32) :
    ∃ got, getfsbytes m.fs fuel (Inode.fresh f.size f.pvt) 0 0x8000 = some got ∧
      got.data = (contents m.fs f.map f.size.toNat).take 0x8000 := by
  have hwhole : 0x8000 / m.fs.sectorSize * m.fs.sectorSize = 0x8000 :=
    Nat.div_mul_cancel (Nat.pow_dvd_pow 2 m.shift_le)
  have hrequest : 0x8000 / m.fs.sectorSize ≤ 0x8000 := Nat.div_le_self _ _
  obtain ⟨got, hgot, -, -, hdata, -⟩ := genericGetfssec_spec f.implements hsize
    (Cached.fresh f.map f.size f.pvt_ok) ⟨Nat.zero_le _, Or.inl (Nat.dvd_zero _)⟩
    (show 0x8000 / m.fs.sectorSize + 2 ≤ fuel by omega)
  rw [hwhole, List.drop_zero] at hdata
  exact ⟨got, hgot, hdata⟩

/-- `read_kernel` returns when there is room for the file. -/
theorem readKernel_returns
    (hlayout : m.sym.coreRealMode.toNat + 0x10000 ≤ m.sym.freeHighMemory.toNat)
    (hfuel : 2 ^ 33 ≤ fuel)
    (hgot : getfsbytes m.fs fuel (Inode.fresh f.size f.pvt) 0 0x8000 = some got)
    (hlength : 1024 ≤ got.data.length) (hle : f.setup ≤ 0x8000) (hroom : HasRoom m f)
    (hn : f.size.toNat < iterations) :
    ∃ kernelEnd, readKernel m fuel iterations f.header got (decide (0x8000 < f.size.toNat)) garbage =
      some kernelEnd := by
  obtain ⟨hsize, hcached, hoffset, -, -⟩ := getfsbytes_spec m.shift_le hfuel hgot hlength
  have hsetup : (setupBytes f.header).toNat = f.setup := toNat_setupBytes hle
  have hfree := m.free_lt
  have hle32 : (setupBytes f.header).toUInt32 ≤ 0x8000 := by
    rw [UInt32.le_iff_toNat_le, UInt16.toNat_toUInt32, hsetup]
    exact hle
  rw [readKernel]
  dsimp only
  rw [if_neg (UInt32.not_lt.mpr hle32)]
  by_cases hlong : 0x8000 < f.size.toNat
  · rw [if_pos (decide_eq_true hlong), hoffset, Nat.min_eq_right hlong.le]
    have hediEq := toNat_copyEnd m hle32
    rw [hsetup] at hediEq
    generalize m.sym.freeHighMemory + (0x8000 - (setupBytes f.header).toUInt32) = edi at hediEq
    have hmem := m.mem_le
    have hlimit : (LoadRegs.mk 0xFFFFFFFF m.dotPause 3 edi m.myHighMemSize).limit =
        (m.myHighMemSize &&& 0xFFFFFFFC).toNat := by
      have hmask : ~~~(3 : UInt16).toUInt32 = 0xFFFFFFFC := by decide
      rw [LoadRegs.limit, hmask]
    have hspace := hroom hlong
    obtain ⟨loaded, hload, hflag⟩ := @pmLoadHigh_returns _ m.fs fuel 0x8000 f.map f.size f.ok
      ⟨0xFFFFFFFF, m.dotPause, 3, edi, m.myHighMemSize⟩ got.inode garbage iterations f.implements
      hsize m.shift_le hcached (Nat.pow_dvd_pow 2 m.shift_le) hlong (by dsimp only; omega) hmem hfuel
      (by rw [hlimit]; dsimp only; omega) (by omega)
    exact ⟨_, Option.map_eq_some_iff.mpr ⟨loaded, loadHigh_iff.mpr ⟨hload, hflag⟩, rfl⟩⟩
  · rw [if_neg (by simpa using hlong)]
    exact ⟨_, rfl⟩

/-- `loadLinuxKernel` reads the first 32K, and goes on with a kernel. -/
theorem loadLinuxKernel_cases {garbage : Nat → Bool} (hfuel : 2 ^ 33 ≤ fuel) :
    (∃ got, getfsbytes m.fs fuel (Inode.fresh f.size f.pvt) 0 0x8000 = some got ∧
      1024 ≤ got.data.length ∧ f.header.bsBootsign = 0xAA55 ∧
      loadLinuxKernel m fuel iterations f patches garbage mem =
        readKernelMemory m fuel iterations f.header got (decide (0x8000 < f.size.toNat)) (garbage 1)
          (kernelSegment m fuel f patches mem)) ∨
    ¬f.IsKernel ∧ loadLinuxKernel m fuel iterations f patches garbage mem = none := by
  have hgoes : ∀ {got}, getfsbytes m.fs fuel (Inode.fresh f.size f.pvt) 0 0x8000 = some got →
      loadLinuxKernel m fuel iterations f patches garbage mem =
        if got.data.length < 1024 ∨ (setupHeader got.data).bsBootsign ≠ 0xAA55 then none
        else readKernelMemory m fuel iterations (setupHeader got.data) got
          (got.haveMore.getD (garbage 0)) (garbage 1) (kernelSegment m fuel f patches mem) := by
    intro got hgot
    rw [loadLinuxKernel, hgot]
    rfl
  by_cases hsize : f.size.toNat + m.fs.sectorSize - 1 < 2 ^ 32
  · obtain ⟨got, hgot, hdata⟩ := @getfsbytes_returns _ m f fuel hfuel hsize
    have hheader : setupHeader got.data = f.header := by rw [hdata, DiskFile.header]
    have hlengthEq := congrArg List.length hdata
    rw [List.length_take, length_contents] at hlengthEq
    rw [hgoes hgot, hheader]
    by_cases hlength : 1024 ≤ got.data.length
    · by_cases hsign : f.header.bsBootsign = 0xAA55
      · obtain ⟨-, -, -, -, hmore⟩ := getfsbytes_spec m.shift_le hfuel hgot hlength
        refine Or.inl ⟨got, hgot, hlength, hsign, ?_⟩
        rw [if_neg (not_or.mpr ⟨Nat.not_lt.mpr hlength, not_not.mpr hsign⟩), hmore]
        rfl
      · exact Or.inr ⟨fun h => hsign h.signature, if_pos (Or.inr hsign)⟩
    · refine Or.inr ⟨fun h => hlength ?_, if_pos (Or.inl (Nat.lt_of_not_le hlength))⟩
      have hfile := h.length
      omega
  · have hgot := @genericGetfssec_wraps _ m.fs fuel (Inode.fresh f.size f.pvt)
      (Nat.le_of_not_lt hsize) (0x8000 / m.fs.sectorSize)
    refine Or.inr ⟨fun h => hsize h.size_fits, ?_⟩
    rw [hgoes hgot]
    exact if_pos (Or.inl (Nat.zero_lt_succ 1023))

/-- A kernel that was loaded lies where it has to. -/
theorem loadLinuxKernel_loaded {garbage : Nat → Bool}
    (hlayout : m.sym.coreRealMode.toNat + 0x10000 ≤ m.sym.freeHighMemory.toNat)
    (hfuel : 2 ^ 33 ≤ fuel) (hle : f.setup ≤ 0x8000)
    (hload : loadLinuxKernel m fuel iterations f patches garbage mem = some (kernelEnd, mem')) :
    KernelLoaded m f (kernelSegment m fuel f patches mem) kernelEnd mem' := by
  obtain ⟨got, hgot, hlength, -, hread⟩ | ⟨-, hnone⟩ :=
    @loadLinuxKernel_cases _ m f patches fuel iterations mem garbage hfuel
  · exact readKernel_loaded hlayout hfuel hgot hlength hle (hread ▸ hload)
  · rw [hnone] at hload
    exact nomatch hload

/-- A kernel for which there is room is loaded. -/
theorem loadLinuxKernel_returns {garbage : Nat → Bool}
    (hlayout : m.sym.coreRealMode.toNat + 0x10000 ≤ m.sym.freeHighMemory.toNat)
    (hfuel : 2 ^ 33 ≤ fuel) (hle : f.setup ≤ 0x8000) (hkernel : f.IsKernel) (hroom : HasRoom m f)
    (hn : f.size.toNat < iterations) :
    ∃ kernelEnd mem',
      loadLinuxKernel m fuel iterations f patches garbage mem = some (kernelEnd, mem') := by
  obtain ⟨got, hgot, hlength, -, hread⟩ | ⟨hnot, -⟩ :=
    @loadLinuxKernel_cases _ m f patches fuel iterations mem garbage hfuel
  · obtain ⟨kernelEnd, hend⟩ := @readKernel_returns _ m f fuel iterations got (garbage 1) hlayout
      hfuel hgot hlength hle hroom hn
    rw [← @readKernelMemory_fst _ m fuel iterations f.header got _ _
      (kernelSegment m fuel f patches mem), Option.map_eq_some_iff] at hend
    obtain ⟨⟨_, mem'⟩, hend, rfl⟩ := hend
    exact ⟨_, mem', hread.trans hend⟩
  · exact absurd hkernel hnot

/-- A kernel whose setup code lies in the first 32K is loaded behind the setup code, at
`free_high_memory`, with the padding of `pm_load_high` behind it. A kernel of less than 32K is
followed by what else is in the segment. `read_kernel` returns when there is room for the file. -/
theorem read_kernel_loads {garbage : Nat → Bool}
    (hlayout : m.sym.coreRealMode.toNat + 0x10000 ≤ m.sym.freeHighMemory.toNat)
    (hfuel : 2 ^ 33 ≤ fuel) (hle : f.setup ≤ 0x8000) :
    (∀ kernelEnd mem',
      loadLinuxKernel m fuel iterations f patches garbage mem = some (kernelEnd, mem') →
        KernelLoaded m f (kernelSegment m fuel f patches mem) kernelEnd mem') ∧
      (f.IsKernel → HasRoom m f → f.size.toNat < iterations →
        ∃ kernelEnd mem',
          loadLinuxKernel m fuel iterations f patches garbage mem = some (kernelEnd, mem')) :=
  ⟨fun _ _ hload => loadLinuxKernel_loaded hlayout hfuel hle hload,
    fun hkernel hroom hn => loadLinuxKernel_returns hlayout hfuel hle hkernel hroom hn⟩

/-- A kernel of 40000 bytes, of which 7232 are loaded behind the copy. -/
theorem read_kernel_loads_sample : ∃ kernelEnd mem',
    loadLinuxKernel sampleMachine (2 ^ 33) 40001 (sampleFile 40000 (by decide)) ⟨[], nofun⟩
      (fun _ => false) (fun _ => 1) = some (kernelEnd, mem') ∧
    KernelLoaded sampleMachine (sampleFile 40000 (by decide))
      (kernelSegment sampleMachine (2 ^ 33) (sampleFile 40000 (by decide)) ⟨[], nofun⟩ fun _ => 1)
      kernelEnd mem' := by
  obtain ⟨hloaded, hreturns⟩ := @read_kernel_loads _ sampleMachine (sampleFile 40000 (by decide))
    ⟨[], nofun⟩ (2 ^ 33) 40001 (fun _ => 1) (fun _ => false) (by decide) le_rfl (by decide +kernel)
  obtain ⟨kernelEnd, mem', hread⟩ := hreturns ⟨by decide, by decide, by decide +kernel⟩
    (fun _ => by decide +kernel) (by decide)
  exact ⟨kernelEnd, mem', hread, hloaded kernelEnd mem' hread⟩

/-- The segment behind the setup code is cleared, too. -/
theorem read_kernel_clears : ¬∀ (m : Machine Unit) (f : DiskFile m.fs) (patches : Patches)
    (fuel iterations : Nat) (garbage : Nat → Bool) (mem : Memory) (kernelEnd : UInt32)
    (mem' : Memory), m.sym.coreRealMode.toNat + 0x10000 ≤ m.sym.freeHighMemory.toNat →
      2 ^ 33 ≤ fuel → loadLinuxKernel m fuel iterations f patches garbage mem =
        some (kernelEnd, mem') →
        KernelExact m f (kernelSegment m fuel f patches mem) kernelEnd mem' := by
  intro h
  have hlayout : sampleMachine.sym.coreRealMode.toNat + 0x10000 ≤
      sampleMachine.sym.freeHighMemory.toNat := by decide
  obtain ⟨kernelEnd, mem', hload⟩ := @loadLinuxKernel_returns _ sampleMachine
    (sampleFile 1536 (by decide)) ⟨[], nofun⟩ (2 ^ 33) 1537 (fun _ => 1) (fun _ => false) hlayout
    le_rfl (by decide +kernel) ⟨by decide, by decide, by decide +kernel⟩
    (fun hlong => absurd hlong (by decide)) (by decide)
  have hloaded := loadLinuxKernel_loaded hlayout le_rfl (by decide +kernel) hload
  have hexact := h _ _ _ _ _ _ _ _ _ hlayout le_rfl hload
  have hzero := hloaded.cleared 0x28000 (by decide +kernel) (by decide)
  rw [hexact.others 0x28000 fun hin => absurd hin.1 (by decide), kernelSegment] at hzero
  dsimp only at hzero
  rw [List.map_nil, putAll, putAll_of_ne] at hzero
  · exact absurd hzero (by decide)
  · intro x hx
    -- the file is no longer than its setup code
    have hlength := @length_readBuffer_left _ sampleMachine.fs (2 ^ 33)
      (0x8000 / sampleMachine.fs.sectorSize) 0 1536 (Inode.fresh 1536 ()) (by decide) rfl
      (Nat.zero_le _)
    have hsectors : sampleMachine.fs.sectorsOf ((1536 : UInt32).toNat - 0) *
        sampleMachine.fs.sectorSize = 1536 := by decide
    have hbase : sampleMachine.sym.coreRealMode.toNat = 0x20000 := rfl
    rw [hsectors] at hlength
    change x ∈ storesFrom _ (readBuffer sampleMachine.fs (2 ^ 33) (Inode.fresh 1536 ()) 0
      (0x8000 / sampleMachine.fs.sectorSize)) at hx
    generalize readBuffer sampleMachine.fs (2 ^ 33) (Inode.fresh 1536 ()) 0
      (0x8000 / sampleMachine.fs.sectorSize) = read at hx hlength
    rw [hbase, storesFrom_eq (by omega)] at hx
    have hrange := mem_storesAt hx
    omega

end Liigboot.Boot
