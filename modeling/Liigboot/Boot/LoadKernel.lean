import Liigboot.Boot.RunKernel
import Liigboot.Fs.LoadFile

/-!
# Loading an image

What `is_linux_kernel` and `is_bootsector` load, up to the list of descriptors that they leave to
the shuffler. A load that is given up, or that does not end, leaves no list.
-/

namespace Liigboot.Boot

open Liigboot.Fs

variable {σ : Type}

/-- An open file whose sectors are all mapped. -/
structure DiskFile (fs : FsInfo σ) where
  size : UInt32
  pvt : σ
  map : SectorMap
  ok : σ → Prop
  implements : Implements fs map size ok
  pvt_ok : ok pvt

/-- The machine, and the loader in its memory. -/
structure Machine (σ : Type) where
  sym : Symbols
  fs : FsInfo σ
  /-- `BIOS_fbm`, in kilobytes. -/
  biosFbm : UInt16
  /-- `MyHighMemSize`: the memory that is not reserved, or what the option `mem=` says. -/
  myHighMemSize : UInt32
  dotPause : UInt16
  abortCheck : UInt16
  shift_le : fs.sectorShift ≤ 15
  /-- `free_high_memory` lies behind the loader. -/
  free_lt : sym.freeHighMemory.toNat < 2 ^ 31
  /-- The most that `highmemsize` finds. -/
  mem_le : myHighMemSize.toNat ≤ 0xFFFF0000

/-- A kernel with its command line, and the files of its option `initrd=`; `none` stands for a
name that is not found. -/
structure Kernel (m : Machine σ) where
  kernel : DiskFile m.fs
  cmdLineLen : UInt16
  quietBoot : UInt8
  initRDPtr : UInt16
  initrds : List (Option (DiskFile m.fs))
  ptr_eq_zero : initRDPtr = 0 ↔ initrds = []
  /-- What `have_more` holds at the start of each call of `pm_load_high`. -/
  garbage : Nat → Bool

/-- What is booted. -/
inductive Image (m : Machine σ) where
  | linux (k : Kernel m)
  | bootsector (file : DiskFile m.fs) (garbage : Bool)

/-! ## The source -/

/-- `load_high`, which gives up when there is not enough memory. -/
def loadHigh (fs : FsInfo σ) (fuel iterations : Nat) (regs : LoadRegs) (inode : Inode σ)
    (offset : Nat) (garbage : Bool) : Option (Loaded σ) :=
  match pmLoadHigh fs fuel iterations regs inode offset garbage with
  | none => none
  | some loaded => if loaded.flag = .overflow then none else some loaded

/-- `getfsbytes`. -/
def getfsbytes (fs : FsInfo σ) (fuel : Nat) (inode : Inode σ) (offset : Nat) (cx : UInt16) :
    Option (Got σ) :=
  genericGetfssec fs fuel inode offset (cx.toNat / fs.sectorSize)

def peekByte (data : List UInt8) (i : Nat) : UInt8 := data.getD i 0

def peekWord (data : List UInt8) (i : Nat) : UInt16 :=
  (peekByte data i).toUInt16 ||| (peekByte data (i + 1)).toUInt16 <<< 8

def peekDword (data : List UInt8) (i : Nat) : UInt32 :=
  (peekWord data i).toUInt32 ||| (peekWord data (i + 2)).toUInt32 <<< 16

/-- The fields of the boot sector and the setup code that are read. -/
structure SetupHeader where
  bsSetupsecs : UInt8
  bsBootsign : UInt16
  suHeader : UInt32
  suVersion : UInt16
  suLoadflags : UInt8
  suRamdiskMax : UInt32
  deriving DecidableEq, Repr

def setupHeader (data : List UInt8) : SetupHeader where
  bsSetupsecs := peekByte data 0x1F1
  bsBootsign := peekWord data 0x1FE
  suHeader := peekDword data 0x202
  suVersion := peekWord data 0x206
  suLoadflags := peekByte data 0x211
  suRamdiskMax := peekDword data 0x22C

/-- `HEADER_ID`, which is `HdrS`. -/
def headerId : UInt32 := 0x53726448

/-- `HIGHMEM_MAX`. -/
def highmemMax : UInt32 := 0x37FFFFFF

/-- `CAN_USE_HEAP`. -/
def canUseHeap : UInt8 := 0x80

/-- What `prepare_header` sets. -/
structure Prepared where
  loadFlags : UInt8
  kernelVersion : UInt16
  ramdiskMax : UInt32
  deriving DecidableEq, Repr

/-- `prepare_header`. An old kernel cannot have an initrd. -/
def prepareHeader (h : SetupHeader) (quietBoot : UInt8) (initRDPtr : UInt16) : Option Prepared :=
  if h.suHeader ≠ headerId ∨ h.suVersion < 0x200 then
    if initRDPtr ≠ 0 then none else some ⟨0, 0, highmemMax⟩
  else
    let loadflags := if h.suVersion < 0x201 then h.suLoadflags else h.suLoadflags ||| canUseHeap
    let ramdiskMax := if h.suVersion < 0x203 then highmemMax else h.suRamdiskMax
    some ⟨loadflags ||| quietBoot, h.suVersion, ramdiskMax⟩

/-- `SetupSecs`, in bytes, as it is shifted in a 16-bit register. -/
def setupBytes (h : SetupHeader) : UInt16 :=
  ((if h.bsSetupsecs = 0 then 4 else h.bsSetupsecs.toUInt16) + 1) <<< 9

/-- `read_kernel`: what `getfsbytes` got behind the setup code is copied, and the rest of the file
is loaded behind it. Returns `KernelEnd`. -/
def readKernel (m : Machine σ) (fuel iterations : Nat) (h : SetupHeader) (got : Got σ)
    (haveMore garbage : Bool) : Option UInt32 :=
  let esi := (setupBytes h).toUInt32
  let ecx := 0x8000 - esi
  -- A length below zero wraps, and the copy runs over the loader.
  if esi > 0x8000 then none
  else
    let edi := m.sym.freeHighMemory + ecx
    if haveMore then
      (loadHigh m.fs fuel iterations ⟨0xFFFFFFFF, m.dotPause, 3, edi, m.myHighMemSize⟩ got.inode
        got.offset garbage).map Loaded.edi
    else some edi

/-- `loadinitrd` for all files, from `EDI` on. Returns `InitRDEnd`. -/
def loadInitrds (m : Machine σ) (fuel iterations : Nat) (mem : UInt32) (garbage : Nat → Bool) :
    List (Option (DiskFile m.fs)) → Nat → UInt32 → UInt32 → Option UInt32
  | [], _, _, initRDEnd => some initRDEnd
  | none :: _, _, _, _ => none
  | some f :: files, n, edi, _ =>
    match loadHigh m.fs fuel iterations ⟨f.size, m.dotPause, 3, edi, mem⟩
      (Inode.fresh f.size f.pvt) 0 (garbage n) with
    | none => none
    | some loaded => loadInitrds m fuel iterations mem garbage files (n + 1) loaded.edi loaded.ebx

/-- `CmdLineEnd`, for a command line that is copied down. -/
def cmdLineEnd (kernelVersion cmdLineLen : UInt16) : UInt16 :=
  let limit := if kernelVersion ≤ 0x201 then 255 else 2047
  0x9800 + min cmdLineLen limit + 1

/-- `is_linux_kernel`, up to the descriptors of `setup_move`. -/
def isLinuxKernel (m : Machine σ) (fuel iterations : Nat) (k : Kernel m) :
    Option (List Descriptor) := do
  let got ← getfsbytes m.fs fuel (Inode.fresh k.kernel.size k.kernel.pvt) 0 0x8000
  let h := setupHeader got.data
  if got.data.length < 1024 ∨ h.bsBootsign ≠ 0xAA55 then none
  else
    let prepared ← prepareHeader h k.quietBoot k.initRDPtr
    let haveMore := got.haveMore.getD (k.garbage 0)
    let kernelEnd ← readKernel m fuel iterations h got haveMore (k.garbage 1)
    let mem :=
      if prepared.ramdiskMax > m.myHighMemSize then m.myHighMemSize else prepared.ramdiskMax
    let initRDEnd ← loadInitrds m fuel iterations mem k.garbage k.initrds 2 kernelEnd kernelEnd
    let cmdLineEnd := cmdLineEnd prepared.kernelVersion k.cmdLineLen
    let s : Loader := ⟨prepared.loadFlags, cmdLineEnd, kernelEnd, k.initRDPtr, kernelEnd, initRDEnd,
      mem, 0, 0⟩
    some (setupMove m.sym (if k.initRDPtr = 0 then s else placeInitrd s))

/-- `is_bootsector`, up to the descriptors of `replace_bootstrap_one`: the boot sector, and what
is left of the low memory, to be cleared. -/
def isBootsector (m : Machine σ) (fuel iterations : Nat) (file : DiskFile m.fs) (garbage : Bool) :
    Option (List Descriptor) := do
  let regs : LoadRegs := ⟨0xA0000, m.abortCheck, 0, m.sym.freeHighMemory, m.myHighMemSize⟩
  let loaded ← loadHigh m.fs fuel iterations regs (Inode.fresh file.size file.pvt) 0 garbage
  let length := loaded.edi - m.sym.freeHighMemory
  if length > 0xA0000 - 0x7C00 then none
  else
    let eax := 0x7C00 + length
    some [⟨0x7C00, m.sym.freeHighMemory, length⟩,
      ⟨eax, 0xFFFFFFFF, m.biosFbm.toUInt32 <<< 10 - eax⟩]

/-- The descriptors that are left to the shuffler, without the one that ends the list. -/
def Image.descriptors {m : Machine σ} (fuel iterations : Nat) : Image m → Option (List Descriptor)
  | .linux k => isLinuxKernel m fuel iterations k
  | .bootsector file garbage => isBootsector m fuel iterations file garbage

end Liigboot.Boot
