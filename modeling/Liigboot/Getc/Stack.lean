import Liigboot.Config.Store
import Liigboot.Lib.Bytes
import Liigboot.Lib.Memory
import Liigboot.Lib.Program
import Liigboot.Lib.StringOps

/-!
# The stack of open files

The files that are read for the configuration are a stack of records of sixteen bytes. `getc` reads
from the file on top. A character that is pushed back is kept in its record, which has room for nine
of them, and `ungetc` does not look at how many there are. The records lie in the data segment with
all variables of the parser, directly behind the buffer for numbers.
-/

namespace Liigboot.Getc

open Liigboot.Config (filenameMax maxCmdLen vkSize)

/-! ## The data segment -/

/-- The variables that the parser stores to. -/
inductive Var
  | trackbuf | numBuf | configName
  | defaultLevel | defaultCmd | ontimeout | ontimeoutLen | onerror | onerrorLen
  | appendBuf | appendLen | vKernel | vKernelBuf | initRD | fKeyName | mNameBuf | kbdMap
  | allowImplicit | forcePrompt | displayCon | allowOptions | noEscape | noComplete | noHalt
  | pxeRetry | kbdTimeout | totalTimeout
  | flowControl | serialPort | baudDivisor
  | textAttribute | displayMask | usingVGA | vgaFontSize | userFont
  | lssHeader | vgaPos | vgaFilePtr | vgaFileBuf | vgaFileMBuf | vgaRowBuffer
  deriving DecidableEq, Repr

/-- The bytes that are reserved for a variable. -/
def Var.size : Var → Nat
  | .trackbuf => 8192
  -- `NumBuf` and `NumBufEnd`
  | .numBuf => 16
  | .configName | .initRD | .mNameBuf | .vgaFileMBuf => filenameMax
  | .defaultCmd | .ontimeout | .onerror | .appendBuf => maxCmdLen + 1
  | .vKernelBuf => vkSize
  | .fKeyName => 12 * filenameMax
  | .kbdMap => 256
  | .kbdTimeout | .totalTimeout | .flowControl => 4
  | .vKernel | .textAttribute | .displayMask | .usingVGA | .userFont => 1
  | .lssHeader => 4 + 2 * 2 + 16 * 3
  | .vgaFileBuf => filenameMax + 2
  | .vgaRowBuffer => 640 + 80
  | _ => 2

/-- `MAX_GETC` -/
def maxGetc : Nat := 2 ^ 4

/-- `MAX_UNGET` -/
def maxUnget : Nat := 9

/-! The fields of a record. -/

def gcFile : Nat := 0
def gcBufbytes : Nat := 2
def gcBufdata : Nat := 4
def gcUngetCnt : Nat := 6
def gcUngetBuf : Nat := 7

/-- The size of a record. -/
def getcFileSize : Nat := gcUngetBuf + maxUnget

/-- Addresses, as they are given when the program is linked. -/
structure Places where
  addr : Var → Nat
  getCStack : Nat
  currentGetC : Nat
  includeLevel : Nat

/-- `GetCStack.end` -/
def Places.getCEnd (p : Places) : Nat := p.getCStack + getcFileSize * maxGetc

/-- The addresses of the records, and of the two variables that go with them. -/
def Places.Reserved (p : Places) (a : Nat) : Prop :=
  p.getCStack ≤ a ∧ a < p.getCEnd ∨ p.currentGetC ≤ a ∧ a < p.currentGetC + 2 ∨
    p.includeLevel ≤ a ∧ a < p.includeLevel + 2

/-- Each variable has its own place. `GetCStack` is behind `NumBuf`. -/
structure Layout extends Places where
  numBuf_eq : addr .numBuf + Var.numBuf.size = getCStack
  getCEnd_lt : toPlaces.getCEnd < 0x10000
  currentGetC_lt : currentGetC + 1 < 0x10000
  includeLevel_lt : includeLevel + 1 < 0x10000
  currentGetC_apart : currentGetC + 1 < getCStack ∨ toPlaces.getCEnd ≤ currentGetC
  includeLevel_apart : includeLevel + 1 < getCStack ∨ toPlaces.getCEnd ≤ includeLevel
  levels_apart : currentGetC + 1 < includeLevel ∨ includeLevel + 1 < currentGetC
  var_apart : ∀ v, ∀ i < v.size, addr v + i < 0x10000 ∧ ¬ toPlaces.Reserved (addr v + i)

/-- The memory that the routines see: the data segment, `real_mode_seg` with the buffers of the
files, and the file system. -/
structure State (φ : Type) where
  seg : Memory
  realMode : Memory
  fs : φ

variable {φ : Type}

def State.byte (s : State φ) (a : Nat) : UInt8 := s.seg (a % 0x10000)

def State.word (s : State φ) (a : Nat) : Nat := (s.byte a).toNat + 256 * (s.byte (a + 1)).toNat

/-- Some bytes of the data segment. -/
def bytesAt (seg : Memory) (a n : Nat) : List UInt8 := (List.range n).map fun i => seg (a + i)

@[simp] theorem length_bytesAt (seg : Memory) (a n : Nat) : (bytesAt seg a n).length = n := by
  rw [bytesAt, List.length_map, List.length_range]

/-- The stores of some bytes through a 16-bit pointer. -/
def segStores : Nat → List UInt8 → List (Nat × UInt8)
  | _, [] => []
  | a, b :: bs => (a % 0x10000, b) :: segStores (a + 1) bs

def State.write (s : State φ) (a : Nat) (bs : List UInt8) : State φ :=
  { s with seg := putAll s.seg (segStores a bs) }

/-! ## Routines from elsewhere -/

/-- The routines that the parser calls and that do not read from the open files. -/
inductive Routine
  | writestr (text : List UInt8)
  | crlf
  | mangleName (si di : Nat)
  | rllpack
  /-- The part of `pc_serial` that sets up the port: zero if it is not there. -/
  | setupSerial (port : Nat)
  | useFont
  | readCursor
  | msgNormal (al cl : UInt8)
  | msgNewline (cl : UInt8)
  | msgFormfeed (cl : UInt8)
  | msgBeep
  | vgaclearmode
  | vgasetmode
  /-- The palette and the cursor, behind the header of a splash screen. -/
  | setPalette
  /-- `packedpixel2vga` and `outputvga` -/
  | outputRow
  deriving DecidableEq, Repr

/-- What a routine from elsewhere does: its stores to the data segment, and a number that it
returns. -/
structure Effect (p : Places) where
  stores : List (Nat × UInt8)
  result : Nat
  misses : ∀ x ∈ stores, ¬ p.Reserved x.1

/-- The file system, and the routines from elsewhere. Their own variables are apart from the
records, too. -/
structure Env (p : Places) (φ : Type) where
  /-- `pm_searchdir`, with the memory from the name on: the file pointer. -/
  searchdir : Memory → φ → Option UInt16 × φ
  /-- `pm_close_file` -/
  closeFile : UInt16 → φ → φ
  /-- `getfsbytes`, with the file pointer: the bytes, and the new file pointer. -/
  getfsbytes : UInt16 → φ → List UInt8 × UInt16 × φ
  routine : Routine → Memory → φ → Effect p × φ

/-! ## The source -/

section source

variable (L : Layout) (env : Env L.toPlaces φ)

/-- `getc` at `.got_data`. -/
def gotData (di : Nat) (s : State φ) : Option UInt8 × State φ :=
  let left := s.word (di + gcBufbytes)
  let s := s.write (di + gcBufbytes) (leBytes (left + 0xffff) 2)
  if left = 0 then (none, s)
  else
    let si := s.word (di + gcBufdata)
    (some (s.realMode si), s.write (di + gcBufdata) (leBytes (si + 1) 2))

/-- `getc` at `.get_data`: whether there is more of the file. -/
def getData (di : Nat) (s : State φ) : Bool × State φ :=
  -- the buffer of the record, `shl bx,bytes_per_getc_lg2-getc_file_lg2`
  let bx := (di + 0x10000 - L.getCStack) * 2 ^ 8 % 0x10000
  let s := s.write (di + gcBufdata) (leBytes bx 2)
  let si := s.word (di + gcFile)
  let s := s.write (di + gcBufbytes) (leBytes si 2)
  if si = 0 then (false, s)
  else
    let (bytes, si, fs) := env.getfsbytes (UInt16.ofNat si) s.fs
    let s := s.write (di + gcBufbytes) (leBytes bytes.length 2)
    let s := s.write (di + gcFile) (leBytes si.toNat 2)
    (bytes.length % 0x10000 ≠ 0, { s with realMode := s.realMode.write bx bytes, fs })

/-- `getc`: no character, with zero in `AL`, at the end of the file. -/
def getc (s : State φ) : Option UInt8 × State φ :=
  let di := s.word L.currentGetC
  let bx := s.byte (di + gcUngetCnt)
  if bx ≠ 0 then
    -- `.have_unget`
    let bx := bx - 1
    (some (s.byte (di + bx.toNat + gcUngetBuf)), s.write (di + gcUngetCnt) [bx])
  else
    match gotData di s with
    | (some al, s) => (some al, s)
    | (none, s) =>
      match getData L env di s with
      | (true, s) => gotData di s
      | (false, s) => (none, s)

/-- `ungetc` -/
def ungetc (al : UInt8) (s : State φ) : State φ :=
  let di := s.word L.currentGetC
  let bx := s.byte (di + gcUngetCnt)
  let s := s.write (bx.toNat + di + gcUngetBuf) [al]
  s.write (di + gcUngetCnt) [bx + 1]

/-- `openfd`: false if there are too many open files. -/
def openfd (si : UInt16) (s : State φ) : Bool × State φ :=
  let bx := (s.word L.currentGetC + 0x10000 - getcFileSize) % 0x10000
  if bx < L.getCStack then (false, { s with fs := env.closeFile si s.fs })
  else
    let s := s.write L.currentGetC (leBytes bx 2)
    let s := s.write (bx + gcFile) (leBytes si.toNat 2)
    let s := s.write (bx + gcBufbytes) [0, 0]
    (true, s.write (bx + gcUngetCnt) [0])

/-- `core_open`, with the address of the name. -/
def coreOpen (di : Nat) (s : State φ) : Bool × State φ :=
  match env.searchdir (s.seg.from di) s.fs with
  | (none, fs) => (false, { s with fs })
  | (some si, fs) => openfd L env si { s with fs }

/-- `close` -/
def close (s : State φ) : State φ :=
  let bx := s.word L.currentGetC
  let si := UInt16.ofNat (s.word (bx + gcFile))
  let s := { s with fs := env.closeFile si s.fs }
  s.write L.currentGetC (leBytes (bx + getcFileSize) 2)

/-- `dec word [IncludeLevel]`, with the zero flag. -/
def decLevel (s : State φ) : Bool × State φ :=
  let level := (s.word L.includeLevel + 0xffff) % 0x10000
  (level = 0, s.write L.includeLevel (leBytes level 2))

end source

/-- What the parser does with the open files and the memory. -/
inductive Op
  | getc
  | ungetc (al : UInt8)
  | coreOpen (di : Nat)
  | close
  | incLevel
  | decLevel
  /-- The data segment is looked at. -/
  | look
  /-- A store to a variable. -/
  | set (v : Var) (off : Nat) (bs : List UInt8) (fits : off + bs.length ≤ v.size)
  /-- Stores through a pointer that nothing bounds. -/
  | stosb (di : Nat) (bs : List UInt8)
  | routine (r : Routine)

/-- The answers. -/
def Op.Ret : Op → Type
  | .getc => Option UInt8
  | .coreOpen _ | .decLevel => Bool
  | .look => Memory
  | .routine _ => Nat
  | .ungetc _ | .close | .incLevel | .set .. | .stosb .. => Unit

/-- The machine. -/
def exec (L : Layout) (env : Env L.toPlaces φ) : (o : Op) → State φ → o.Ret × State φ
  | .getc, s => getc L env s
  | .ungetc al, s => ((), ungetc L al s)
  | .coreOpen di, s => coreOpen L env di s
  | .close, s => ((), close L env s)
  | .incLevel, s => ((), s.write L.includeLevel (leBytes (s.word L.includeLevel + 1) 2))
  | .decLevel, s => decLevel L s
  | .look, s => (s.seg, s)
  | .set v off bs _, s => ((), s.write (L.addr v + off) bs)
  | .stosb di bs, s => ((), s.write di bs)
  | .routine r, s =>
    let (effect, fs) := env.routine r s.seg s.fs
    (effect.result, { s with seg := putAll s.seg effect.stores, fs })

end Liigboot.Getc
