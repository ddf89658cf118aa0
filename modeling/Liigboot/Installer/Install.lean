import Liigboot.Lib.Bytes

/-!
# The installer's merge and copy

`install` reads the first chunk of the boot image, merges the target's partition
table into it, checks the partitions and copies the image chunk by chunk. The
answers of the kernel are a parameter: a source may be a file, a pipe or a block
device, so the bytes a `read` returns need not agree with `st_size`, and any
call may fail. A run records every chunk handed to `write`, with the bytes the
target took of it.
-/

namespace Liigboot.Installer

/-- `sizeof(buf)` of the copy loop. -/
def bufSize : Nat := 4096

/-- The reasons `open(target)` is told apart by. -/
inductive OpenError
  | eacces
  | enoent
  | other
  deriving DecidableEq, Repr

/-- What the operating system answers to the installer. -/
structure Sys where
  /-- `open(source)` succeeds. -/
  sourceOpens : Bool
  /-- The bytes of the `k`-th `read(fdin, buf, 4096)`, `none` for a negative result. -/
  readSource : Nat → Option (List UInt8)
  /-- A `read` never returns more than it was asked for. -/
  readSource_le : ∀ k bytes, readSource k = some bytes → bytes.length ≤ bufSize
  /-- `open(target)` fails with this error. -/
  targetError : Option OpenError
  /-- `geteuid() == 0`. -/
  isRoot : Bool
  /-- The bytes of `read(fdout, oldmbr, 512)`, `none` for a negative result. -/
  readTarget : Option (List UInt8)
  readTarget_le : ∀ bytes, readTarget = some bytes → bytes.length ≤ 512
  /-- `lseek(fdout, 0, SEEK_SET)` succeeds. -/
  seekTarget : Bool
  /-- `st_size` of `fstat(fdin)`, `none` when the call fails. -/
  statSource : Option Nat
  /-- The number of bytes the `k`-th `write` to the target takes, zero for an error. -/
  writeTarget : Nat → Nat

/-- The answers for a regular source and a target image in which every call succeeds. -/
def fileSys (source target : List UInt8) : Sys where
  sourceOpens := true
  readSource k := some (slice source (bufSize * k) bufSize)
  readSource_le := by
    rintro k bytes h
    rw [← Option.some.inj h, length_slice]
    exact Nat.min_le_left _ _
  targetError := none
  isRoot := true
  readTarget := some (target.take 512)
  readTarget_le := by
    rintro bytes h
    rw [← Option.some.inj h, List.length_take]
    exact Nat.min_le_left _ _
  seekTarget := true
  statSource := some source.length
  writeTarget _ := bufSize

/-- The same for a block device, whose `st_size` is 0. -/
def deviceSys (source target : List UInt8) : Sys :=
  { fileSys source target with statSource := some 0 }

/-- One partition table entry, the fields of `struct pte` the installer reads. -/
structure Pte where
  flags : UInt8
  type : UInt8
  /-- Sector count in front of this partition. -/
  lbaFirst : Nat
  deriving DecidableEq, Repr

/-- The table starts at byte `0x1be`; an entry has 16 bytes. -/
def pteAt (mbr : List UInt8) (i : Nat) : Pte where
  flags := mbr.getD (0x1be + 0x10 * i) 0
  type := mbr.getD (0x1be + 0x10 * i + 4) 0
  lbaFirst := readLe mbr (0x1be + 0x10 * i + 8) 4

/-- The four entries between `pte` and `pte_end`. -/
def ptes (mbr : List UInt8) : List Pte := (List.range 4).map (pteAt mbr)

/-- `*(uint16_t*)(mbr + 0x1fe) == 0xaa55`. -/
def hasSignature (mbr : List UInt8) : Bool := readLe mbr 0x1fe 2 == 0xaa55

/-- One round of the scan for the smallest `lba_first` of a non-empty entry. -/
def scanPte (lbaFirstMin : Nat) (pte : Pte) : Nat :=
  if pte.type ≠ 0 ∧ pte.lbaFirst < lbaFirstMin then pte.lbaFirst else lbaFirstMin

/-- The scan over the whole table, from `(uint32_t)-1`. -/
def lbaFirstMin (mbr : List UInt8) : Nat := (ptes mbr).foldl scanPte (2 ^ 32 - 1)

/-- Fill the buffer's start with the bytes just read; later bytes stay. -/
def fill (buf bytes : List UInt8) : List UInt8 := blit buf 0 bytes

/-- The zeroed buffer of `size` bytes after the first read into it. -/
def firstFill (size : Nat) (bytes : List UInt8) : List UInt8 := fill (List.replicate size 0) bytes

/-- Read the first chunk of the source and check that it starts with a boot sector. -/
def readFirst (sys : Sys) : Except String (List UInt8 × Nat) :=
  if !sys.sourceOpens then .error "fatal: error opening source\n"
  else match sys.readSource 0 with
    | none => .error "fatal: error reading from source\n"
    | some bytes =>
      if bytes.length < 512 then .error "fatal: source too short\n"
      else if !hasSignature (firstFill bufSize bytes) then .error "fatal: bad mbr in source\n"
      else .ok (firstFill bufSize bytes, bytes.length)

/-- The message for a target that cannot be opened. -/
def openMessage (e : OpenError) (isRoot : Bool) : String :=
  if e = .eacces ∧ isRoot = false then "fatal: error opening mbr target; use sudo\n"
  else if e = .enoent then "fatal: error opening mbr target; create image file first\n"
  else "fatal: error opening mbr target\n"

/-- `memcpy(buf + 0x1b8, oldmbr + 0x1b8, 0x46)`: disk id and partition table. -/
def copyTable (buf oldmbr : List UInt8) : List UInt8 := blit buf 0x1b8 (slice oldmbr 0x1b8 0x46)

/-- Keep the target's partition table and check that the image ends before the first
partition. The sector count of the announced size is cut to 32 bits. -/
def mergeTable (sys : Sys) (buf oldmbr : List UInt8) : Except String (List UInt8 × Nat) :=
  match sys.statSource with
  | none => .error "fatal: error statting source\n"
  | some size =>
    let sourceSectorCount := (size + 511) / 512 % 2 ^ 32
    let merged := copyTable buf oldmbr
    if lbaFirstMin merged < sourceSectorCount then
      .error "fatal: partition in mbr target starts too early\n"
    else .ok (merged, lbaFirstMin merged)

/-- Read the target's first sector and merge it into the buffer. An empty target and an
all-zero sector keep the table of the source. -/
def mergeTarget (sys : Sys) (buf : List UInt8) : Except String (List UInt8 × Nat) :=
  match sys.targetError with
  | some e => .error (openMessage e sys.isRoot)
  | none =>
    match sys.readTarget with
    | none => .error "fatal: error reading from mbr target\n"
    | some bytes =>
      if bytes.length = 0 then .ok (buf, 2 ^ 32 - 1)
      else if bytes.length < 512 then .error "fatal: mbr truncated in mbr target\n"
      else if !sys.seekTarget then .error "fatal: error seeking in mbr target\n"
      else
        let oldmbr := firstFill 512 bytes
        if hasSignature oldmbr then mergeTable sys buf oldmbr
        else if oldmbr.any (· ≠ 0) then .error "fatal: refusing to modify unusual mbr\n"
        else .ok (buf, 2 ^ 32 - 1)

/-- `buf[0x1be + 0x10 * i] &= ~0x80`. -/
def clearActive (buf : List UInt8) (i : Nat) : List UInt8 :=
  buf.modify (0x1be + 0x10 * i) (· &&& 0x7f)

/-- Make partition `activePart` (1 to 4) the only active one; 0 changes nothing. -/
def setActive (buf : List UInt8) (activePart : Nat) : List UInt8 :=
  if activePart > 0 then
    (clearActive (clearActive (clearActive (clearActive buf 0) 1) 2) 3).modify
      (0x1be - 0x10 + activePart * 0x10) (· ||| 0x80)
  else buf

/-- What the installer holds when it reaches the copy loop. -/
structure Prepared where
  buf : List UInt8
  got : Nat
  lbaFirstMin : Nat

/-- Everything before the copy loop. -/
def prepare (sys : Sys) (activePart : UInt8) : Except String Prepared :=
  let activePart := if activePart.toNat > 4 then 0 else activePart.toNat
  match readFirst sys with
  | .error msg => .error msg
  | .ok (buf, got) =>
    match mergeTarget sys buf with
    | .error msg => .error msg
    | .ok (buf, lbaMin) => .ok ⟨setActive buf activePart, got, lbaMin⟩

/-! ## The copy loop -/

/-- A chunk handed to `write`, at the target's file position. -/
structure Write where
  pos : Nat
  data : List UInt8
  /-- The bytes of the chunk the target took. -/
  taken : Nat
  deriving DecidableEq, Repr

/-- The sector a chunk starts at. -/
def Write.sector (w : Write) : Nat := w.pos / 512

/-- The length of a chunk in sectors. -/
def Write.sectors (w : Write) : Nat := w.data.length / 512

inductive Exit
  | running
  | returned
  | died (message : String)
  deriving DecidableEq, Repr

/-- How far a run got, and the chunks it handed to `write`, in order. -/
structure Run where
  exit : Exit
  writes : List Write
  deriving DecidableEq, Repr

/-- The run that makes one more write first. -/
def Run.after (w : Write) (r : Run) : Run := { r with writes := w :: r.writes }

/-- The `k`-th write, of `data` at `pos`. -/
def Sys.write (sys : Sys) (k pos : Nat) (data : List UInt8) : Write :=
  ⟨pos, data, min (sys.writeTarget k) data.length⟩

/-- `(got + 511U) >> 9`. -/
def sectorsOf (got : Nat) : Nat := (got + 511) / 512

/-- `while (got != 0)`. `k` counts the chunks copied; `lba` is what the source calls `lba`:
it is read in every round and no round assigns to it. -/
def copyLoop (sys : Sys) (lba lbaMin : Nat) : Nat → Nat → Nat → List UInt8 → Nat → Run
  | 0, _, _, _, _ => ⟨.running, []⟩
  | fuel + 1, k, pos, buf, got =>
    if got = 0 then ⟨.returned, []⟩
    else if (lba + sectorsOf got) % 2 ^ 32 > lbaMin then
      ⟨.died "fatal: partition in mbr target starts too early, stopping\n", []⟩
    else if got < bufSize then
      -- the last few bytes, rounded up to whole sectors
      let w := sys.write k pos (buf.take (sectorsOf got * 512))
      if w.taken ≠ sectorsOf got * 512 then ⟨.died "fatal: error writing to mbr target\n", [w]⟩
      else ⟨.returned, [w]⟩
    else
      let w := sys.write k pos buf
      if w.taken ≠ bufSize then ⟨.died "fatal: error writing to mbr target\n", [w]⟩
      else match sys.readSource (k + 1) with
        | none => ⟨.died "fatal: error reading from source\n", [w]⟩
        | some bytes =>
          (copyLoop sys lba lbaMin fuel (k + 1) (pos + w.taken) (fill buf bytes)
            bytes.length).after w

/-- `install`, stopped after at most `fuel` rounds of the copy loop. -/
def install (sys : Sys) (activePart : UInt8) (fuel : Nat) : Run :=
  match prepare sys activePart with
  | .error msg => ⟨.died msg, []⟩
  | .ok p => copyLoop sys 0 p.lbaFirstMin fuel 0 0 p.buf p.got

/-- The target after the writes of a run, in order. -/
def applyWrites (target : List UInt8) (writes : List Write) : List UInt8 :=
  writes.foldl (fun t w => overlay 0 t w.pos (w.data.take w.taken)) target

@[simp] theorem applyWrites_nil (target : List UInt8) : applyWrites target [] = target := rfl

@[simp] theorem applyWrites_cons (target : List UInt8) (w : Write) (ws : List Write) :
    applyWrites target (w :: ws) =
      applyWrites (overlay 0 target w.pos (w.data.take w.taken)) ws := rfl

@[simp] theorem Run.after_exit (w : Write) (r : Run) : (r.after w).exit = r.exit := rfl

@[simp] theorem Run.after_writes (w : Write) (r : Run) :
    (r.after w).writes = w :: r.writes := rfl

end Liigboot.Installer
