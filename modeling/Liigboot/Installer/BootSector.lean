import Liigboot.Installer.Atomic
import Liigboot.Lib.Window

/-!
# Booting what was installed

The image of `liigboot_boot.nasm` has a boot sector, a sector for later use and `liigmain.bin` in
front of an empty FAT file system. Installed on a disk, its first sector reads the others to the
load address and jumps there. What it leaves below the stack is what `liigmain.bin` looks up when it
reads sectors itself.
-/

namespace Liigboot

/-- What a list has at a place it has there with more behind. -/
theorem HoldsAt.append {α : Type} {xs ys : List α} {off : Nat} (h : HoldsAt xs off ys)
    (zs : List α) : HoldsAt (xs ++ zs) off ys := by
  intro i c hc
  have hx := h i c hc
  rwa [List.getElem?_append_left (List.getElem?_eq_some_iff.mp hx).1]

/-- The second of two lists is behind the first. -/
theorem holdsAt_append {α : Type} (xs ys : List α) : HoldsAt (xs ++ ys) xs.length ys := by
  intro i c hc
  rwa [List.getElem?_append_right (Nat.le_add_right _ _), Nat.add_sub_cancel_left]

namespace Installer

/-! ## The image -/

/-- The names that the image is built under. -/
inductive Edition
  | liigresc
  | liigboot
  deriving DecidableEq, Repr

/-- `times n-($-$$) db 0`. -/
def pad (n : Nat) (bs : List UInt8) : List UInt8 := bs ++ List.replicate (n - bs.length) 0

/-- The characters of a string in `db`. -/
def chars (text : String) : List UInt8 := text.toList.map fun c => UInt8.ofNat c.toNat

/-- `VOLUME_LABEL`. -/
def volumeLabel : Edition → List UInt8
  | .liigresc => chars "liigresc   "
  | .liigboot => chars "liigboot   "

/-- The headers of the file system. -/
def headers : Edition → Nat → List UInt8
  | .liigresc, resSc =>
    leBytes 512 2 ++ [4] ++ leBytes resSc 2 ++ [1] ++ leBytes 512 2 ++ leBytes 0 2 ++ [248] ++
    leBytes 256 2 ++ leBytes 32 2 ++ leBytes 64 2 ++ leBytes 0 4 ++ leBytes 0x40000 4 ++
    leBytes 0x80 2 ++ [0x29] ++ leBytes 0x33a816c5 4 ++ volumeLabel .liigresc ++ chars "FAT16   "
  | .liigboot, resSc =>
    leBytes 512 2 ++ [1] ++ leBytes resSc 2 ++ [1] ++ leBytes 32 2 ++ leBytes 2048 2 ++ [248] ++
    leBytes 6 2 ++ leBytes 32 2 ++ leBytes 64 2 ++ leBytes 0 4 ++ leBytes 0 4 ++
    leBytes 0x80 2 ++ [0x29] ++ leBytes 0x33a816c6 4 ++ volumeLabel .liigboot ++ chars "FAT12   "

/-- The jump over the headers, and these. -/
def entry1 (ed : Edition) (resSc : Nat) : List UInt8 :=
  [0xeb, 0x3c, 0x90] ++ chars "LIIGBOOT" ++ headers ed resSc

/-- The disk address packet `dap`. -/
def dap (loadAddr liigmainSc : Nat) : List UInt8 :=
  leBytes 0x10 2 ++ leBytes liigmainSc 2 ++ leBytes 0 2 ++ leBytes (loadAddr / 16) 2 ++ leBytes 2 8

/-- The first sector of the first partition, behind the file system. -/
def partitionStart : Edition → Nat
  | .liigresc => 128 * 1024 * 1024 / 512
  | .liigboot => 1024 * 1024 / 512

/-- The disk signature and the partition table. -/
def partitionTable (ed : Edition) : List UInt8 :=
  leBytes 0x37574cf8 4 ++ leBytes 0 2 ++ [0, 0x51, 2, 0x10, 0x83, 0x71, 0x21, 0x10] ++
  leBytes (partitionStart ed) 4 ++ leBytes (1024 * 1024 / 512) 4 ++ List.replicate 48 0

/-- The first sector, with the code of `entry2` as it is assembled. -/
def bootSector (ed : Edition) (loadAddr liigmainSc : Nat) (code : List UInt8) : List UInt8 :=
  pad (0x1b8 - 16) (pad 0xda (pad 0x3e (entry1 ed (liigmainSc + 2)) ++ code)) ++
    (dap loadAddr liigmainSc ++ (partitionTable ed ++ leBytes 0xaa55 2))

/-- `liigmain.bin`, with another banner in liigresc. -/
def branded (ed : Edition) (liigmain : List UInt8) : List UInt8 :=
  match ed with
  | .liigresc => liigmain.take 0xf ++ chars "Liigresc" ++ liigmain.drop 0x17
  | .liigboot => liigmain

/-- `liigmain_sc`, when it is not given. -/
def liigmainSc (liigmain : List UInt8) : Nat := (0x400 + liigmain.length + 511) / 512 - 2

/-- The empty file system behind the reserved sectors, which end at an offset. -/
def emptyFat (ed : Edition) (reserved : Nat) (front : List UInt8) : List UInt8 :=
  match ed with
  | .liigresc =>
    pad 0x8000000 (pad (0x20000 + reserved) (front ++ leBytes 0xfff8 2 ++ leBytes 0xffff 2) ++
      volumeLabel ed ++
      [8, 0, 0, 0x41, 9, 0x94, 0x4b, 0x94, 0x4b, 0, 0, 0x51, 9, 0x94, 0x4b] ++ leBytes 0 2 ++
      leBytes 0 4)
  | .liigboot =>
    pad 0x100000 (pad (0xc00 + reserved) (front ++ [0xf8, 0xff, 0xff]) ++ volumeLabel ed ++
      [8, 0, 0, 0x41, 4, 0x90, 0x4b, 0x90, 0x4b, 0, 0, 0x41, 4, 0x90, 0x4b] ++ leBytes 0 2 ++
      leBytes 0 4)

/-- What nasm makes of `liigboot_boot.nasm` with `-DEMPTYFS`. -/
def emptyFs (ed : Edition) (loadAddr : Nat) (code liigmain : List UInt8) : List UInt8 :=
  let main := branded ed liigmain
  let sc := liigmainSc main
  emptyFat ed ((sc + 2) * 512)
    (pad ((sc + 2) * 512) (pad 0x400 (bootSector ed loadAddr sc code) ++ main))

/-- What nasm takes, and what the interface between the two parts says of the second one. -/
structure Buildable (loadAddr : Nat) (code liigmain : List UInt8) : Prop where
  load_ge : 0x8000 ≤ loadAddr
  load_le : loadAddr ≤ 0xffff
  load_aligned : 16 ∣ loadAddr
  code_le : code.length ≤ 0xda - 0x3e
  main_ge : 0x52 ≤ liigmain.length
  main_le : liigmain.length ≤ 0x9c00

/-! ## The boot sector -/

/-- The fields of a disk address packet. -/
structure Dap where
  count : Nat
  offset : Nat
  segment : Nat
  lba : Nat
  deriving DecidableEq, Repr

/-- The packet at an address. -/
def dapAt (mem : Memory) (a : Nat) : Dap :=
  ⟨memLe mem (a + 2) 2, memLe mem (a + 4) 2, memLe mem (a + 6) 2, memLe mem (a + 8) 8⟩

/-- Where a packet wants the sectors. -/
def Dap.address (d : Dap) : Nat := d.segment * 16 + d.offset

/-- What int 13h answers. -/
structure Bios where
  /-- BX and CL behind AH=41h, if it is there. -/
  checkExtensions : UInt8 → Option (UInt16 × UInt8)
  /-- The data that AH=42h reads, if it does. -/
  extendedRead : UInt8 → Dap → Option (List UInt8)

/-- The test for EDD. -/
def Bios.hasExtensions (bios : Bios) (drive : UInt8) : Bool :=
  match bios.checkExtensions drive with
  | none => false
  | some (bx, cl) => bx = 0xaa55 && cl &&& 1 ≠ 0

/-- Memory and the stack pointer, with SS clear. -/
structure Machine where
  mem : Memory
  sp : Nat

def Machine.push (m : Machine) (w : UInt16) : Machine :=
  ⟨repMovsbFrom m.mem (leBytes w.toNat 2) (m.sp - 2), m.sp - 2⟩

/-- The registers that the BIOS starts a boot sector with. -/
structure Registers where
  dx : UInt16
  es : UInt16
  di : UInt16
  ds : UInt16
  si : UInt16

/-- How the boot sector ends, with what it has shown. -/
inductive BootOutcome
  | halted (shown : String)
  | jumped (shown : String) (ip : Nat) (m : Machine)

/-- What `entry2` pushes. -/
def saved (r : Registers) : List UInt16 := [r.dx, r.es, r.di, r.ds, r.si, 0, 0, 0, 0, 0, 0]

/-- `entry2`. The code is at `0x7c00`, with `dap` in it. -/
def entry2 (bios : Bios) (loadAddr : Nat) (r : Registers) (mem : Memory) : BootOutcome :=
  let m := (saved r).foldl Machine.push ⟨mem, 0x7b76⟩
  let drive := r.dx.toUInt8
  if bios.hasExtensions drive then
    let dap := dapAt m.mem 0x7da8
    match bios.extendedRead drive dap with
    | some data =>
      .jumped "Li" (loadAddr + 0x2c) (Machine.push ⟨repMovsbFrom m.mem data dap.address, m.sp⟩ 0x7e)
    | none => .halted "LE"
  else .halted "LE"

/-- The BIOS loads the first sector, and jumps to it if it is a boot sector. -/
def bootDisk (bios : Bios) (loadAddr : Nat) (r : Registers) (disk : List UInt8) (mem : Memory) :
    Option BootOutcome :=
  if hasSignature disk then
    some (entry2 bios loadAddr r (repMovsbFrom mem (slice disk 0 512) 0x7c00))
  else none

/-! ## Reading sectors later -/

/-- `Hidden`. -/
def hidden (mem : Memory) : Nat := memLe mem 0x7b60 8

/-- `DriveNumber`. -/
def driveNumber (mem : Memory) : UInt8 := mem 0x7b74

/-- `MaxTransfer`. -/
def maxTransfer (loadAddr : Nat) (mem : Memory) : Nat := memLe mem (loadAddr + 8) 2

inductive ReadExit
  | running
  | kaboom
  | returned
  deriving DecidableEq, Repr

/-- How a read ends, its calls of the BIOS, and the memory. -/
structure LinearRead where
  exit : ReadExit
  daps : List Dap
  mem : Memory

/-- The loop of `getlinsec_ebios`, for EDX:EAX, BP and BX. -/
def getlinsecEbios (bios : Bios) (loadAddr es : Nat) :
    Nat → Nat → Nat → Nat → Memory → LinearRead
  | 0, _, _, _, mem => ⟨.running, [], mem⟩
  | fuel + 1, lba, bp, bx, mem =>
    let di := if bp ≤ maxTransfer loadAddr mem then bp else maxTransfer loadAddr mem
    let dap : Dap := ⟨di, bx, es, lba⟩
    match bios.extendedRead (driveNumber mem) dap with
    | none => ⟨.kaboom, [dap], mem⟩
    | some data =>
      let mem := repMovsbFrom mem data dap.address
      if bp - di = 0 then ⟨.returned, [dap], mem⟩
      else
        let rest := getlinsecEbios bios loadAddr es fuel ((lba + di) % 2 ^ 64) (bp - di)
          ((bx + di * 512 % 2 ^ 16) % 2 ^ 16) mem
        { rest with daps := dap :: rest.daps }

/-- `getlinsec`. -/
def getlinsec (bios : Bios) (loadAddr fuel lba bp es bx : Nat) (mem : Memory) : LinearRead :=
  getlinsecEbios bios loadAddr es fuel ((lba + hidden mem) % 2 ^ 64) bp bx mem

/-- The registers of a call of `comapi_readdisk`. -/
structure ReadCall where
  edi : UInt32
  edx : UInt32
  esi : UInt32
  es : UInt16
  bx : UInt16
  cx : UInt16

/-- `comapi_readdisk`, which fails for what is reserved. -/
def comapiReaddisk (bios : Bios) (loadAddr fuel : Nat) (call : ReadCall) (mem : Memory) :
    Option LinearRead :=
  if call.edi ≠ 0 then none
  else some (getlinsec bios loadAddr fuel (call.esi.toNat * 2 ^ 32 + call.edx.toNat) call.cx.toNat
    call.es.toNat call.bx.toNat mem)

/-- The BIOS reads the sectors of a disk, at least as many at once as all BIOSes do. -/
structure Bios.Serves (bios : Bios) (drive : UInt8) (disk : List UInt8) : Prop where
  extensions : bios.hasExtensions drive = true
  read : ∀ d : Dap, d.count ≤ 127 → d.offset + 512 * d.count ≤ 0x10000 →
    512 * (d.lba + d.count) ≤ disk.length →
      bios.extendedRead drive d = some (slice disk (512 * d.lba) (512 * d.count))

/-! ## Where things are in the image -/

variable {ed : Edition} {loadAddr : Nat} {code liigmain : List UInt8}

/-- Zeros behind a list leave what it has. -/
theorem holdsAt_pad {xs ys : List UInt8} {off : Nat} (h : HoldsAt xs off ys) (n : Nat) :
    HoldsAt (pad n xs) off ys :=
  h.append _

@[simp] theorem length_pad (n : Nat) (bs : List UInt8) : (pad n bs).length = max n bs.length := by
  rw [pad, List.length_append, List.length_replicate]
  omega

@[simp] theorem length_entry1 (ed : Edition) (resSc : Nat) : (entry1 ed resSc).length = 0x3e := by
  cases ed <;> simp [entry1, headers, volumeLabel, chars]

@[simp] theorem length_partitionTable (ed : Edition) : (partitionTable ed).length = 0x46 := by
  cases ed <;> simp [partitionTable]

@[simp] theorem length_dap (loadAddr sc : Nat) : (dap loadAddr sc).length = 16 := by
  simp [dap]

theorem length_code_part (hb : Buildable loadAddr code liigmain) (sc : Nat) :
    (pad (0x1b8 - 16) (pad 0xda (pad 0x3e (entry1 ed (sc + 2)) ++ code))).length = 0x1a8 := by
  have hcode := hb.code_le
  simp only [length_pad, List.length_append, length_entry1]
  omega

theorem length_bootSector (hb : Buildable loadAddr code liigmain) (sc : Nat) :
    (bootSector ed loadAddr sc code).length = 512 := by
  rw [bootSector, List.length_append, length_code_part hb]
  simp

/-- What is in front of the file system stays there. -/
theorem holdsAt_emptyFat (reserved : Nat) {front ys : List UInt8} {off : Nat}
    (h : HoldsAt front off ys) : HoldsAt (emptyFat ed reserved front) off ys := by
  cases ed with
  | liigresc =>
    have hfat := holdsAt_pad ((h.append (leBytes 0xfff8 2)).append (leBytes 0xffff 2))
      (0x20000 + reserved)
    exact holdsAt_pad ((((hfat.append _).append _).append _).append _) _
  | liigboot =>
    have hfat := holdsAt_pad (h.append [0xf8, 0xff, 0xff]) (0xc00 + reserved)
    exact holdsAt_pad ((((hfat.append _).append _).append _).append _) _

/-- The image begins with the boot sector. -/
theorem emptyFs_bootSector :
    HoldsAt (emptyFs ed loadAddr code liigmain) 0
      (bootSector ed loadAddr (liigmainSc (branded ed liigmain)) code) := by
  have hself := holdsAt_append []
    (bootSector ed loadAddr (liigmainSc (branded ed liigmain)) code)
  exact holdsAt_emptyFat _ (holdsAt_pad ((holdsAt_pad hself _).append _) _)

/-- The loader is in the image from the third sector on. -/
theorem emptyFs_main (hb : Buildable loadAddr code liigmain) :
    HoldsAt (emptyFs ed loadAddr code liigmain) 0x400 (branded ed liigmain) := by
  have hmain := holdsAt_append
    (pad 0x400 (bootSector ed loadAddr (liigmainSc (branded ed liigmain)) code))
    (branded ed liigmain)
  rw [length_pad, length_bootSector hb] at hmain
  exact holdsAt_emptyFat _ (holdsAt_pad hmain _)

theorem emptyFs_length :
    (liigmainSc (branded ed liigmain) + 2) * 512 ≤ (emptyFs ed loadAddr code liigmain).length := by
  cases ed <;> simp only [emptyFs, emptyFat, length_pad, List.length_append] <;> omega

/-- The boot sector is code, the packet, and what the installer may replace, with the signature. -/
theorem bootSector_parts (hb : Buildable loadAddr code liigmain) (sc : Nat) :
    HoldsAt (bootSector ed loadAddr sc code) 0x1a8 (dap loadAddr sc) ∧
      HoldsAt (bootSector ed loadAddr sc code) 0x1fe (leBytes 0xaa55 2) := by
  have hrest := holdsAt_append
    (pad (0x1b8 - 16) (pad 0xda (pad 0x3e (entry1 ed (sc + 2)) ++ code)))
    (dap loadAddr sc ++ (partitionTable ed ++ leBytes 0xaa55 2))
  rw [length_code_part hb] at hrest
  refine ⟨hrest.left, ?_⟩
  have hsig := hrest.right.right
  rwa [length_dap, length_partitionTable] at hsig

/-! ## The installed disk -/

/-- Outside of the table, an installed disk starts with the image. -/
theorem Copied.keeps {source target buf out : List UInt8} {a : UInt8} {m : Nat}
    (hm : mergeTarget (fileSys source target) (firstFill bufSize (slice source 0 bufSize)) =
      .ok (buf, m))
    (hc : Copied (installImage (setActive buf (activeNumber a)) source) 0 (roundUp source.length)
      target out) {off : Nat} {bs : List UInt8} (h : HoldsAt source off bs)
    (hout : off + bs.length ≤ 0x1b8 ∨ 0x1fe ≤ off) : HoldsAt out off bs := by
  intro i c hi
  have hsource := h i c hi
  have hlt := (List.getElem?_eq_some_iff.mp hsource).1
  have hin := (List.getElem?_eq_some_iff.mp hi).1
  rw [hc.copied _ (Nat.zero_le _) (hlt.trans_le (le_roundUp _)), installImage]
  by_cases hbuf : off + i < bufSize
  · have hchunk : off + i < (slice source 0 bufSize).length := by
      rw [length_slice]
      omega
    rw [if_pos hbuf, getElem?_setActive_of_ne (activeNumber_le a) fun p hp => by omega,
      (getElem?_merged hm).2 _ hchunk, tableByte, if_neg (by omega), hsource]
  · rw [if_neg hbuf, if_pos hlt, hsource]

/-- What the boot sector needs of a disk. -/
structure Bootable (ed : Edition) (loadAddr : Nat) (code liigmain disk : List UInt8) : Prop where
  code : HoldsAt disk 0 ((emptyFs ed loadAddr code liigmain).take 0x1b8)
  dap : HoldsAt disk 0x1a8 (dap loadAddr (liigmainSc (branded ed liigmain)))
  signature : HoldsAt disk 0x1fe (leBytes 0xaa55 2)
  main : HoldsAt disk 0x400 (branded ed liigmain)
  length : (liigmainSc (branded ed liigmain) + 2) * 512 ≤ disk.length

/-- A disk to which the image was copied can be booted. -/
theorem Copied.bootable {target buf out : List UInt8} {a : UInt8} {m : Nat}
    (hb : Buildable loadAddr code liigmain)
    (hm : mergeTarget (fileSys (emptyFs ed loadAddr code liigmain) target)
      (firstFill bufSize (slice (emptyFs ed loadAddr code liigmain) 0 bufSize)) = .ok (buf, m))
    (hc : Copied (installImage (setActive buf (activeNumber a)) (emptyFs ed loadAddr code liigmain))
      0 (roundUp (emptyFs ed loadAddr code liigmain).length) target out) :
    Bootable ed loadAddr code liigmain out := by
  obtain ⟨hdap, hsignature⟩ := @bootSector_parts ed _ _ _ hb (liigmainSc (branded ed liigmain))
  have hlength := @emptyFs_length ed loadAddr code liigmain
  refine ⟨hc.keeps hm (fun i c hi => ?_) (Or.inl ?_),
    hc.keeps hm (emptyFs_bootSector.trans hdap) (Or.inl ?_),
    hc.keeps hm (emptyFs_bootSector.trans hsignature) (Or.inr ?_),
    hc.keeps hm (emptyFs_main hb) (Or.inr ?_), ?_⟩
  · have hlt := (List.getElem?_eq_some_iff.mp hi).1
    rw [List.length_take] at hlt
    rwa [List.getElem?_take, if_pos (by omega), ← Nat.zero_add i] at hi
  · rw [List.length_take]
    omega
  · rw [length_dap]
  · decide
  · decide
  · have hlast : HoldsAt (emptyFs ed loadAddr code liigmain)
        ((emptyFs ed loadAddr code liigmain).length - 1)
        ((emptyFs ed loadAddr code liigmain).drop
          ((emptyFs ed loadAddr code liigmain).length - 1)) := by
      intro i c hi
      rwa [List.getElem?_drop] at hi
    have hheld := hc.keeps hm hlast (Or.inr (by omega)) 0
      ((emptyFs ed loadAddr code liigmain)[(emptyFs ed loadAddr code liigmain).length - 1]) (by
        rw [List.getElem?_drop, Nat.add_zero, List.getElem?_eq_getElem])
    have hlt := (List.getElem?_eq_some_iff.mp hheld).1
    omega

/-! ## The boot -/

theorem length_branded (hb : Buildable loadAddr code liigmain) (ed : Edition) :
    (branded ed liigmain).length = liigmain.length := by
  have hge := hb.main_ge
  cases ed with
  | liigresc =>
    have hname : (chars "Liigresc").length = 8 := by decide
    simp only [branded, List.length_append, List.length_take, List.length_drop, hname]
    omega
  | liigboot => rfl

/-- The stack behind some pushes: the last word is in front. -/
theorem foldl_push (ws : List UInt16) (m : Machine) (h : 2 * ws.length ≤ m.sp) :
    (ws.foldl Machine.push m).sp = m.sp - 2 * ws.length ∧
      Holds (ws.foldl Machine.push m).mem (m.sp - 2 * ws.length)
        (ws.reverse.flatMap fun w => leBytes w.toNat 2) ∧
      ∀ c, c < m.sp - 2 * ws.length ∨ m.sp ≤ c →
        (ws.foldl Machine.push m).mem c = m.mem c := by
  induction ws generalizing m with
  | nil => exact ⟨rfl, holds_nil _ _, fun c _ => rfl⟩
  | cons w ws ih =>
    rw [List.length_cons] at h ⊢
    have hsp : (m.push w).sp = m.sp - 2 := rfl
    obtain ⟨hend, hheld, hframe⟩ := ih (m.push w) (by omega)
    rw [hsp, show m.sp - 2 - 2 * ws.length = m.sp - 2 * (ws.length + 1) by omega] at *
    have hlength : (ws.reverse.flatMap fun w => leBytes w.toNat 2).length = 2 * ws.length := by
      simp [List.length_flatMap, Nat.mul_comm]
    refine ⟨hend, ?_, fun c hc => ?_⟩
    · rw [List.reverse_cons, List.flatMap_append, List.flatMap_singleton, List.foldl_cons,
        holds_append, hlength, show m.sp - 2 * (ws.length + 1) + 2 * ws.length = m.sp - 2 by omega]
      refine ⟨hheld, Holds.congr (@repMovsbFrom_holds _ m.mem _ _) fun c hge hlt => ?_⟩
      exact hframe c (Or.inr hge)
    · rw [List.foldl_cons, hframe c (by omega)]
      rcases hc with hlt | hge
      · exact repMovsbFrom_of_lt (by omega)
      · exact repMovsbFrom_of_ge (by rw [length_leBytes]; omega)

/-- The packet of the image. -/
theorem dapAt_of_holds (hb : Buildable loadAddr code liigmain) {mem : Memory} {a sc : Nat}
    (hsc : sc < 65536) (h : Holds mem a (dap loadAddr sc)) :
    dapAt mem a = ⟨sc, 0, loadAddr / 16, 2⟩ := by
  have hload := hb.load_le
  simp only [dap, holds_append, length_leBytes, List.length_append] at h
  obtain ⟨⟨⟨⟨-, hcount⟩, hoffset⟩, hsegment⟩, hlba⟩ := h
  have hcut : sc % 256 ^ 2 = sc := Nat.mod_eq_of_lt hsc
  have hcut' : loadAddr / 16 % 256 ^ 2 = loadAddr / 16 := Nat.mod_eq_of_lt (by omega)
  rw [dapAt, memLe_of_holds hcount, memLe_of_holds hoffset, memLe_of_holds hsegment,
    memLe_of_holds hlba, hcut, hcut']
  rfl

/-- `liigmain.bin` is in its place, called as it expects it: with what was saved where it looks. -/
structure Loaded (ed : Edition) (loadAddr : Nat) (code liigmain : List UInt8) (r : Registers)
    (m : Machine) : Prop where
  main : Holds m.mem loadAddr (branded ed liigmain)
  code : Holds m.mem 0x7c00 ((emptyFs ed loadAddr code liigmain).take 0x1b8)
  stack : m.sp = 0x7b5e
  saved : Holds m.mem 0x7b60 ((saved r).reverse.flatMap fun w => leBytes w.toNat 2)
  hidden : hidden m.mem = 0
  drive : driveNumber m.mem = r.dx.toUInt8

/-- The words that were saved are where `liigmain.bin` looks for them. -/
theorem saved_cells {mem : Memory} {r : Registers}
    (h : Holds mem 0x7b60 ((saved r).reverse.flatMap fun w => leBytes w.toNat 2)) :
    hidden mem = 0 ∧ driveNumber mem = r.dx.toUInt8 := by
  have hbytes : ((saved r).reverse.flatMap fun w => leBytes w.toNat 2) =
      leBytes 0 8 ++ (leBytes 0 4 ++ leBytes r.si.toNat 2 ++ leBytes r.ds.toNat 2 ++
        leBytes r.di.toNat 2 ++ leBytes r.es.toNat 2 ++ leBytes r.dx.toNat 2) := by
    rfl
  rw [hbytes, holds_append, holds_append] at h
  obtain ⟨hhidden, -, hdrive⟩ := h
  refine ⟨memLe_of_holds hhidden, ?_⟩
  have hlow := hdrive 0 (UInt8.ofNat (r.dx.toNat / 256 ^ 0)) rfl
  simpa [driveNumber] using hlow

/-- What a disk holds is in memory behind a read. -/
theorem holds_of_slice {disk bs : List UInt8} {mem : Memory} {a start off n : Nat}
    (hmem : Holds mem a (slice disk start n)) (h : HoldsAt disk (start + off) bs)
    (hle : off + bs.length ≤ n) : Holds mem (a + off) bs := by
  intro i c hi
  have hin := (List.getElem?_eq_some_iff.mp hi).1
  rw [Nat.add_assoc]
  refine hmem (off + i) c ?_
  rw [getElem?_slice, if_pos (by omega), ← Nat.add_assoc]
  exact h i c hi

/-- What is behind the first sector's start is not touched by what `entry2` pushes. -/
theorem saved_stack (r : Registers) (mem : Memory) : ∃ m : Machine,
    (saved r).foldl Machine.push ⟨mem, 0x7b76⟩ = m ∧ m.sp = 0x7b60 ∧
      Holds m.mem 0x7b60 ((saved r).reverse.flatMap fun w => leBytes w.toNat 2) ∧
      ∀ c, 0x7b76 ≤ c → m.mem c = mem c := by
  have hroom : 2 * (saved r).length ≤ 0x7b76 := show 2 * 11 ≤ 0x7b76 by decide
  obtain ⟨hsp, hsaved, hframe⟩ := foldl_push (saved r) ⟨mem, 0x7b76⟩ hroom
  exact ⟨_, rfl, hsp, hsaved, fun c hc => hframe c (Or.inr hc)⟩

/-- The last word that is pushed, below what was saved. -/
theorem push_frame (mem : Memory) {sp : Nat} (w : UInt16) {c : Nat} (hc : sp ≤ c) (hsp : 2 ≤ sp) :
    (Machine.push ⟨mem, sp⟩ w).mem c = mem c :=
  repMovsbFrom_of_ge (show sp - 2 + (leBytes w.toNat 2).length ≤ c by rw [length_leBytes]; omega)

/-- From such a disk the loader is loaded and started. -/
theorem Bootable.boots (hb : Buildable loadAddr code liigmain) {disk : List UInt8}
    (hdisk : Bootable ed loadAddr code liigmain disk) {bios : Bios} {r : Registers}
    (hbios : bios.Serves r.dx.toUInt8 disk) (mem : Memory) :
    ∃ m, bootDisk bios loadAddr r disk mem = some (.jumped "Li" (loadAddr + 0x2c) m) ∧
      Loaded ed loadAddr code liigmain r m := by
  obtain ⟨hge, hle, ⟨segment, rfl⟩, -, hmain, hlast⟩ := id hb
  have hlength := length_branded hb ed
  have hsc : liigmainSc (branded ed liigmain) ≤ 78 ∧
      liigmain.length ≤ 512 * liigmainSc (branded ed liigmain) := by
    rw [liigmainSc, hlength]
    omega
  have hsignature : hasSignature disk = true := by
    rw [hasSignature, @HoldsAt.readLe _ _ _ hdisk.signature 0 2 (by decide)]
    decide
  have hend := hdisk.length
  -- the first sector, and the stack below it
  have hsector := @repMovsbFrom_holds _ mem (slice disk 0 512) 0x7c00
  obtain ⟨m, hm, hsp, hsaved, hframe⟩ := saved_stack r (repMovsbFrom mem (slice disk 0 512) 0x7c00)
  have hkept : Holds m.mem 0x7c00 (slice disk 0 512) :=
    hsector.congr fun c hc _ => hframe c (le_trans (by decide) hc)
  have hdap := dapAt_of_holds hb (by omega)
    (@holds_of_slice _ _ _ 0x7c00 0 0x1a8 512 hkept hdisk.dap (by rw [length_dap]; decide))
  have hcode := @holds_of_slice _ _ _ 0x7c00 0 0 512 hkept hdisk.code
    (by rw [List.length_take]; omega)
  -- the other sectors
  have haddress : 16 * segment / 16 * 16 + 0 = 16 * segment := by omega
  have hread := hbios.read ⟨liigmainSc (branded ed liigmain), 0, 16 * segment / 16, 2⟩
    (show liigmainSc (branded ed liigmain) ≤ 127 by omega)
    (show 0 + 512 * liigmainSc (branded ed liigmain) ≤ 0x10000 by omega)
    (show 512 * (2 + liigmainSc (branded ed liigmain)) ≤ disk.length by omega)
  have hloaded := @repMovsbFrom_holds _ m.mem
    (slice disk (512 * 2) (512 * liigmainSc (branded ed liigmain))) (16 * segment)
  have hmainAt := @holds_of_slice _ _ _ (16 * segment) (512 * 2) 0 _ hloaded hdisk.main (by omega)
  have hbelow (c : Nat) (hlt : c < 0x8000) : repMovsbFrom m.mem
      (slice disk (512 * 2) (512 * liigmainSc (branded ed liigmain))) (16 * segment) c = m.mem c :=
    repMovsbFrom_of_lt (by omega)
  have hstack : Holds (Machine.push ⟨repMovsbFrom m.mem
      (slice disk (512 * 2) (512 * liigmainSc (branded ed liigmain))) (16 * segment), m.sp⟩ 0x7e).mem
      0x7b60 ((saved r).reverse.flatMap fun w => leBytes w.toNat 2) := by
    refine hsaved.congr fun c hc hlt => ?_
    rw [push_frame _ _ (by omega) (by omega)]
    exact hbelow c (lt_of_lt_of_le hlt (show 0x7b60 + 22 ≤ 0x8000 by decide))
  obtain ⟨hhidden, hdrive⟩ := saved_cells hstack
  refine ⟨_, ?_, ?_, ?_, ?_, hstack, hhidden, hdrive⟩
  · rw [bootDisk, if_pos hsignature, entry2, hm, if_pos hbios.extensions]
    simp only [hdap, hread, Dap.address, haddress]
  · refine hmainAt.congr fun c hc _ => ?_
    exact push_frame _ _ (by omega) (by omega)
  · refine hcode.congr fun c hc hlt => ?_
    rw [List.length_take] at hlt
    rw [push_frame _ _ (by omega) (by omega)]
    exact hbelow c (by omega)
  · rw [Machine.push, hsp]
/-- What the installer makes of a disk boots, if it changes the disk at all: whatever the disk had
before, the second part comes into memory as it was built. -/
theorem installed_disk_boots (ed : Edition) (hb : Buildable loadAddr code liigmain)
    (target : List UInt8) (a : UInt8) (fuel : Nat)
    (hfuel : (emptyFs ed loadAddr code liigmain).length < fuel) :
    let run := install (fileSys (emptyFs ed loadAddr code liigmain) target) a fuel
    let disk := applyWrites target run.writes
    (∃ msg, run.exit = .died msg ∧ run.writes = []) ∨
      run.exit = .returned ∧
        ∀ (bios : Bios) (r : Registers) (mem : Memory), bios.Serves r.dx.toUInt8 disk →
          ∃ m, bootDisk bios loadAddr r disk mem = some (.jumped "Li" (loadAddr + 0x2c) m) ∧
            Loaded ed loadAddr code liigmain r m := by
  intro run disk
  rcases install_copies_or_refuses (emptyFs ed loadAddr code liigmain) target a fuel hfuel with
    ⟨buf, lbaMin, hm, -, -, hexit, hc⟩ | hdied
  · refine Or.inr ⟨hexit, fun bios r mem hbios => ?_⟩
    exact (hc.bootable hb hm).boots hb hbios mem
  · exact Or.inl hdied

/-! ## Reads of `liigmain.bin` -/

/-- What the BIOS reads comes from a disk, when it reads at all. -/
def Bios.Reads (bios : Bios) (drive : UInt8) (disk : List UInt8) : Prop :=
  ∀ d data, bios.extendedRead drive d = some data →
    data = slice disk (512 * d.lba) (512 * d.count)

/-- A read for a buffer leaves the cells alone that it depends on. -/
def Spares (loadAddr a n : Nat) : Prop :=
  ∀ c ∈ [0x7b74, loadAddr + 8, loadAddr + 8 + 1], c < a ∨ a + n ≤ c

/-- A buffer that keeps off the cells of the loader leaves them. -/
theorem cells_of_spares {loadAddr a : Nat} {mem : Memory} {data : List UInt8}
    (h : Spares loadAddr a data.length) :
    driveNumber (repMovsbFrom mem data a) = driveNumber mem ∧
      maxTransfer loadAddr (repMovsbFrom mem data a) = maxTransfer loadAddr mem := by
  have hcell (c : Nat) (hc : c ∈ [0x7b74, loadAddr + 8, loadAddr + 8 + 1]) :
      repMovsbFrom mem data a c = mem c := by
    rcases h c hc with hlt | hge
    · exact repMovsbFrom_of_lt hlt
    · exact repMovsbFrom_of_ge hge
  refine ⟨hcell _ (by simp), memLe_congr fun i hi => ?_⟩
  have hi : i = 0 ∨ i = 1 := by omega
  rcases hi with rfl | rfl
  · exact hcell _ (by simp)
  · exact hcell _ (by simp)

/-- A slice is two slices, one behind the other. -/
theorem slice_add {α : Type} (xs : List α) (off m n : Nat) :
    slice xs off (m + n) = slice xs off m ++ slice xs (off + m) n := by
  rw [slice, slice, slice, List.take_add, List.drop_drop]

/-- How a read may end: with all sectors in the buffer, or with one that the BIOS refused. -/
def ReadsOrFails (bios : Bios) (drive : UInt8) (most lba bp a : Nat) (disk : List UInt8)
    (mem : Memory) (r : LinearRead) : Prop :=
  (∀ d ∈ r.daps, d.count ≤ most ∧ lba ≤ d.lba ∧ d.lba + d.count ≤ lba + bp ∧
      d.address = a + 512 * (d.lba - lba)) ∧
    (r.exit = .returned ∧ r.mem = repMovsbFrom mem (slice disk (512 * lba) (512 * bp)) a ∨
      r.exit = .kaboom ∧ ∃ d ∈ r.daps, bios.extendedRead drive d = none)

/-- The sectors are read in calls of the BIOS of bounded size, or one of these fails. -/
theorem getlinsecEbios_reads {bios : Bios} {loadAddr es most : Nat} {drive : UInt8}
    {disk : List UInt8} (hbios : bios.Reads drive disk) (hmost : 0 < most) (hle : most ≤ 127)
    (fuel : Nat) {lba bp bx : Nat} {mem : Memory} (hfuel : bp < fuel)
    (hdisk : 512 * (lba + bp) ≤ disk.length) (hlba : lba + bp ≤ 2 ^ 64)
    (hbx : bx + 512 * bp ≤ 2 ^ 16) (hspares : Spares loadAddr (es * 16 + bx) (512 * bp))
    (hdrive : driveNumber mem = drive) (hmax : maxTransfer loadAddr mem = most) :
    ReadsOrFails bios drive most lba bp (es * 16 + bx) disk mem
      (getlinsecEbios bios loadAddr es fuel lba bp bx mem) := by
  induction fuel generalizing lba bp bx mem with
  | zero => omega
  | succ fuel ih =>
    have hdi : (if bp ≤ most then bp else most) = min bp most := by
      split_ifs <;> omega
    rw [getlinsecEbios, hdrive, hmax, hdi]
    have hfirst : ∀ d ∈ [(⟨min bp most, bx, es, lba⟩ : Dap)],
        d.count ≤ most ∧ lba ≤ d.lba ∧ d.lba + d.count ≤ lba + bp ∧
          d.address = es * 16 + bx + 512 * (d.lba - lba) := by
      intro d hd
      obtain rfl := List.mem_singleton.mp hd
      refine ⟨Nat.min_le_right _ _, Nat.le_refl _, ?_, ?_⟩
      · exact Nat.add_le_add_left (Nat.min_le_left _ _) _
      · simp [Dap.address]
    cases hread : bios.extendedRead drive ⟨min bp most, bx, es, lba⟩ with
    | none => exact ⟨hfirst, Or.inr ⟨rfl, _, List.mem_singleton_self _, hread⟩⟩
    | some data =>
      obtain rfl := hbios _ _ hread
      have hlength : (slice disk (512 * lba) (512 * min bp most)).length = 512 * min bp most := by
        rw [length_slice]
        omega
      by_cases hlast : bp ≤ most
      · rw [Nat.min_eq_left hlast] at hfirst ⊢
        simp only [Nat.sub_self, if_true]
        exact ⟨hfirst, Or.inl ⟨rfl, rfl⟩⟩
      · -- the buffer and the disk go on where this call ends
        rw [Nat.min_eq_right (by omega)] at hfirst hlength ⊢
        have hcells := @cells_of_spares loadAddr (es * 16 + bx) mem
          (slice disk (512 * lba) (512 * most)) fun c hc => by
            rcases hspares c hc with hlt | hge
            · exact Or.inl hlt
            · exact Or.inr (by omega)
        have hnext := @ih (lba + most) (bp - most) (bx + 512 * most)
          (repMovsbFrom mem (slice disk (512 * lba) (512 * most)) (es * 16 + bx)) (by omega)
          (by omega) (by omega) (by omega) (fun c hc => by
            rcases hspares c hc with hlt | hge
            · exact Or.inl (by omega)
            · exact Or.inr (by omega))
          (hcells.1.trans hdrive) (hcells.2.trans hmax)
        have hlba' : (lba + most) % 2 ^ 64 = lba + most := Nat.mod_eq_of_lt (by omega)
        have hbx' : (bx + most * 512 % 2 ^ 16) % 2 ^ 16 = bx + 512 * most := by omega
        simp only [if_neg (show bp - most ≠ 0 by omega), hlba', hbx', Dap.address]
        obtain ⟨hdaps, hend⟩ := hnext
        constructor
        · intro d hd
          rcases List.mem_cons.mp hd with rfl | hd
          · exact hfirst _ (List.mem_singleton_self _)
          · obtain ⟨hcount, hge, hle, haddress⟩ := hdaps d hd
            exact ⟨hcount, by omega, by omega, by omega⟩
        · rcases hend with ⟨hexit, hmem⟩ | ⟨hexit, d, hd, hnone⟩
          · refine Or.inl ⟨hexit, ?_⟩
            have hsplit : 512 * bp = 512 * most + 512 * (bp - most) := by omega
            rw [hmem, hsplit, slice_add, repMovsbFrom_append, hlength, Nat.mul_add, Nat.add_assoc]
          · exact Or.inr ⟨hexit, d, List.mem_cons_of_mem _ hd, hnone⟩

/-- A program that asks `liigmain.bin` for sectors gets them, unless the BIOS refuses one of the
calls, each of which is for as many as are allowed at once. -/
theorem comapi_readdisk_reads {bios : Bios} {loadAddr fuel : Nat} {call : ReadCall} {mem : Memory}
    {disk : List UInt8} (hbios : bios.Reads (driveNumber mem) disk) (hedi : call.edi = 0)
    (hmost : 0 < maxTransfer loadAddr mem) (hle : maxTransfer loadAddr mem ≤ 127)
    (hfuel : call.cx.toNat < fuel) (hlength : disk.length < 512 * 2 ^ 64)
    (hdisk : 512 * (call.esi.toNat * 2 ^ 32 + call.edx.toNat + hidden mem + call.cx.toNat) ≤
      disk.length)
    (hbx : call.bx.toNat + 512 * call.cx.toNat ≤ 2 ^ 16)
    (hspares : Spares loadAddr (call.es.toNat * 16 + call.bx.toNat) (512 * call.cx.toNat)) :
    ∃ r, comapiReaddisk bios loadAddr fuel call mem = some r ∧
      ReadsOrFails bios (driveNumber mem) (maxTransfer loadAddr mem)
        (call.esi.toNat * 2 ^ 32 + call.edx.toNat + hidden mem) call.cx.toNat
        (call.es.toNat * 16 + call.bx.toNat) disk mem r := by
  have hlba : (call.esi.toNat * 2 ^ 32 + call.edx.toNat + hidden mem) % 2 ^ 64 =
      call.esi.toNat * 2 ^ 32 + call.edx.toNat + hidden mem := Nat.mod_eq_of_lt (by omega)
  rw [comapiReaddisk, if_neg (not_not.mpr hedi), getlinsec, hlba]
  exact ⟨_, rfl, getlinsecEbios_reads hbios hmost hle fuel hfuel hdisk (by omega) hbx hspares rfl
    rfl⟩

/-- A BIOS that reads every sector of a disk. -/
def plainBios (disk : List UInt8) : Bios where
  checkExtensions _ := some (0xaa55, 1)
  extendedRead _ d := some (slice disk (512 * d.lba) (512 * d.count))

/-- A second part that halts. -/
def haltMain : List UInt8 := List.replicate 0x52 0xf4

/-- A loader of one sector that halts. -/
theorem haltMain_buildable : Buildable 0x8000 [] haltMain where
  load_ge := by decide
  load_le := by decide
  load_aligned := by decide
  code_le := by decide
  main_ge := by rw [haltMain, List.length_replicate]
  main_le := by
    rw [haltMain, List.length_replicate]
    decide

/-- It is installed on a signed disk and booted. -/
theorem installed_disk_boots_sample : ∃ fuel,
    let run := install (fileSys (emptyFs .liigboot 0x8000 [] haltMain) []) 0 fuel
    let disk := applyWrites [] run.writes
    (∃ msg, run.exit = .died msg ∧ run.writes = []) ∨
      run.exit = .returned ∧
        ∀ (bios : Bios) (r : Registers) (mem : Memory), bios.Serves r.dx.toUInt8 disk →
          ∃ m, bootDisk bios 0x8000 r disk mem = some (.jumped "Li" (0x8000 + 0x2c) m) ∧
            Loaded .liigboot 0x8000 [] haltMain r m := by
  obtain ⟨fuel, hfuel⟩ := exists_gt (emptyFs .liigboot 0x8000 [] haltMain).length
  exact ⟨fuel, installed_disk_boots .liigboot haltMain_buildable [] 0 fuel hfuel⟩

/-- Two sectors are read in two calls. -/
theorem comapi_readdisk_reads_sample :
    let mem : Memory := fun c => if c = 0x8008 then 127 else 0
    let disk := List.replicate 1536 (7 : UInt8)
    ∃ r, comapiReaddisk (plainBios disk) 0x8000 3 ⟨0, 1, 0, 0x1000, 0, 2⟩ mem = some r ∧
      ReadsOrFails (plainBios disk) 0 127 1 2 0x10000 disk mem r := by
  intro mem disk
  have hmax : maxTransfer 0x8000 mem = 127 := by decide
  have hhidden : hidden mem = 0 := by decide
  have hlength : disk.length = 1536 := List.length_replicate
  have hspares : Spares 0x8000 0x10000 1024 := by
    intro c hc
    simp only [List.mem_cons, List.not_mem_nil, or_false] at hc
    omega
  have hreads := @comapi_readdisk_reads (plainBios disk) 0x8000 3 ⟨0, 1, 0, 0x1000, 0, 2⟩ mem disk
    (fun d data h => (Option.some.inj h).symm) rfl (by rw [hmax]; decide) (by rw [hmax])
    (by decide) (by rw [hlength]; decide) (by rw [hlength, hhidden]; decide) (by decide) hspares
  rwa [hmax, hhidden] at hreads

end Installer

end Liigboot
