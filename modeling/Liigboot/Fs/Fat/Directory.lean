import Liigboot.Lib.Scan
import Liigboot.Fs.Fat.Codepage
import Liigboot.Fs.Fat.Volume

/-!
# FAT directories

`vfat_find_entry` and `vfat_readdir`. Both read the slots of a directory one after the other
and collect the pieces of a long name in a buffer, until a short entry follows. The stores to
that buffer and the reads of the searched name are checked here: a scan that leaves one of
them has no result.
-/

namespace Liigboot.Fs.Fat

/-- A slot of a directory. -/
abbrev Slot := Fin 32 → UInt8

instance slotSizeNeZero : @NeZero Nat Zero.ofOfNat0 32 := ⟨by decide⟩

namespace Slot

variable (de : Slot)

/-- The two bytes from `k` on. -/
def word (k : Fin 31) : UInt16 := (de k.castSucc).toUInt16 ||| (de k.succ).toUInt16 <<< 8

/-! `struct fat_dir_entry` -/

def name : List UInt8 := (List.ofFn de).take 11

def attr : UInt8 := de 11

def lcase : UInt8 := de 12

def firstClusterHigh : UInt16 := de.word 20

def firstClusterLow : UInt16 := de.word 26

def fileSize : UInt32 := (de.word 28).toUInt32 ||| (de.word 30).toUInt32 <<< 16

/-! `struct fat_long_name_entry` -/

def id : UInt8 := de 0

def checksum : UInt8 := de 13

/-- `name1`, `name2` and `name3`, as `copy_long_chunk` joins them. -/
def longChunk : List UInt16 := [1, 3, 5, 7, 9, 14, 16, 18, 20, 22, 24, 28, 30].map de.word

end Slot

def attrVolumeId : UInt8 := 0x08

def attrDirectory : UInt8 := 0x10

/-- `de->attr == 0x0f` -/
def Slot.isLong (de : Slot) : Bool := de.attr = 0x0f

/-- `first_cluster_high << 16` and `first_cluster_low` together. -/
def Slot.startCluster (de : Slot) : UInt32 :=
  de.firstClusterHigh.toUInt32 <<< 16 + de.firstClusterLow.toUInt32

/-! ## Names -/

/-- The bytes of a string in memory. -/
def cStr (s : List UInt8) : List UInt8 := s ++ [0]

/-- The loop of `mangle_dos_name`, with the bytes stored so far. -/
def mangleLoop (cp : Codepage) : List UInt8 → List UInt8 → Option (List UInt8)
  | [], buf => if buf.length < 11 then none else some buf
  | c :: src, buf =>
    if buf.length < 11 then
      if c ≤ 0x20 ∨ c = 0x2f then some buf
      else if c = 0x2e then
        mangleLoop cp src ((buf ++ List.replicate (8 - buf.length) 0x20).take 8)
      else
        let c := cp.upper c
        let c := if buf.length = 0 ∧ c = 0xe5 then 0x05 else c
        mangleLoop cp src (buf ++ [c])
    else some buf

/-- `mangle_dos_name`. -/
def mangleDosName (cp : Codepage) (src : List UInt8) : Option (List UInt8) :=
  let buf := match src with
    | 0x2e :: 0 :: _ => some [0x2e]
    | 0x2e :: 0x2e :: 0 :: _ => some [0x2e, 0x2e]
    | _ => mangleLoop cp src []
  buf.map fun buf => buf ++ List.replicate (11 - buf.length) 0x20

/-- The end of `vfat_match_longname`: the string must end here, and the rest be padding. -/
def vfatMatchEnd (str : List UInt8) (padding : List UInt16) : Option Bool :=
  str.head?.map fun c => c = 0 && padding.all (· = 0xffff)

/-- `vfat_match_longname`. -/
def vfatMatchLongname (cp : Codepage) : List UInt8 → List UInt16 → Option Bool
  | str, [] => vfatMatchEnd str []
  | str, u :: rest =>
    if u = 0 then vfatMatchEnd str rest
    else match str with
      | [] => none
      | c :: str =>
        if u ≠ cp.uni c ∧ u ≠ cp.alt c then some false else vfatMatchLongname cp str rest

/-- The search of `vfat_cvt_longname`: it runs on through the second table, and the code is
cut to a byte. `unicache` only keeps what the search found. -/
@[irreducible] def codeOf (cp : Codepage) (u : UInt16) : Option UInt8 :=
  ((List.range 512).find? fun c =>
    (if c < 256 then cp.uni (UInt8.ofNat c) else cp.alt (UInt8.ofNat c)) = u).map UInt8.ofNat

/-- `vfat_cvt_longname`: the string, or `none` inside when a character has no code. -/
def vfatCvtLongname (cp : Codepage) : List UInt16 → Option (Option (List UInt8))
  | [] => none
  | u :: rest =>
    match codeOf cp u with
    | none => some none
    | some c =>
      if u = 0 then some (some [])
      else (vfatCvtLongname cp rest).map fun name => name.map (c :: ·)

/-- `get_checksum`. -/
def getChecksum (dirName : List UInt8) : UInt8 :=
  dirName.foldl (fun sum c => (sum &&& 1) <<< 7 + sum >>> 1 + c) 0

/-- `copy_long_chunk(long_name + id*13, de)`. -/
def copyLongChunk (longName : List UInt16) (id : UInt8) (de : Slot) : Option (List UInt16) :=
  if id.toNat * 13 + 13 ≤ longName.length then some (blit longName (id.toNat * 13) de.longChunk)
  else none

/-! ## `vfat_find_entry` -/

/-- The local variables of `vfat_find_entry` that change. -/
structure FindState where
  vfatNext : UInt8
  vfatCsum : UInt8
  longName : List UInt16
  longLen : Nat
  longMatch : Bool

/-- `not_match`. -/
def FindState.notMatch (st : FindState) (vfatInit : UInt8) : FindState :=
  { st with vfatNext := vfatInit, longMatch := false }

/-- The first piece: its checksum, the length of the name, and an empty buffer. -/
def FindState.first (st : FindState) (id : UInt8) (de : Slot) : FindState :=
  { st with
    vfatCsum := de.checksum
    longLen := id.toNat * 13
    longName := List.replicate 260 0 }

/-- A piece of a long name in `vfat_find_entry`, whose ordinal and checksum are right. -/
def findPiece (cp : Codepage) (dname : List UInt8) (vfatInit : UInt8) (st : FindState)
    (id : UInt8) (de : Slot) : ScanStep FindState (Option Slot) :=
  let id := id - 1
  let st := { st with vfatNext := id }
  match copyLongChunk st.longName id de with
  | none => .fault
  | some longName =>
    let st := { st with longName }
    if id = 0 then
      if longName.length < st.longLen then .fault
      else match vfatMatchLongname cp (cStr dname) (longName.take st.longLen) with
        | none => .fault
        | some false => .next (st.notMatch vfatInit)
        | some true => .next { st with longMatch := true }
    else .next st

/-- A round of the loop of `vfat_find_entry`. -/
def findStep (cp : Codepage) (dname mangledName : List UInt8) (vfatInit : UInt8) (st : FindState)
    (de : Slot) : ScanStep FindState (Option Slot) :=
  if de 0 = 0 then .stop none
  else if de.isLong then
    if de.id ≠ st.vfatNext then .next (st.notMatch vfatInit)
    else if de.id &&& 0x40 ≠ 0 then
      findPiece cp dname vfatInit (st.first (de.id &&& 0x3f) de) (de.id &&& 0x3f) de
    else if de.checksum ≠ st.vfatCsum then .next (st.notMatch vfatInit)
    else findPiece cp dname vfatInit st de.id de
  else if de.attr &&& attrVolumeId ≠ 0 then .next (st.notMatch vfatInit)
  else if st.longMatch then
    if getChecksum de.name = st.vfatCsum then .stop (some de) else .next (st.notMatch vfatInit)
  else if mangledName = de.name then .stop (some de)
  else .next (st.notMatch vfatInit)

/-- What `vfat_find_entry` sets of an inode. -/
structure Found where
  size : UInt32
  startCluster : UInt32
  start : Nat
  isDirectory : Bool
  deriving DecidableEq, Repr

/-- `first_sector`. The sum of the cluster number has the type `int`. -/
def firstSector (sbi : FatSbInfo) (de : Slot) : Nat :=
  let firstClust := de.startCluster.toNat +
    (if de.startCluster.toNat < 2 ^ 31 then 0 else 2 ^ 64 - 2 ^ 32)
  if firstClust = 0 then sbi.root
  else u64 (u64 (firstClust + 2 ^ 64 - 2) * 2 ^ sbi.clustShift + sbi.data)

/-- `found`. Nothing sets `root_cluster`. -/
def foundInode (sectorShift : Nat) (sbi : FatSbInfo) (rootCluster : UInt32) (de : Slot) : Found :=
  if de.startCluster = 0 then
    { size := if sbi.rootSize ≠ 0 then UInt32.ofNat (sbi.rootSize * 2 ^ sectorShift)
        else 0xffffffff
      startCluster := rootCluster
      start := sbi.root
      isDirectory := de.attr &&& attrDirectory ≠ 0 }
  else
    { size := de.fileSize
      startCluster := de.startCluster
      start := firstSector sbi de
      isDirectory := de.attr &&& attrDirectory ≠ 0 }

/-- The slots that `vfat_find_entry` reads until it has found one. -/
def vfatFindSlot (cp : Codepage) (dname : List UInt8) (slots : List Slot) :
    Option (Option Slot) :=
  let count := (dname.length + 12) / 13
  if count > 20 then some none
  else
    let count := UInt8.ofNat count ||| 0x40
    (mangleDosName cp (cStr dname)).bind fun mangledName =>
      scan (findStep cp dname mangledName count) (fun _ => none)
        ⟨count, 0, List.replicate 260 0, count.toNat * 13, false⟩ slots

/-- `vfat_find_entry`, on the slots of the sectors of a directory. There is no result when it
leaves a buffer. -/
def vfatFindEntry (cp : Codepage) (sectorShift : Nat) (sbi : FatSbInfo) (rootCluster : UInt32)
    (dname : List UInt8) (slots : List Slot) : Option (Option Found) :=
  (vfatFindSlot cp dname slots).map fun de => de.map (foundInode sectorShift sbi rootCluster)

/-! ## `vfat_readdir` -/

/-- The local variables of `vfat_readdir` that change, and the offset of the file. -/
structure ReadState where
  vfatNext : UInt8
  vfatCsum : UInt8
  longName : List UInt16
  /-- The string in `filename`. -/
  filename : List UInt8
  nameLen : Int
  longEntry : Bool
  offset : Nat

/-- The next slot. -/
def ReadState.advance (st : ReadState) : ReadState := { st with offset := u32 (st.offset + 32) }

/-- `invalid`. -/
def ReadState.invalid (st : ReadState) : ReadState := { st with longEntry := false }.advance

/-- A piece of a long name in `vfat_readdir`. When the name cannot be converted, `filename` is
not used. -/
def readPiece (cp : Codepage) (st : ReadState) (id : UInt8) (de : Slot) :
    ScanStep ReadState (Option (Slot × ReadState)) :=
  let id := id - 1
  let st := { st with vfatNext := id }
  match copyLongChunk st.longName id de with
  | none => .fault
  | some longName =>
    let st := { st with longName }
    if id = 0 then
      match vfatCvtLongname cp longName with
      | none => .fault
      | some none => .next { st with nameLen := -1 }.advance
      | some (some filename) =>
        .next { st with
          filename
          nameLen := filename.length
          longEntry := st.longEntry || (0 < filename.length && filename.length < 256) }.advance
    else .next st.advance

def lcaseBase : UInt8 := 8

def lcaseExt : UInt8 := 16

/-- A part of a short name: it ends at a blank. -/
def shortPart (cp : Codepage) (lower : Bool) (part : List UInt8) : List UInt8 :=
  (part.takeWhile (· ≠ 0x20)).map fun c => if lower then cp.lower c else c

/-- Use the shortname. -/
def shortName (cp : Codepage) (de : Slot) : List UInt8 :=
  shortPart cp (de.lcase &&& lcaseBase ≠ 0) (de.name.take 8) ++
    if de 8 ≠ 0x20 then
      0x2e :: shortPart cp (de.lcase &&& lcaseExt ≠ 0) (de.name.drop 8)
    else []

/-- A round of the loop of `vfat_readdir`. -/
def readStep (cp : Codepage) (st : ReadState) (de : Slot) :
    ScanStep ReadState (Option (Slot × ReadState)) :=
  if de 0 = 0 then .stop none
  else if de 0 = 0xe5 then .next st.invalid
  else if de.isLong then
    if de.id &&& 0x40 ≠ 0 then
      let st := { st with vfatCsum := de.checksum }
      let id := de.id &&& 0x3f
      if id ≥ 20 then .next st.invalid
      else readPiece cp { st with longName := List.replicate 261 0 } id de
    else if de.checksum ≠ st.vfatCsum ∨ de.id ≠ st.vfatNext then .next st.invalid
    else readPiece cp st de.id de
  else if de.attr &&& attrVolumeId ≠ 0 then .next st.invalid
  else if st.longEntry && getChecksum de.name = st.vfatCsum then .stop (some (de, st))
  else
    .stop (some (de, { st with
      filename := shortName cp de
      nameLen := (shortName cp de).length }))

/-- `struct dirent`, with the bytes that are stored in `d_name`. -/
structure Dirent where
  dIno : UInt32
  dOff : Nat
  dReclen : Nat
  isDirectory : Bool
  dName : List UInt8
  deriving DecidableEq, Repr

/-- `got`. The name starts at offset 12. -/
def gotDirent (de : Slot) (st : ReadState) : Dirent where
  dIno := de.startCluster
  dOff := st.offset
  dReclen := (12 + (st.nameLen + 1).toNat) % 2 ^ 16
  isDirectory := de.attr &&& attrDirectory ≠ 0
  dName := (cStr st.filename).take (st.nameLen + 1).toNat

/-- The state at the start of `vfat_readdir`. -/
def readInit (offset : Nat) : ReadState := ⟨0xff, 0xff, List.replicate 261 0, [], 0, false, offset⟩

/-- The slot that `vfat_readdir` returns, on the slots from the file's offset on. -/
def vfatReadSlot (cp : Codepage) (offset : Nat) (slots : List Slot) :
    Option (Option (Slot × ReadState)) :=
  scan (readStep cp) (fun _ => none) (readInit offset) slots

/-- `vfat_readdir`: the entry and the new offset, or `none` inside at the end of the directory.
There is no result when it leaves a buffer. -/
def vfatReaddir (cp : Codepage) (offset : Nat) (slots : List Slot) :
    Option (Option (Dirent × Nat)) :=
  (vfatReadSlot cp offset slots).map fun got =>
    got.map fun r => (gotDirent r.1 r.2, u32 (r.2.offset + 32))

end Liigboot.Fs.Fat
