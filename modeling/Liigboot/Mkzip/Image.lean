import Liigboot.Lib.Bytes

/-!
# Adding an archive to a boot image

`mkzip.py` puts the archive at the end of the image and adds a directory entry
for a file that covers the image's last clusters. It edits three places: the tail
of the image, the entries of the last clusters in the file allocation table, and
the first free entry of the root directory.
-/

namespace Liigboot.Mkzip

/-- How the script fails. -/
inductive Failure
  | valueError (args : String)
  | zeroDivision
  | overflow
  | index
  | struct
  deriving DecidableEq, Repr

/-- A byte of the image as a number. -/
def byteAt (data : List UInt8) (i : Nat) : Nat := (data.getD i 0).toNat

/-- `data[i] = v` on an `array.array('B')`. -/
def setByte (data : List UInt8) (i v : Nat) : Except Failure (List UInt8) :=
  if data.length ≤ i then .error .index
  else if 256 ≤ v then .error .overflow
  else .ok (data.set i (UInt8.ofNat v))

/-! ## The header -/

/-- The fields of the boot sector that the script looks at. -/
structure Header where
  sectorSize : Nat
  sectorsPerCluster : Nat
  reservedSectorCount : Nat
  fatCount : Nat
  rootdirEntryCount : Nat
  sectorCount : Nat
  sectorsPerFat : Nat
  sectorCount2 : Nat
  /-- `data[0x36 : 0x3c] == 'FAT16 '`. -/
  isFat16 : Bool
  deriving DecidableEq, Repr

/-- `'\xeb\x3c\x90'` -/
def jump : List UInt8 := [0xeb, 0x3c, 0x90]

/-- `'FAT12 '` -/
def fat12Name : List UInt8 := [0x46, 0x41, 0x54, 0x31, 0x32, 0x20]

/-- `'FAT16 '` -/
def fat16Name : List UInt8 := [0x46, 0x41, 0x54, 0x31, 0x36, 0x20]

/-- `dump_header` on `data[0xb : 0x24]`. -/
def dumpHeader (data : List UInt8) : Header where
  sectorSize := readLe data 0xb 2
  sectorsPerCluster := readLe data 0xd 1
  reservedSectorCount := readLe data 0xe 2
  fatCount := readLe data 0x10 1
  rootdirEntryCount := readLe data 0x11 2
  sectorCount := readLe data 0x13 2
  sectorsPerFat := readLe data 0x16 2
  sectorCount2 := readLe data 0x20 4
  isFat16 := slice data 0x36 6 == fat16Name

/-- `h['sector_count3']`. -/
def Header.sectorCount3 (h : Header) : Nat :=
  if h.sectorCount ≠ 0 then h.sectorCount else h.sectorCount2

/-- The sectors in front of the data area: reserved sectors, table, root directory. -/
def Header.dataStart (h : Header) : Nat :=
  h.reservedSectorCount + h.fatCount * h.sectorsPerFat + (h.rootdirEntryCount + 15) / 16

/-- `h['cluster_count']`, by floor division. -/
def Header.clusterCount (h : Header) : Int :=
  Int.fdiv
    (h.sectorCount3 - h.fatCount * h.sectorsPerFat - ((h.rootdirEntryCount + 15) / 16 : Nat) -
      h.reservedSectorCount)
    h.sectorsPerCluster

/-! ## The file allocation table -/

/-- `2 <= cluster_idx < h['cluster_count'] + 2`. -/
def Header.isCluster (h : Header) (i : Int) : Bool := 2 ≤ i && i < h.clusterCount + 2

/-- The offset of the byte pair, or of the three bytes, that hold an entry. -/
def Header.entryOfs (h : Header) (c : Nat) : Nat :=
  if h.isFat16 then h.reservedSectorCount * 512 + c * 2
  else h.reservedSectorCount * 512 + c / 2 * 3

/-- `fat_get`. -/
def fatGet (h : Header) (data : List UInt8) (i : Int) : Except Failure Nat :=
  if !h.isCluster i then .error (.valueError "")
  else
    let c := i.toNat
    let j := h.entryOfs c
    if h.isFat16 then
      if data.length < j + 2 then .error .struct else .ok (byteAt data j + byteAt data (j + 1) * 256)
    else if data.length < j + 3 then .error .struct
    else if c % 2 = 1 then .ok (byteAt data (j + 2) * 16 + byteAt data (j + 1) / 16)
    else .ok (byteAt data (j + 1) % 16 * 256 + byteAt data j)

/-- The number stored for `next_cluster_idx`, with -1 for the last cluster of a file. -/
def nextMark (h : Header) (next : Int) : Except Failure Nat :=
  if next = -1 then .ok (if h.isFat16 then 0xffff else 0xfff)
  else if !h.isCluster next then .error (.valueError (toString next))
  else .ok next.toNat

/-- `fat_set`. -/
def fatSet (h : Header) (data : List UInt8) (i next : Int) : Except Failure (List UInt8) :=
  if !h.isCluster i then .error (.valueError "")
  else
    match nextMark h next with
    | .error e => .error e
    | .ok v =>
      let c := i.toNat
      let j := h.entryOfs c
      if h.isFat16 then (setByte data (j + 1) (v / 256)).bind fun data => setByte data j (v % 256)
      else if c % 2 = 1 then
        (setByte data (j + 2) (v / 16)).bind fun data =>
          setByte data (j + 1) (byteAt data (j + 1) % 16 + v % 16 * 16)
      else
        (setByte data j (v % 256)).bind fun data =>
          setByte data (j + 1) (byteAt data (j + 1) / 16 * 16 ||| v / 256)

/-- Add the new file to the table: `count` clusters from `i` on, up to `last`. -/
def addChain (h : Header) (last : Int) : Nat → Int → List UInt8 → Except Failure (List UInt8)
  | 0, _, data => .ok data
  | count + 1, i, data =>
    match fatGet h data i with
    | .error e => .error e
    | .ok v =>
      if v ≠ 0 then .error (.valueError "Last few FAT entries already occupied.")
      else
        match fatSet h data i (if i = last then -1 else i + 1) with
        | .error e => .error e
        | .ok data => addChain h last count (i + 1) data

/-! ## The directory entry -/

/-- The fields of `time.gmtime` that the script uses. -/
structure Gmtime where
  year : Nat
  month : Nat
  day : Nat
  hour : Nat
  minute : Nat
  second : Nat

/-- The time and the date of the entry, in one 32-bit field. -/
def Gmtime.stamp (t : Gmtime) : Nat :=
  t.hour * 2 ^ 11 ||| t.minute * 2 ^ 5 ||| t.second / 2 ||| (t.year - 1980) * 2 ^ 25 |||
    t.month * 2 ^ 21 ||| t.day * 2 ^ 16

/-- `struct.pack` of a little-endian number of `n` bytes. -/
def leBytes : Nat → Nat → List UInt8
  | 0, _ => []
  | n + 1, v => UInt8.ofNat v :: leBytes n (v / 256)

/-- The bytes in front of the start cluster: name, attributes, case and times. -/
def direntryHead (t : Gmtime) : List UInt8 :=
  [0x49, 0x4e, 0x53, 0x54, 0x41, 0x4c, 0x4c, 0x20, 0x5a, 0x49, 0x50, 0x24, 0x18, 0x00, 0xf8, 0xbd,
    0x95, 0x4b, 0x95, 0x4b, 0x00, 0x00] ++ leBytes 4 t.stamp

/-- `direntry_new`. -/
def direntryNew (t : Gmtime) (startCluster : Int) (fileSize : Nat) :
    Except Failure (List UInt8) :=
  if t.year < 1980 then .error (.valueError "")
  else if 2 ^ 32 ≤ t.stamp ∨ startCluster < 0 ∨ 2 ^ 16 ≤ startCluster ∨ 2 ^ 32 ≤ fileSize then
    .error .struct
  else .ok (direntryHead t ++ leBytes 2 startCluster.toNat ++ leBytes 4 fileSize)

/-- What the script writes, with the offset of the new directory entry. -/
structure Edited where
  data : List UInt8
  direntryOfs : Nat
  deriving DecidableEq, Repr

/-- Put the entry into the first free one of the `count` entries from `i` on. -/
def addEntry (direntry : List UInt8) : Nat → Nat → List UInt8 → Except Failure Edited
  | 0, _, _ => .error (.valueError "No free root directory entry.")
  | count + 1, i, data =>
    match data[i]? with
    | none => .error .index
    | some b =>
      if b = 0xe5 ∨ b = 0 then .ok ⟨data.take i ++ direntry ++ data.drop (i + 32), i⟩
      else addEntry direntry count (i + 32) data

/-! ## The script -/

/-- `ziptmp_sector_count`. -/
def zipSectors (zipLen : Nat) : Nat := (zipLen + 511) / 512

/-- `ziptmp_cluster_count`. -/
def Header.zipClusters (h : Header) (zipLen : Nat) : Nat :=
  (zipSectors zipLen + h.sectorsPerCluster - 1) / h.sectorsPerCluster

/-- `direntry_start_cluster`. -/
def Header.startCluster (h : Header) (zipLen : Nat) : Int :=
  h.clusterCount + 2 - h.zipClusters zipLen

/-- The part under `if do_add_install_zip`, on an image that ends with an archive of `zipLen`
bytes. -/
def addInstallZip (data : List UInt8) (zipLen : Nat) (t : Gmtime) : Except Failure Edited :=
  let h := dumpHeader data
  if data.take 3 ≠ jump ∨ (slice data 0x36 6 ≠ fat12Name ∧ slice data 0x36 6 ≠ fat16Name) then
    .error (.valueError "Expected liigboot_bs.bin or liigresc_bs.bin FAT header.")
  else if h.sectorSize ≠ 512 ∨ h.fatCount ≠ 1 then
    .error (.valueError "Expected liigboot_bs.bin or liigresc_bs.bin FAT fields.")
  else if h.sectorsPerCluster = 0 then .error .zeroDivision
  else if h.clusterCount ≤ 0 then .error (.valueError (toString h.clusterCount))
  else
    let start := h.startCluster zipLen
    match addChain h (start + h.zipClusters zipLen - 1) (h.zipClusters zipLen) start data with
    | .error e => .error e
    | .ok data =>
      match direntryNew t start (zipSectors zipLen * 512) with
      | .error e => .error e
      | .ok direntry =>
        addEntry direntry h.rootdirEntryCount
          ((h.reservedSectorCount + h.fatCount * h.sectorsPerFat) * 512) data

/-- `img_data[:-n]` -/
def headOf (img : List UInt8) (n : Nat) : List UInt8 :=
  if n = 0 then [] else img.take (img.length - n)

/-- `img_data[-n:]` -/
def tailOf (img : List UInt8) (n : Nat) : List UInt8 :=
  if n = 0 then img else img.drop (img.length - n)

/-- The rewritten image, from the image and the archive. -/
def mkzip (img zip : List UInt8) (t : Gmtime) : Except Failure Edited :=
  if zip.length > img.length ∨ (tailOf img zip.length).any (· ≠ 0) then
    .error (.valueError "No room for ziptmp_data in the image.")
  else addInstallZip (headOf img zip.length ++ zip) zip.length t

/-! ## Reading the file back -/

/-- The entry of a cluster in the table of an image. -/
def fatEntry (h : Header) (data : List UInt8) (c : Nat) : Nat :=
  if h.isFat16 then readLe data (h.reservedSectorCount * 512 + 2 * c) 2
  else if c % 2 = 1 then readLe data (h.reservedSectorCount * 512 + (c + c / 2)) 2 / 16
  else readLe data (h.reservedSectorCount * 512 + (c + c / 2)) 2 % 0x1000

/-- The bytes of `n` clusters of a chain, from cluster `c` on. -/
def readChain (h : Header) (data : List UInt8) : Nat → Nat → List UInt8
  | 0, _ => []
  | n + 1, c =>
    slice data ((h.dataStart + (c - 2) * h.sectorsPerCluster) * 512) (h.sectorsPerCluster * 512) ++
      readChain h data n (fatEntry h data c)

/-- The file that a directory entry of an image describes. -/
def readFile (data : List UInt8) (direntryOfs : Nat) : List UInt8 :=
  let h := dumpHeader data
  let size := readLe data (direntryOfs + 28) 4
  let clusterBytes := h.sectorsPerCluster * 512
  (readChain h data ((size + clusterBytes - 1) / clusterBytes)
    (readLe data (direntryOfs + 26) 2)).take size

/-- The file of the new entry ends with the archive, behind fewer than 512 other bytes. -/
def Intact (e : Edited) (zip : List UInt8) : Prop :=
  ∃ front, readFile e.data e.direntryOfs = front ++ zip ∧ front.length < 512

end Liigboot.Mkzip
