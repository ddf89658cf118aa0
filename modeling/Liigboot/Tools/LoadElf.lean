import Liigboot.Lib.Splice
import Liigboot.Tools.Elf32
import Mathlib.Order.Bounds.Basic

/-!
# The raw image of an executable

`load_elf` of `elftool.py` lays the loadable segments of an executable out by their physical
addresses, as `objcopy -O binary` does. The image begins at the lowest one, but it is made as long
as if it began at address zero.
-/

namespace Liigboot.Tools

/-! ## The headers -/

/-- `PT_LOAD` -/
def ptLoad : Nat := 1

/-- `f.seek(off)` and `f.read(n)`, refused when the file ends before. -/
def readExactly (file : List UInt8) (off n : Nat) : Except Failure (List UInt8) :=
  if (slice file off n).length ≠ n then .error (.valueError "") else .ok (slice file off n)

/-- `ehdata.startswith('\x7fELF\1\1\1')` -/
def Ehdr.isElf32 (h : Ehdr) : Bool :=
  h.eiMag == elfMag && h.eiClass == 1 && h.eiData == 1 && h.eiVersion == 1

/-- The checks on the ELF header. -/
def checkEhdr (h : Ehdr) : Except Failure Unit :=
  if !h.isElf32 then .error (.valueError "Not a 32-bit LSB-first ELF v1 file.")
  else if h.eOsabi ∉ [0, 3] then .error (.valueError "")
  else if h.eAbiversion ≠ 0 then .error (.valueError "")
  else if h.eType ≠ 2 then .error (.valueError "Expected an executable file.")
  else if h.eMachine ≠ 3 then .error (.valueError "Expected i386.")
  else if h.eVersion ≠ 1 then .error (.valueError "")
  else if h.eEhsize ≠ 52 then .error (.valueError "")
  else if h.ePhentsize ≠ 32 then .error (.valueError "")
  else if h.eFlags ≠ 0 then .error (.valueError "")
  else if h.eShentsize ≠ 40 then .error (.valueError "")
  else if h.ePhnum >>> 7 ≠ 0 then .error (.valueError "Too many program header entries.")
  else .ok ()

/-- The entries of the program header that are kept, `ph`. -/
def loadSegments (phdata : List UInt8) (ePhnum : Nat) : List (Phdr Nat) :=
  ((List.range ePhnum).map fun i => Phdr.parse phdata (32 * i)).filter (·.pType = ptLoad)

/-! ## The raw data -/

/-- `start_addrs` -/
def startAddrs (ph : List (Phdr Nat)) : List Nat :=
  (ph.filter (0 < ·.pFilesz)).map (·.pPaddr)

/-- `end_addrs` -/
def endAddrs (ph : List (Phdr Nat)) : List Nat :=
  (ph.filter (0 < ·.pFilesz)).map fun phe => phe.pPaddr + phe.pFilesz

/-- The loop that copies the segments to `raw_data`. -/
def copySegments (file : List UInt8) (loadAddr : Nat) :
    List (Phdr Nat) → List UInt8 → Except Failure (List UInt8)
  | [], rawData => .ok rawData
  | phe :: ph, rawData =>
    if 0 < phe.pFilesz then
      match readExactly file phe.pOffset phe.pFilesz with
      | .error e => .error e
      | .ok data => copySegments file loadAddr ph (blit rawData (phe.pPaddr - loadAddr) data)
    else copySegments file loadAddr ph rawData

/-- `raw_data`. The size is the highest end address, whatever the load address is. -/
def rawData (file : List UInt8) (ph : List (Phdr Nat)) : Except Failure (List UInt8) :=
  match (startAddrs ph).min?, (endAddrs ph).max? with
  | some loadAddr, some size => copySegments file loadAddr ph (List.replicate size 0)
  | _, _ => .error (.valueError "min() arg is an empty sequence")

/-! ## The sections -/

/-- `SECTION_TYPES` -/
def sectionTypes : List String :=
  ["NULL", "PROGBITS", "SYMTAB", "STRTAB", "RELA", "HASH", "DYNAMIC", "NOTE", "NOBITS", "REL",
    "SHLIB", "DYNSYM", "INIT_ARRAY", "FINI_ARRAY", "PREINIT_ARRAY", "GROUP", "SYMTAB_SHNDX"]

/-- A section header, with the name of its type. -/
structure Shdr where
  shName : List UInt8
  shType : Nat
  shFlags : Nat
  shAddr : Nat
  shOffset : Nat
  shSize : Nat
  shLink : Nat
  shInfo : Nat
  shAddralign : Nat
  shEntsize : Nat
  shTypeName : String
  deriving DecidableEq, Repr

/-- `str_data.find('\0', start)` -/
def findNul (strData : List UInt8) (start : Nat) : Option Nat :=
  if strData.length < start then none
  else ((strData.drop start).findIdx? (· = 0)).map (start + ·)

/-- One entry of the section header. A name that is not at offset zero must not be empty. -/
def parseShdr (shdata strData : List UInt8) (sho : Nat) : Except Failure Shdr :=
  let shName := readLe shdata sho 4
  let shType := readLe shdata (sho + 4) 4
  match findNul strData shName with
  | none => .error (.valueError (toString shName))
  | some j =>
    if j = shName ∧ shName ≠ 0 then .error (.valueError (toString shName))
    else match sectionTypes[shType]? with
      | none => .error .index
      | some shTypeName => .ok
        { shName := slice strData shName (j - shName)
          shType := shType
          shFlags := readLe shdata (sho + 8) 4
          shAddr := readLe shdata (sho + 12) 4
          shOffset := readLe shdata (sho + 16) 4
          shSize := readLe shdata (sho + 20) 4
          shLink := readLe shdata (sho + 24) 4
          shInfo := readLe shdata (sho + 28) 4
          shAddralign := readLe shdata (sho + 32) 4
          shEntsize := readLe shdata (sho + 36) 4
          shTypeName := shTypeName }

/-- The section header and the names of the sections. -/
def loadSections (file : List UInt8) (h : Ehdr) : Except Failure (List Shdr) :=
  match readExactly file h.eShoff (40 * h.eShnum) with
  | .error e => .error e
  | .ok shdata =>
    let shi := h.eShstrndx
    if shi = 0 ∨ shdata.length < shi * 40 + 40 then .error (.valueError "")
    else match readExactly file (readLe shdata (shi * 40 + 16) 4)
        (readLe shdata (shi * 40 + 20) 4) with
      | .error e => .error e
      | .ok strData =>
        (List.range h.eShnum).mapM fun i => parseShdr shdata strData (40 * i)

/-! ## The whole function -/

/-- What `load_elf` returns. -/
structure Elf where
  eEntry : Nat
  ph : List (Phdr Nat)
  sh : List Shdr
  rawData : Option (List UInt8)
  deriving DecidableEq, Repr

/-- `raw_data`, when it is needed. -/
def rawDataIf (file : List UInt8) (ph : List (Phdr Nat)) :
    Bool → Except Failure (Option (List UInt8))
  | false => .ok none
  | true => (rawData file ph).map some

/-- `load_elf` -/
def loadElf (file : List UInt8) (needRaw : Bool) : Except Failure Elf := do
  let ehdata ← readExactly file 0 52
  let h := Ehdr.parse ehdata
  checkEhdr h
  let phdata ← readExactly file h.ePhoff (32 * h.ePhnum)
  let ph := loadSegments phdata h.ePhnum
  let raw ← rawDataIf file ph needRaw
  let sh ← loadSections file h
  return ⟨h.eEntry, ph, sh, raw⟩

/-! ## What is copied -/

variable {file : List UInt8} {ph : List (Phdr Nat)} {raw out : List UInt8} {elf : Elf}
  {loadAddr : Nat}

/-- The non-empty segments as pieces of the raw data. -/
def segmentPieces (file : List UInt8) (loadAddr : Nat) (ph : List (Phdr Nat)) :
    List (Nat × List UInt8) :=
  (ph.filter (0 < ·.pFilesz)).map fun phe =>
    (phe.pPaddr - loadAddr, slice file phe.pOffset phe.pFilesz)

theorem readExactly_ok {off n : Nat} {data : List UInt8} (h : readExactly file off n = .ok data) :
    data = slice file off n ∧ data.length = n := by
  unfold readExactly at h
  split at h
  · cases h
  · next hlen =>
    cases h
    exact ⟨rfl, not_not.mp hlen⟩

/-- The loop reads every non-empty segment in full, and stores it. -/
theorem copySegments_ok (h : copySegments file loadAddr ph raw = .ok out) :
    out = splices raw (segmentPieces file loadAddr ph) ∧
      ∀ phe ∈ ph, 0 < phe.pFilesz → (slice file phe.pOffset phe.pFilesz).length = phe.pFilesz := by
  induction ph generalizing raw with
  | nil =>
    cases h
    exact ⟨rfl, fun phe hphe => by cases hphe⟩
  | cons p ph ih =>
    rw [copySegments] at h
    by_cases hsize : 0 < p.pFilesz
    · rw [if_pos hsize] at h
      cases hread : readExactly file p.pOffset p.pFilesz with
      | error e =>
        simp only [hread] at h
        cases h
      | ok data =>
        simp only [hread] at h
        obtain ⟨hout, hlen⟩ := ih h
        obtain ⟨rfl, hdata⟩ := readExactly_ok hread
        refine ⟨?_, fun phe hphe hpos => ?_⟩
        · rw [hout, segmentPieces, segmentPieces, List.filter_cons_of_pos (by simpa using hsize),
            List.map_cons, splices_cons]
        · rcases List.mem_cons.mp hphe with rfl | hphe
          · exact hdata
          · exact hlen phe hphe hpos
    · rw [if_neg hsize] at h
      obtain ⟨hout, hlen⟩ := ih h
      refine ⟨?_, fun phe hphe hpos => ?_⟩
      · rw [hout, segmentPieces, segmentPieces, List.filter_cons_of_neg (by simpa using hsize)]
      · rcases List.mem_cons.mp hphe with rfl | hphe
        · exact absurd hpos hsize
        · exact hlen phe hphe hpos

/-- The lowest address of a non-empty segment. -/
def Lowest (ph : List (Phdr Nat)) : Nat → Prop :=
  IsLeast {a | ∃ phe ∈ ph, 0 < phe.pFilesz ∧ phe.pPaddr = a}

/-- The highest end of a non-empty segment. -/
def Highest (ph : List (Phdr Nat)) : Nat → Prop :=
  IsGreatest {a | ∃ phe ∈ ph, 0 < phe.pFilesz ∧ phe.pPaddr + phe.pFilesz = a}

private theorem mem_startAddrs {a : Nat} :
    a ∈ startAddrs ph ↔ ∃ phe ∈ ph, 0 < phe.pFilesz ∧ phe.pPaddr = a := by
  simp only [startAddrs, List.mem_map, List.mem_filter, decide_eq_true_eq, and_assoc]

private theorem mem_endAddrs {a : Nat} :
    a ∈ endAddrs ph ↔ ∃ phe ∈ ph, 0 < phe.pFilesz ∧ phe.pPaddr + phe.pFilesz = a := by
  simp only [endAddrs, List.mem_map, List.mem_filter, decide_eq_true_eq, and_assoc]

theorem rawData_ok (h : rawData file ph = .ok out) :
    ∃ loadAddr size, Lowest ph loadAddr ∧ Highest ph size ∧
      copySegments file loadAddr ph (List.replicate size 0) = .ok out := by
  unfold rawData at h
  split at h
  · next loadAddr size hmin hmax =>
    obtain ⟨hlo, hle⟩ := List.min?_eq_some_iff.mp hmin
    obtain ⟨hhi, hge⟩ := List.max?_eq_some_iff.mp hmax
    exact ⟨loadAddr, size, ⟨mem_startAddrs.mp hlo, fun a ha => hle a (mem_startAddrs.mpr ha)⟩,
      ⟨mem_endAddrs.mp hhi, fun a ha => hge a (mem_endAddrs.mpr ha)⟩, h⟩
  · cases h

/-! ## The image -/

/-- The physical addresses of a segment. -/
def Phdr.Covers (phe : Phdr Nat) (a : Nat) : Prop :=
  phe.pPaddr ≤ a ∧ a < phe.pPaddr + phe.pFilesz

/-- No two segments share an address. -/
def NoOverlap (ph : List (Phdr Nat)) : Prop :=
  ph.Pairwise fun p q => ∀ a, ¬ (p.Covers a ∧ q.Covers a)

/-- The segments are laid out from the load address on, with zeros between them. -/
structure LaidOut (file : List UInt8) (ph : List (Phdr Nat)) (loadAddr : Nat)
    (raw : List UInt8) : Prop where
  placed : ∀ phe ∈ ph, ∀ a, phe.Covers a →
    raw[a - loadAddr]? = file[phe.pOffset + (a - phe.pPaddr)]?
  gap : ∀ a, loadAddr ≤ a → a - loadAddr < raw.length → (∀ phe ∈ ph, ¬ phe.Covers a) →
    raw[a - loadAddr]? = some 0

/-- The flat image, as `objcopy -O binary` makes it: from the lowest address to the highest end. -/
structure FlatImage (file : List UInt8) (ph : List (Phdr Nat)) (loadAddr : Nat)
    (raw : List UInt8) : Prop extends LaidOut file ph loadAddr raw where
  lowest : Lowest ph loadAddr
  highest : Highest ph (loadAddr + raw.length)

/-- A piece lies over the index of an address if and only if its segment covers the address. -/
private theorem overPiece_iff {phe : Phdr Nat} {a : Nat} (hlow : loadAddr ≤ phe.pPaddr)
    (hlen : (slice file phe.pOffset phe.pFilesz).length = phe.pFilesz) (ha : loadAddr ≤ a) :
    OverPiece (phe.pPaddr - loadAddr, slice file phe.pOffset phe.pFilesz) (a - loadAddr) ↔
      phe.Covers a := by
  rw [OverPiece, Phdr.Covers]
  simp only [hlen]
  omega

/-- Whatever the load address is, the segments are laid out from it on, and the image is as long
as the highest end says. -/
theorem copySegments_laidOut {size : Nat} (hlow : Lowest ph loadAddr) (hhigh : Highest ph size)
    (hapart : NoOverlap ph)
    (h : copySegments file loadAddr ph (List.replicate size 0) = .ok raw) :
    raw.length = size ∧ LaidOut file ph loadAddr raw := by
  obtain ⟨hraw, hread⟩ := copySegments_ok h
  have hmem : ∀ phe ∈ ph.filter (0 < ·.pFilesz), phe ∈ ph ∧ 0 < phe.pFilesz := fun phe hphe => by
    obtain ⟨hin, hpos⟩ := List.mem_filter.mp hphe
    exact ⟨hin, of_decide_eq_true hpos⟩
  have hstart : ∀ phe ∈ ph, 0 < phe.pFilesz → loadAddr ≤ phe.pPaddr := fun phe hphe hpos =>
    hlow.2 ⟨phe, hphe, hpos, rfl⟩
  have hinside : PiecesIn (List.replicate size (0 : UInt8)).length
      (segmentPieces file loadAddr ph) := by
    intro p hp
    obtain ⟨phe, hphe, rfl⟩ := List.mem_map.mp hp
    obtain ⟨hin, hpos⟩ := hmem phe hphe
    have hend : phe.pPaddr + phe.pFilesz ≤ size := hhigh.2 ⟨phe, hin, hpos, rfl⟩
    rw [List.length_replicate, hread phe hin hpos]
    omega
  have hpieces : (segmentPieces file loadAddr ph).Pairwise fun p q =>
      ∀ i, ¬ (OverPiece p i ∧ OverPiece q i) := by
    rw [segmentPieces, List.pairwise_map]
    refine (hapart.filter _).imp_of_mem fun {p q} hp hq hpq i hi => ?_
    obtain ⟨hpin, hppos⟩ := hmem p hp
    obtain ⟨hqin, hqpos⟩ := hmem q hq
    have hover := hi
    rw [← Nat.add_sub_cancel i loadAddr] at hover
    exact hpq (i + loadAddr)
      ⟨(overPiece_iff (hstart p hpin hppos) (hread p hpin hppos) (Nat.le_add_left _ _)).mp hover.1,
        (overPiece_iff (hstart q hqin hqpos) (hread q hqin hqpos) (Nat.le_add_left _ _)).mp hover.2⟩
  have hlength : raw.length = size := by
    rw [hraw, length_splices hinside, List.length_replicate]
  refine ⟨hlength, ⟨fun phe hphe a ha => ?_, fun a ha hin hgap => ?_⟩⟩
  · have hpos : 0 < phe.pFilesz := by
      obtain ⟨h1, h2⟩ := ha
      omega
    have hle := hstart phe hphe hpos
    have hpiece : (phe.pPaddr - loadAddr, slice file phe.pOffset phe.pFilesz) ∈
        segmentPieces file loadAddr ph :=
      List.mem_map.mpr ⟨phe, List.mem_filter.mpr ⟨hphe, decide_eq_true hpos⟩, rfl⟩
    have hover := (overPiece_iff hle (hread phe hphe hpos) (hle.trans ha.1)).mpr ha
    have hback : a - loadAddr - (phe.pPaddr - loadAddr) = a - phe.pPaddr := by omega
    rw [hraw, getElem?_splices_of_over hinside hpieces hpiece hover, hback, getElem?_slice,
      if_pos (by have := ha.2; omega)]
  · rw [hlength] at hin
    rw [hraw, getElem?_splices_of_not_over hinside fun p hp hover => ?_, List.getElem?_replicate,
      if_pos hin]
    obtain ⟨phe, hphe, rfl⟩ := List.mem_map.mp hp
    obtain ⟨hmem', hpos⟩ := hmem phe hphe
    exact hgap phe hmem'
      ((overPiece_iff (hstart phe hmem' hpos) (hread phe hmem' hpos) ha).mp hover)

/-- What is laid out up to the highest end is the flat image, and as many zeros behind it as the
load address says. -/
theorem LaidOut.flatImage (h : LaidOut file ph loadAddr raw) (hlow : Lowest ph loadAddr)
    (hhigh : Highest ph raw.length) :
    FlatImage file ph loadAddr (raw.take (raw.length - loadAddr)) ∧
      raw.drop (raw.length - loadAddr) = List.replicate loadAddr 0 := by
  have hle : loadAddr ≤ raw.length := by
    obtain ⟨phe, hphe, hpos, hend⟩ := hhigh.1
    have hstart : loadAddr ≤ phe.pPaddr := hlow.2 ⟨phe, hphe, hpos, rfl⟩
    omega
  have hcover : ∀ phe ∈ ph, ∀ a, phe.Covers a → loadAddr ≤ a ∧ a < raw.length := by
    intro phe hphe a ⟨hlo, hhi⟩
    have hpos : 0 < phe.pFilesz := by omega
    have hstart : loadAddr ≤ phe.pPaddr := hlow.2 ⟨phe, hphe, hpos, rfl⟩
    have hend : phe.pPaddr + phe.pFilesz ≤ raw.length := hhigh.2 ⟨phe, hphe, hpos, rfl⟩
    omega
  have hlength : (raw.take (raw.length - loadAddr)).length = raw.length - loadAddr := by
    rw [List.length_take, Nat.min_eq_left (Nat.sub_le _ _)]
  refine ⟨⟨⟨fun phe hphe a ha => ?_, fun a ha hin hgap => ?_⟩, hlow, ?_⟩, ?_⟩
  · obtain ⟨hlo, hhi⟩ := hcover phe hphe a ha
    rw [List.getElem?_take, if_pos (by omega), h.placed phe hphe a ha]
  · rw [hlength] at hin
    rw [List.getElem?_take, if_pos hin, h.gap a ha (by omega) hgap]
  · rwa [hlength, Nat.add_sub_cancel' hle]
  · refine List.ext_getElem? fun i => ?_
    rw [List.getElem?_drop, List.getElem?_replicate]
    by_cases hi : i < loadAddr
    · have hindex : raw.length - loadAddr + i = raw.length + i - loadAddr := by omega
      rw [if_pos hi, hindex]
      refine h.gap _ (by omega) (by omega) fun phe hphe ha => ?_
      have hhi := (hcover phe hphe _ ha).2
      omega
    · rw [if_neg hi, List.getElem?_eq_none (by omega)]

/-! ## The whole function -/

/-- The loadable segments of a file. -/
def segments (file : List UInt8) : List (Phdr Nat) :=
  let h := Ehdr.parse (slice file 0 52)
  loadSegments (slice file h.ePhoff (32 * h.ePhnum)) h.ePhnum

theorem loadElf_ok (h : loadElf file true = .ok elf) :
    elf.ph = segments file ∧ ∃ raw, rawData file (segments file) = .ok raw ∧
      elf.rawData = some raw := by
  obtain ⟨ehdata, he, h⟩ := bind_eq_ok h
  obtain ⟨-, -, h⟩ := bind_eq_ok h
  obtain ⟨phdata, hp, h⟩ := bind_eq_ok h
  obtain ⟨raw, hraw, h⟩ := bind_eq_ok h
  obtain ⟨sh, -, h⟩ := bind_eq_ok h
  obtain ⟨rfl, -⟩ := readExactly_ok he
  obtain ⟨rfl, -⟩ := readExactly_ok hp
  cases h
  refine ⟨rfl, ?_⟩
  change (rawData file (segments file)).map some = .ok raw at hraw
  cases hd : rawData file (segments file) with
  | error e =>
    rw [hd] at hraw
    cases hraw
  | ok data =>
    rw [hd] at hraw
    cases hraw
    exact ⟨data, rfl, rfl⟩

/-- The raw data that was returned is the flat image. -/
def IsFlat (file : List UInt8) (elf : Elf) : Prop :=
  ∃ raw loadAddr, elf.rawData = some raw ∧ FlatImage file (segments file) loadAddr raw

/-- For every executable whose segments do not overlap, the raw data is the flat image with as many
zeros behind it as the load address says. -/
theorem loadElf_image (h : loadElf file true = .ok elf) (hapart : NoOverlap (segments file)) :
    ∃ image loadAddr, elf.rawData = some (image ++ List.replicate loadAddr 0) ∧
      FlatImage file (segments file) loadAddr image := by
  obtain ⟨-, raw, hraw, helf⟩ := loadElf_ok h
  obtain ⟨loadAddr, size, hlow, hhigh, hcopy⟩ := rawData_ok hraw
  obtain ⟨rfl, hlaid⟩ := copySegments_laidOut hlow hhigh hapart hcopy
  obtain ⟨hflat, hrest⟩ := hlaid.flatImage hlow hhigh
  refine ⟨raw.take (raw.length - loadAddr), loadAddr, ?_, hflat⟩
  rw [helf, ← hrest, List.take_append_drop]

/-- For every executable whose segments do not overlap, the raw data is the flat image if and only
if a non-empty segment is at address zero. -/
theorem loadElf_flat_iff (h : loadElf file true = .ok elf) (hapart : NoOverlap (segments file)) :
    IsFlat file elf ↔ ∃ phe ∈ segments file, 0 < phe.pFilesz ∧ phe.pPaddr = 0 := by
  obtain ⟨image, loadAddr, helf, himage⟩ := loadElf_image h hapart
  constructor
  · rintro ⟨raw, start, hraw, hflat⟩
    obtain rfl := Option.some.inj (helf.symm.trans hraw)
    obtain rfl := himage.lowest.unique hflat.lowest
    have hend := himage.highest.unique hflat.highest
    rw [List.length_append, List.length_replicate] at hend
    obtain rfl : loadAddr = 0 := by omega
    exact himage.lowest.1
  · intro hzero
    obtain rfl : loadAddr = 0 := Nat.le_zero.mp (himage.lowest.2 hzero)
    rw [List.replicate_zero, List.append_nil] at helf
    exact ⟨image, 0, helf, himage⟩

/-- An executable with a segment of one byte at a physical address, and the two sections that it
must have. -/
def oneByteElf (pPaddr : UInt8) : List UInt8 :=
  elfMag ++ [1, 1, 1, 0, 0, 0, 0, 0, 0, 0, 0, 0, 2, 0, 3, 0, 1, 0, 0, 0, 0, 0, 0, 0, 0x34, 0, 0, 0,
    0x56, 0, 0, 0, 0, 0, 0, 0, 0x34, 0, 0x20, 0, 1, 0, 0x28, 0, 2, 0, 1, 0] ++
  [1, 0, 0, 0, 0x54, 0, 0, 0, 0, 0, 0, 0, pPaddr, 0, 0, 0, 1, 0, 0, 0, 1, 0, 0, 0, 0, 0, 0, 0,
    0, 0, 0, 0] ++ [0x41, 0] ++ List.replicate 40 0 ++
  [0, 0, 0, 0, 3, 0, 0, 0, 0, 0, 0, 0, 0, 0, 0, 0, 0x55, 0, 0, 0, 1, 0, 0, 0] ++
  List.replicate 16 0

/-- What is returned for it. -/
def oneByteLoaded (pPaddr : Nat) (rawData : List UInt8) : Elf where
  eEntry := 0
  ph := [⟨1, 0x54, 0, pPaddr, 1, 1, 0, 0⟩]
  sh := [⟨[], 0, 0, 0, 0, 0, 0, 0, 0, 0, "NULL"⟩, ⟨[], 3, 0, 0, 0x55, 1, 0, 0, 0, 0, "STRTAB"⟩]
  rawData := some rawData

theorem loadElf_oneByte : loadElf (oneByteElf 0) true = .ok (oneByteLoaded 0 [0x41]) := by
  decide +kernel

/-- A single segment at address zero. -/
theorem loadElf_flat_iff_zero : IsFlat (oneByteElf 0) (oneByteLoaded 0 [0x41]) ↔
    ∃ phe ∈ segments (oneByteElf 0), 0 < phe.pFilesz ∧ phe.pPaddr = 0 :=
  loadElf_flat_iff loadElf_oneByte (by
    rw [← (loadElf_ok loadElf_oneByte).1]
    exact List.pairwise_singleton _ _)

/-- The image of a single byte at address one has two bytes. -/
theorem not_loadElf_flat : ¬ ∀ (file : List UInt8) (elf : Elf), loadElf file true = .ok elf →
    NoOverlap (segments file) → IsFlat file elf := by
  intro hall
  have hload : loadElf (oneByteElf 1) true = .ok (oneByteLoaded 1 [0x41, 0]) := by decide +kernel
  have hseg := (loadElf_ok hload).1
  obtain ⟨raw, loadAddr, hraw, hflat⟩ := hall _ _ hload (by
    rw [← hseg]
    exact List.pairwise_singleton _ _)
  obtain rfl : [0x41, 0] = raw := Option.some.inj hraw
  rw [← hseg] at hflat
  obtain ⟨phe, hphe, -, hlo⟩ := hflat.lowest.1
  obtain ⟨phe', hphe', -, hhi⟩ := hflat.highest.1
  obtain rfl := List.mem_singleton.mp hphe
  obtain rfl := List.mem_singleton.mp hphe'
  simp only [List.length_cons, List.length_nil] at hlo hhi
  omega

end Liigboot.Tools
