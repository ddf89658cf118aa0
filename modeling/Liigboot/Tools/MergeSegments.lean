import Liigboot.Lib.Append
import Liigboot.Lib.Lines
import Liigboot.Tools.LoadElf

/-!
# Merging the segments of an executable

Before it compresses an executable, `compress_elftiny32` of `upxbc` appends the segments to one
flat text, in the order of the table and with zeros between them. The text is loaded behind the
headers of the first segment. A segment that belongs in front of the end of the text so far is
appended all the same, out of place together with all that follows.
-/

namespace Liigboot.Tools

/-! ## The source -/

/-- `'0x%x' % n` -/
def hexText (n : Nat) : String := "0x" ++ String.ofList (Nat.toDigits 16 n)

/-- `phdr['p_type'] in (2, 3, 6)`: `PT_DYNAMIC`, `PT_INTERP`, `PT_PHDR` -/
def isDynamic (pType : Nat) : Bool := pType ∈ [2, 3, 6]

/-- `0x34 + 0x20 * ehdr['e_phnum']` -/
def tinyHeaderSize (h : Ehdr) : Nat := 0x34 + 0x20 * h.ePhnum

/-- The checks on the ELF header. -/
def checkTiny (h : Ehdr) : Except Failure Unit :=
  if h.eiMag ≠ elfMag then .error (.valueError "")
  else if h.eiClass ≠ 1 then .error (.valueError "")
  else if h.eiData ≠ 1 then .error (.valueError "")
  else if h.eiVersion ≠ 1 then .error (.valueError "")
  else if h.eOsabi ∉ [0, 3] then .error (.valueError "")
  else if h.eAbiversion ≠ 0 then .error (.valueError "")
  else if h.eType ≠ 2 then .error (.valueError "Expected an executable file.")
  else if h.eMachine ≠ 3 then .error (.valueError "Expected i386.")
  else if h.eVersion ≠ 1 then .error (.valueError "")
  else if h.eEhsize ≠ 0x34 then .error (.valueError "")
  else if h.ePhentsize ≠ 0x20 then .error (.valueError "")
  else if h.eFlags ≠ 0 then .error (.valueError "")
  else if h.eShentsize ∉ [0, 0x28] then .error (.valueError "")
  else if h.ePhnum = 0 then
    .error (.valueError ("Bad number of program header entries: " ++ toString h.ePhnum))
  else if h.ePhoff ≠ 0x34 then .error (.valueError "")
  else if 0x1000 ≤ tinyHeaderSize h then .error (.valueError "")
  else .ok ()

/-- The first program header. A segment right behind the headers is extended to them. -/
def fixFirst (headerSize : Nat) (phdr : Phdr Nat) : Except Failure (Phdr Nat) :=
  if phdr.pOffset ≠ 0 then
    if phdr.pOffset = headerSize ∧ headerSize ≤ phdr.pVaddr then
      .ok { phdr with
        pOffset := 0
        pVaddr := phdr.pVaddr - headerSize
        pPaddr := phdr.pPaddr - headerSize
        pFilesz := phdr.pFilesz + headerSize
        pMemsz := phdr.pMemsz + headerSize }
    else .error (.valueError ("p_offset too large: " ++ hexText phdr.pOffset))
  else .ok phdr

/-- The checks on the first program header, in front of `fixFirst`. -/
def checkFirst (phdr : Phdr Nat) : Except Failure Unit :=
  if isDynamic phdr.pType then
    .error (.valueError "Dynamically linked executable not supported.")
  else if phdr.pType ≠ ptLoad then .error (.valueError "PT_LOAD expected first.")
  else if phdr.pVaddr ≠ phdr.pPaddr then .error (.valueError "")
  else .ok ()

/-- The checks on the first program header, behind `fixFirst`. -/
def checkFixed (udata : List UInt8) (headerSize eEntry : Nat) (phdr : Phdr Nat) :
    Except Failure Unit :=
  -- `p_flags & ~7`
  if phdr.pFlags >>> 3 ≠ 0 then .error (.valueError "")
  else if udata.length < phdr.pFilesz then .error (.valueError "")
  else if phdr.pFilesz < headerSize then .error (.valueError "")
  else if phdr.pMemsz < phdr.pFilesz then .error (.valueError "")
  else if ¬ ((headerSize : Int) ≤ (eEntry : Int) - phdr.pVaddr ∧
      (eEntry : Int) - phdr.pVaddr < phdr.pFilesz) then .error (.valueError "")
  else if phdr.pVaddr % 0x1000 ≠ 0 then
    .error (.valueError "First section not aligned to page boundary.")
  else .ok ()

/-- The variables of the loop over the program headers: `text_data`, a list of strings, its size,
`extra_phdrs` and `last_memsz`. -/
structure Merge where
  textData : List (List UInt8)
  textDataSize : Nat
  extraPhdrs : List (List UInt8)
  lastMemsz : Nat

/-- The text of a segment, appended behind a gap. -/
def Merge.append (udata : List UInt8) (headerSize : Nat) (phdr phdri : Phdr Nat) (m : Merge) :
    Except Failure Merge :=
  if 0 < phdri.pFilesz then
    let padSize : Int :=
      phdri.pVaddr - ((phdr.pVaddr : Int) + headerSize + m.textDataSize)
    if 0x10000 ≤ padSize then
      .error (.valueError ("Unusually parge pad_size: " ++ hexText padSize.toNat))
    else
      let pad := List.replicate padSize.toNat 0
      let text := slice udata phdri.pOffset phdri.pFilesz
      .ok { m with
        textData := m.textData ++ [pad, text]
        textDataSize := m.textDataSize + pad.length + text.length }
  else .ok m

/-- One round of the loop, with the string of the program header. -/
def mergeRound (udata : List UInt8) (headerSize : Nat) (phdr : Phdr Nat) (m : Merge)
    (phdrst : List UInt8) : Except Failure Merge :=
  let phdri := Phdr.parse phdrst 0
  if phdrst.length ≠ 0x20 then .error (.assertion "")
  else if isDynamic phdri.pType then
    .error (.valueError "Dynamically linked executable not supported.")
  -- `PT_TLS`
  else if phdri.pType = 7 then .ok { m with extraPhdrs := m.extraPhdrs ++ [phdrst] }
  -- `PT_NOTE`, `PT_GNU_STACK`, `PT_GNU_RELRO`
  else if phdri.pType ∈ [4, 0x6474e551, 0x6474e552] then .ok m
  else if phdri.pType ≠ ptLoad then .ok { m with extraPhdrs := m.extraPhdrs ++ [phdrst] }
  else if phdri.pFilesz = 0 ∧ phdri.pMemsz = 0 then .ok m
  else if phdri.pFlags >>> 3 ≠ 0 then .error (.valueError "")
  else if phdri.pVaddr ≠ phdri.pPaddr then .error (.valueError "")
  else if phdri.pVaddr < phdr.pVaddr then
    .error (.valueError "Early subsequent p_vaddr not supported.")
  else if udata.length < phdri.pFilesz + phdri.pOffset then .error (.valueError "")
  else if phdri.pFilesz + phdri.pOffset < headerSize then .error (.valueError "")
  else
    match m.append udata headerSize phdr phdri with
    | .error e => .error e
    | .ok m =>
      .ok { m with
        lastMemsz := max m.lastMemsz (phdri.pVaddr - phdr.pVaddr + phdri.pMemsz) }

/-- `buffer(udata, 0x34 + phi * 0x20, 0x20)` -/
def phdrString (udata : List UInt8) (phi : Nat) : List UInt8 := slice udata (0x34 + phi * 0x20) 0x20

/-- The loop over the program headers behind the first. -/
def mergeLoop (udata : List UInt8) (headerSize : Nat) (phdr : Phdr Nat) :
    List Nat → Merge → Except Failure Merge
  | [], m => .ok m
  | phi :: phis, m =>
    match mergeRound udata headerSize phdr m (phdrString udata phi) with
    | .error e => .error e
    | .ok m => mergeLoop udata headerSize phdr phis m

/-- What goes on to the compression, and the text in front of its trimming. -/
structure Flat where
  mergedText : List UInt8
  lastMemsz : Nat
  textData : List UInt8
  extraPhdrs : List UInt8
  origLoadAddr : Nat
  loadAddr : Nat
  entryAddr : Nat
  endAddr : Nat
  eOsabi : Nat
  deriving DecidableEq, Repr

/-- The zeros at both ends are removed, and the text is moved as far as it was cut in front. -/
def flatOf (ehdr : Ehdr) (phdr : Phdr Nat) (m : Merge) : Except Failure Flat :=
  let mergedText := m.textData.flatten
  let j := (mergedText.takeWhile (· == 0)).length
  let textData := trimEnds (· == 0) mergedText
  let loadAddr := phdr.pVaddr + tinyHeaderSize ehdr + j
  let endAddr := phdr.pVaddr + m.lastMemsz
  if (endAddr : Int) - loadAddr < textData.length then .error (.assertion "")
  else .ok
    { mergedText, lastMemsz := m.lastMemsz, textData, extraPhdrs := m.extraPhdrs.flatten,
      origLoadAddr := phdr.pVaddr + tinyHeaderSize ehdr, loadAddr, entryAddr := ehdr.eEntry,
      endAddr, eOsabi := ehdr.eOsabi }

/-- `compress_elftiny32`, up to the compression. -/
def compressElftiny32 (udata : List UInt8) : Except Failure Flat :=
  if udata.length < 0x54 then .error (.valueError "")
  else do
    let ehdr := Ehdr.parse (slice udata 0 0x34)
    let headerSize := tinyHeaderSize ehdr
    checkTiny ehdr
    let phdr := Phdr.parse (slice udata 0x34 0x20) 0
    checkFirst phdr
    let phdr ← fixFirst headerSize phdr
    checkFixed udata headerSize ehdr.eEntry phdr
    let text := slice udata headerSize (phdr.pFilesz - headerSize)
    let m ← mergeLoop udata headerSize phdr (List.range' 1 (ehdr.ePhnum - 1))
      ⟨[text], text.length, [], phdr.pMemsz⟩
    flatOf ehdr phdr m

/-! ## Flat texts -/

/-- The ELF header of a file. -/
def ehdrOf (udata : List UInt8) : Ehdr := Ehdr.parse (slice udata 0 0x34)

/-- An entry of the program header. -/
def phdrOf (udata : List UInt8) (phi : Nat) : Phdr Nat := Phdr.parse (phdrString udata phi) 0

/-- The loadable segments behind the first, in the order of the table. -/
def otherLoads (udata : List UInt8) : List (Phdr Nat) :=
  ((List.range' 1 ((ehdrOf udata).ePhnum - 1)).map (phdrOf udata)).filter (·.pType = ptLoad)

/-- The text has the bytes of all loadable segments at their addresses, counted from the end of the
headers in memory, and the memory from the headers on covers all of them. -/
structure FlatText (udata : List UInt8) (f : Flat) : Prop where
  first : ∀ a, (phdrOf udata 0).pVaddr ≤ a →
    a < (phdrOf udata 0).pVaddr + (phdrOf udata 0).pFilesz → f.origLoadAddr ≤ a →
    f.mergedText[a - f.origLoadAddr]? =
      udata[(phdrOf udata 0).pOffset + (a - (phdrOf udata 0).pVaddr)]?
  others : ∀ phdr ∈ otherLoads udata, ∀ a, phdr.pVaddr ≤ a → a < phdr.pVaddr + phdr.pFilesz →
    f.origLoadAddr ≤ a ∧
      f.mergedText[a - f.origLoadAddr]? = udata[phdr.pOffset + (a - phdr.pVaddr)]?
  covers : ∀ phdr ∈ phdrOf udata 0 :: otherLoads udata, ∀ a, phdr.pVaddr ≤ a →
    a < phdr.pVaddr + phdr.pMemsz →
    f.origLoadAddr ≤ a + tinyHeaderSize (ehdrOf udata) ∧ a < f.endAddr

/-- Where the text is loaded. -/
def textBase (udata : List UInt8) : Nat :=
  if (phdrOf udata 0).pOffset = 0 then
    (phdrOf udata 0).pVaddr + tinyHeaderSize (ehdrOf udata)
  else (phdrOf udata 0).pVaddr

/-- The text of the first segment, without the headers. -/
def firstText (udata : List UInt8) : List UInt8 :=
  slice udata (tinyHeaderSize (ehdrOf udata))
    (if (phdrOf udata 0).pOffset = 0 then
      (phdrOf udata 0).pFilesz - tinyHeaderSize (ehdrOf udata)
    else (phdrOf udata 0).pFilesz)

/-- The segments that have bytes in the file, as pieces of a text that is loaded at an address. -/
def mergePieces (udata : List UInt8) (base : Nat) (segs : List (Phdr Nat)) :
    List (Piece UInt8) :=
  (segs.filter (0 < ·.pFilesz)).map fun phdr =>
    ((phdr.pVaddr : Int) - base, slice udata phdr.pOffset phdr.pFilesz)

/-- Each segment begins behind the text so far, or repeats it. -/
def InOrder (udata : List UInt8) : Prop :=
  FollowsAll 0 (firstText udata) (mergePieces udata (textBase udata) (otherLoads udata))

variable {udata : List UInt8} {headerSize : Nat} {phdr phdri : Phdr Nat} {m m' m'' : Merge}
  {segs segs' : List (Phdr Nat)} {f : Flat}

/-! ## The loop -/

/-- The text so far. -/
def Merge.text (m : Merge) : List UInt8 := m.textData.flatten

/-- What the loop has done when it has passed some loadable segments. -/
structure Merged (udata : List UInt8) (headerSize : Nat) (phdr : Phdr Nat)
    (segs : List (Phdr Nat)) (m m' : Merge) : Prop where
  size : m'.textDataSize = m'.text.length
  text : m'.text =
    appendPieces 0 m.text (mergePieces udata (phdr.pVaddr + headerSize) segs)
  memsz_le : m.lastMemsz ≤ m'.lastMemsz
  inFile : ∀ s ∈ segs, s.pFilesz ≠ 0 → s.pOffset + s.pFilesz ≤ udata.length
  covers : ∀ s ∈ segs, ∀ a, s.pVaddr ≤ a → a < s.pVaddr + s.pMemsz →
    phdr.pVaddr ≤ a ∧ a < phdr.pVaddr + m'.lastMemsz

/-- A round without a segment. -/
theorem Merged.refl (h : m.textDataSize = m.text.length) (extraPhdrs : List (List UInt8)) :
    Merged udata headerSize phdr [] m { m with extraPhdrs } :=
  ⟨h, rfl, Nat.le_refl _, List.forall_mem_nil _, List.forall_mem_nil _⟩

/-- Merging two lists one after the other merges both. -/
theorem Merged.trans (h : Merged udata headerSize phdr segs m m')
    (h' : Merged udata headerSize phdr segs' m' m'') :
    Merged udata headerSize phdr (segs ++ segs') m m'' := by
  refine ⟨h'.size, ?_, h.memsz_le.trans h'.memsz_le, ?_, ?_⟩
  · rw [h'.text, h.text, mergePieces, mergePieces, mergePieces, List.filter_append,
      List.map_append, appendPieces, appendPieces, appendPieces, List.foldl_append]
  · intro s hs
    rcases List.mem_append.mp hs with hs | hs
    · exact h.inFile s hs
    · exact h'.inFile s hs
  · intro s hs a hlo hhi
    rcases List.mem_append.mp hs with hs | hs
    · obtain ⟨hle, hlt⟩ := h.covers s hs a hlo hhi
      exact ⟨hle, hlt.trans_le (Nat.add_le_add_left h'.memsz_le _)⟩
    · exact h'.covers s hs a hlo hhi

/-- A segment is appended behind its gap, if it has bytes in the file. -/
theorem append_ok (hsize : m.textDataSize = m.text.length)
    (hin : phdri.pOffset + phdri.pFilesz ≤ udata.length)
    (h : m.append udata headerSize phdr phdri = .ok m') :
    m'.textDataSize = m'.text.length ∧ m'.lastMemsz = m.lastMemsz ∧
      m'.text = appendPieces 0 m.text
        (mergePieces udata (phdr.pVaddr + headerSize) [phdri]) := by
  unfold Merge.append at h
  split at h
  · next hpos =>
    obtain ⟨-, h⟩ := ite_error_eq_ok h
    cases h
    have htext : (slice udata phdri.pOffset phdri.pFilesz).length = phdri.pFilesz := by
      rw [length_slice]
      omega
    refine ⟨?_, rfl, ?_⟩
    · simp only [Merge.text, List.flatten_append, List.flatten_cons, List.flatten_nil,
        List.append_nil, List.length_append] at hsize ⊢
      rw [hsize, Nat.add_assoc]
    · simp only [Merge.text, List.flatten_append, List.flatten_cons, List.flatten_nil,
        List.append_nil, mergePieces, hpos, decide_true, List.filter_cons, ite_true,
        List.filter_nil, List.map_cons, List.map_nil, appendPieces, List.foldl_cons,
        List.foldl_nil, appendPiece, ← List.append_assoc, hsize]
      congr 3
      push_cast
      omega
  · next hnone =>
    cases h
    refine ⟨hsize, rfl, ?_⟩
    simp only [mergePieces, hnone, decide_false, List.filter_cons, Bool.false_eq_true, ite_false,
      List.filter_nil, List.map_nil, appendPieces, List.foldl_nil]

/-- A round merges its segment if that is one to load. -/
theorem mergeRound_merged {phdrst : List UInt8} (hsize : m.textDataSize = m.text.length)
    (h : mergeRound udata headerSize phdr m phdrst = .ok m') :
    Merged udata headerSize phdr ([Phdr.parse phdrst 0].filter (·.pType = ptLoad)) m m' := by
  rw [mergeRound] at h
  generalize Phdr.parse phdrst 0 = phdri at h ⊢
  obtain ⟨-, h⟩ := ite_error_eq_ok h
  obtain ⟨-, h⟩ := ite_error_eq_ok h
  have hskip : phdri.pType ≠ ptLoad → [phdri].filter (·.pType = ptLoad) = [] := fun htype => by
    simp [htype]
  rcases ite_ok_eq_ok h with ⟨htype, rfl⟩ | ⟨-, h⟩
  · rw [hskip (by rw [htype]; decide)]
    exact Merged.refl hsize _
  rcases ite_ok_eq_ok h with ⟨htype, rfl⟩ | ⟨-, h⟩
  · have hload : phdri.pType ≠ ptLoad := fun heq => absurd (heq ▸ htype) (by decide)
    rw [hskip hload]
    exact Merged.refl hsize _
  rcases ite_ok_eq_ok h with ⟨hload, rfl⟩ | ⟨hload, h⟩
  · rw [hskip hload]
    exact Merged.refl hsize _
  have hkeep : [phdri].filter (·.pType = ptLoad) = [phdri] := by
    simp [not_not.mp hload]
  rw [hkeep]
  rcases ite_ok_eq_ok h with ⟨hempty, rfl⟩ | ⟨-, h⟩
  · refine ⟨hsize, ?_, Nat.le_refl _, ?_, ?_⟩
    · simp [mergePieces, hempty.1, appendPieces]
    · simp [hempty.1]
    · simp only [List.forall_mem_singleton, hempty.2]
      omega
  obtain ⟨-, h⟩ := ite_error_eq_ok h
  obtain ⟨-, h⟩ := ite_error_eq_ok h
  obtain ⟨hearly, h⟩ := ite_error_eq_ok h
  obtain ⟨hfile, h⟩ := ite_error_eq_ok h
  obtain ⟨-, h⟩ := ite_error_eq_ok h
  split at h
  · cases h
  next mid happend =>
  cases h
  obtain ⟨hmid, hmem, htext⟩ := append_ok hsize (by omega) happend
  refine ⟨hmid, htext, ?_, ?_, ?_⟩
  · dsimp only
    omega
  · simp only [List.forall_mem_singleton]
    omega
  · simp only [List.forall_mem_singleton]
    omega

/-- The loop merges the segments to load in their order. -/
theorem mergeLoop_merged {phis : List Nat} (hsize : m.textDataSize = m.text.length)
    (h : mergeLoop udata headerSize phdr phis m = .ok m') :
    Merged udata headerSize phdr ((phis.map (phdrOf udata)).filter (·.pType = ptLoad)) m m' := by
  induction phis generalizing m with
  | nil =>
    cases h
    exact Merged.refl hsize _
  | cons phi phis ih =>
    rw [mergeLoop] at h
    split at h
    · cases h
    next mid hround =>
    have hfirst := mergeRound_merged hsize hround
    have hboth := hfirst.trans (ih hfirst.size h)
    rwa [← List.filter_append] at hboth

/-! ## The whole function -/

/-- The parts of a run that gets to the compression. -/
structure FlatRun (udata : List UInt8) (phdr : Phdr Nat) (m : Merge) (f : Flat) : Prop where
  fixed : fixFirst (tinyHeaderSize (ehdrOf udata)) (phdrOf udata 0) = .ok phdr
  headers_le : tinyHeaderSize (ehdrOf udata) ≤ phdr.pFilesz
  filesz_le : phdr.pFilesz ≤ udata.length
  merged : Merged udata (tinyHeaderSize (ehdrOf udata)) phdr (otherLoads udata)
    ⟨[slice udata (tinyHeaderSize (ehdrOf udata))
        (phdr.pFilesz - tinyHeaderSize (ehdrOf udata))],
      (slice udata (tinyHeaderSize (ehdrOf udata))
        (phdr.pFilesz - tinyHeaderSize (ehdrOf udata))).length, [], phdr.pMemsz⟩ m
  text_eq : f.mergedText = m.text
  orig_eq : f.origLoadAddr = phdr.pVaddr + tinyHeaderSize (ehdrOf udata)
  end_eq : f.endAddr = phdr.pVaddr + m.lastMemsz

/-- The checked first segment has the headers and lies in the file. -/
theorem checkFixed_ok {eEntry : Nat} (h : checkFixed udata headerSize eEntry phdr = .ok ()) :
    headerSize ≤ phdr.pFilesz ∧ phdr.pFilesz ≤ udata.length := by
  rw [checkFixed] at h
  obtain ⟨-, h⟩ := ite_error_eq_ok h
  obtain ⟨hfile, h⟩ := ite_error_eq_ok h
  obtain ⟨hheader, -⟩ := ite_error_eq_ok h
  exact ⟨Nat.le_of_not_lt hheader, Nat.le_of_not_lt hfile⟩

/-- What the flat file has when none of the checks failed. -/
theorem flatOf_ok {ehdr : Ehdr} (h : flatOf ehdr phdr m = .ok f) :
    f.mergedText = m.text ∧ f.origLoadAddr = phdr.pVaddr + tinyHeaderSize ehdr ∧
      f.endAddr = phdr.pVaddr + m.lastMemsz := by
  obtain ⟨-, h⟩ := ite_error_eq_ok h
  cases h
  exact ⟨rfl, rfl, rfl⟩

/-- A run that did not fail merged all of the segments. -/
theorem compressElftiny32_ok (h : compressElftiny32 udata = .ok f) :
    ∃ phdr m, FlatRun udata phdr m f := by
  unfold compressElftiny32 at h
  obtain ⟨-, h⟩ := ite_error_eq_ok h
  obtain ⟨⟨⟩, -, h⟩ := bind_eq_ok h
  obtain ⟨⟨⟩, -, h⟩ := bind_eq_ok h
  obtain ⟨phdr, hfixed, h⟩ := bind_eq_ok h
  obtain ⟨⟨⟩, hcheck, h⟩ := bind_eq_ok h
  obtain ⟨m, hloop, h⟩ := bind_eq_ok h
  obtain ⟨hheader, hfile⟩ := checkFixed_ok hcheck
  obtain ⟨htext, horig, hend⟩ := flatOf_ok h
  refine ⟨phdr, m, hfixed, hheader, hfile, mergeLoop_merged ?_ hloop, htext, horig, hend⟩
  simp [Merge.text]

/-- The text of a segment is found as a piece exactly when its bytes are at their addresses. -/
theorem found_segment_iff {base : Nat} {text : List UInt8} {s : Phdr Nat}
    (hin : s.pOffset + s.pFilesz ≤ udata.length) :
    Found text ((s.pVaddr : Int) - base, slice udata s.pOffset s.pFilesz) ↔
      ∀ a, s.pVaddr ≤ a → a < s.pVaddr + s.pFilesz →
        base ≤ a ∧ text[a - base]? = udata[s.pOffset + (a - s.pVaddr)]? := by
  have hlen : (slice udata s.pOffset s.pFilesz).length = s.pFilesz := by
    rw [length_slice]
    omega
  simp only [Found, hlen]
  constructor
  · intro hfound a hlo hhi
    obtain ⟨hpos, hbyte⟩ := hfound (a - s.pVaddr) (by omega)
    have hidx : ((s.pVaddr : Int) - base + (a - s.pVaddr : Nat)).toNat = a - base := by omega
    rw [getElem?_slice, if_pos (by omega), hidx] at hbyte
    exact ⟨by omega, hbyte⟩
  · intro hat i hi
    obtain ⟨hle, hbyte⟩ := hat (s.pVaddr + i) (by omega) (by omega)
    have hidx : ((s.pVaddr : Int) - base + i).toNat = s.pVaddr + i - base := by omega
    rw [Nat.add_sub_cancel_left] at hbyte
    rw [getElem?_slice, if_pos hi, hidx]
    exact ⟨by omega, hbyte⟩

/-- The first program header is taken as it is, or its segment is right behind the headers. -/
theorem fixFirst_ok {first : Phdr Nat} (h : fixFirst headerSize first = .ok phdr) :
    (first.pOffset = 0 ∧ phdr = first) ∨
      (first.pOffset ≠ 0 ∧ first.pOffset = headerSize ∧ phdr.pVaddr + headerSize = first.pVaddr ∧
        phdr.pFilesz = first.pFilesz + headerSize ∧ phdr.pMemsz = first.pMemsz + headerSize) := by
  unfold fixFirst at h
  split at h
  · next hofs =>
    split at h
    · next hfix =>
      cases h
      exact Or.inr ⟨hofs, hfix.1, Nat.sub_add_cancel hfix.2, rfl, rfl⟩
    · cases h
  · next hofs =>
    cases h
    exact Or.inl ⟨not_not.mp hofs, rfl⟩

section run

variable (r : FlatRun udata phdr m f)

include r

/-- The text is loaded behind the headers of the first segment. -/
theorem FlatRun.base_eq : phdr.pVaddr + tinyHeaderSize (ehdrOf udata) = textBase udata := by
  unfold textBase
  rcases fixFirst_ok r.fixed with ⟨hofs, rfl⟩ | ⟨hofs, -, hvaddr, -⟩
  · rw [if_pos hofs]
  · rw [if_neg hofs, hvaddr]

/-- The text starts behind the tiny headers. -/
theorem FlatRun.firstText_eq : slice udata (tinyHeaderSize (ehdrOf udata))
    (phdr.pFilesz - tinyHeaderSize (ehdrOf udata)) = firstText udata := by
  unfold firstText
  rcases fixFirst_ok r.fixed with ⟨hofs, rfl⟩ | ⟨hofs, -, -, hfilesz, -⟩
  · rw [if_pos hofs]
  · rw [if_neg hofs, hfilesz, Nat.add_sub_cancel]

/-- The text is the first segment with the others put where they are loaded. -/
theorem FlatRun.text_eq_append : f.mergedText =
    appendPieces 0 (firstText udata) (mergePieces udata (textBase udata) (otherLoads udata)) := by
  rw [r.text_eq, r.merged.text, r.base_eq, r.firstText_eq]
  simp only [Merge.text, List.flatten_cons, List.flatten_nil, List.append_nil]

/-- The first segment is never out of place. -/
theorem FlatRun.first : ∀ a, (phdrOf udata 0).pVaddr ≤ a →
    a < (phdrOf udata 0).pVaddr + (phdrOf udata 0).pFilesz → f.origLoadAddr ≤ a →
    f.mergedText[a - f.origLoadAddr]? =
      udata[(phdrOf udata 0).pOffset + (a - (phdrOf udata 0).pVaddr)]? := by
  intro a hlo hhi hbase
  obtain ⟨rest, hrest⟩ := r.text_eq_append ▸ prefix_appendPieces
  have hheaders := r.headers_le
  have hfile := r.filesz_le
  have horig := r.orig_eq
  have hlen := congrArg List.length r.firstText_eq
  rw [length_slice] at hlen
  have hcase := fixFirst_ok r.fixed
  have hin : a - f.origLoadAddr < phdr.pFilesz - tinyHeaderSize (ehdrOf udata) := by
    rcases hcase with ⟨-, rfl⟩ | ⟨-, -, hvaddr, hfilesz, -⟩ <;> omega
  have htext : a - f.origLoadAddr < (firstText udata).length := by omega
  rw [← hrest, List.getElem?_append_left htext, ← r.firstText_eq, getElem?_slice, if_pos hin]
  congr 1
  rcases hcase with ⟨hofs, rfl⟩ | ⟨-, hofs, hvaddr, -, -⟩ <;> omega

/-- Every address of a segment is one of the flat file. -/
theorem FlatRun.covers : ∀ s ∈ phdrOf udata 0 :: otherLoads udata, ∀ a, s.pVaddr ≤ a →
    a < s.pVaddr + s.pMemsz →
    f.origLoadAddr ≤ a + tinyHeaderSize (ehdrOf udata) ∧ a < f.endAddr := by
  have horig := r.orig_eq
  have hend := r.end_eq
  have hmemsz : phdr.pMemsz ≤ m.lastMemsz := r.merged.memsz_le
  intro s hs a hlo hhi
  rcases List.mem_cons.mp hs with rfl | hs
  · rcases fixFirst_ok r.fixed with ⟨-, rfl⟩ | ⟨-, -, hvaddr, -, hmem⟩ <;> omega
  · obtain ⟨hle, hlt⟩ := r.merged.covers s hs a hlo hhi
    omega

end run

/-- Whenever the merge gets to the compression, the text has all segments at their addresses exactly
when each of them begins behind the text so far, or repeats it from its address on. -/
theorem compressElftiny32_flat_iff (udata : List UInt8) (f : Flat)
    (h : compressElftiny32 udata = .ok f) : FlatText udata f ↔ InOrder udata := by
  obtain ⟨phdr, m, r⟩ := compressElftiny32_ok h
  have hbase := r.orig_eq.trans r.base_eq
  have hmem : ∀ p ∈ mergePieces udata (textBase udata) (otherLoads udata), p.2 ≠ [] := by
    intro p hp
    obtain ⟨s, hs, rfl⟩ := List.mem_map.mp hp
    obtain ⟨hs, hpos⟩ := List.mem_filter.mp hs
    have hpos := of_decide_eq_true hpos
    have hin := r.merged.inFile s hs hpos.ne'
    rw [← List.length_pos_iff, length_slice]
    omega
  rw [InOrder, ← found_appendPieces_iff hmem, ← r.text_eq_append]
  constructor
  · intro hflat p hp
    obtain ⟨s, hs, rfl⟩ := List.mem_map.mp hp
    obtain ⟨hs, hpos⟩ := List.mem_filter.mp hs
    rw [found_segment_iff (r.merged.inFile s hs (of_decide_eq_true hpos).ne'), ← hbase]
    exact hflat.others s hs
  · intro hfound
    refine ⟨r.first, fun s hs => ?_, r.covers⟩
    by_cases hpos : 0 < s.pFilesz
    · have hp := hfound _ (List.mem_map_of_mem (List.mem_filter.mpr ⟨hs, decide_eq_true hpos⟩))
      rwa [found_segment_iff (r.merged.inFile s hs hpos.ne'), ← hbase] at hp
    · intro a hlo hhi
      omega

/-- An executable with three segments of a byte each, the last two at given addresses of a page. -/
def threeSegments (second third : UInt8) : List UInt8 :=
  elfMag ++ [1, 1, 1, 0, 0, 0, 0, 0, 0, 0, 0, 0, 2, 0, 3, 0, 1, 0, 0, 0, 0x94, 0x10, 0, 0, 0x34, 0, 0,
    0, 0, 0, 0, 0, 0, 0, 0, 0, 0x34, 0, 0x20, 0, 3, 0, 0x28, 0, 0, 0, 0, 0] ++
  [1, 0, 0, 0, 0, 0, 0, 0, 0, 0x10, 0, 0, 0, 0x10, 0, 0, 0x95, 0, 0, 0, 0, 2, 0, 0, 7, 0, 0, 0,
    0, 0x10, 0, 0] ++
  [1, 0, 0, 0, 0x95, 0, 0, 0, second, 0x10, 0, 0, second, 0x10, 0, 0, 1, 0, 0, 0, 1, 0, 0, 0,
    6, 0, 0, 0, 0, 0x10, 0, 0] ++
  [1, 0, 0, 0, 0x96, 0, 0, 0, third, 0x10, 0, 0, third, 0x10, 0, 0, 1, 0, 0, 0, 1, 0, 0, 0,
    6, 0, 0, 0, 0, 0x10, 0, 0] ++ [0x41, 0x42, 0x43]

/-- What is compressed of it. -/
def threeSegmentsFlat (text : List UInt8) : Flat where
  mergedText := text
  lastMemsz := 0x200
  textData := text
  extraPhdrs := []
  origLoadAddr := 0x1094
  loadAddr := 0x1094
  entryAddr := 0x1094
  endAddr := 0x1200
  eOsabi := 0

/-- The segments are in order. -/
theorem compressElftiny32_flat_iff_threeSegments :
    FlatText (threeSegments 0x97 0x99) (threeSegmentsFlat [0x41, 0, 0, 0x42, 0, 0x43]) ↔
      InOrder (threeSegments 0x97 0x99) :=
  compressElftiny32_flat_iff _ _ (by decide +kernel)

/-- The last segment belongs in the gap in front of the second, and is appended behind it. -/
theorem not_compressElftiny32_flat :
    ¬ ∀ (udata : List UInt8) (f : Flat), compressElftiny32 udata = .ok f → FlatText udata f := by
  intro hall
  have hflat := hall (threeSegments 0x99 0x97)
    (threeSegmentsFlat [0x41, 0, 0, 0, 0, 0x42, 0x43]) (by decide +kernel)
  have hthird : phdrOf (threeSegments 0x99 0x97) 2 ∈ otherLoads (threeSegments 0x99 0x97) := by
    decide +kernel
  have haddr : (phdrOf (threeSegments 0x99 0x97) 2).pVaddr = 0x1097 := by decide +kernel
  have hsize : (phdrOf (threeSegments 0x99 0x97) 2).pFilesz = 1 := by decide +kernel
  have hofs : (phdrOf (threeSegments 0x99 0x97) 2).pOffset = 0x96 := by decide +kernel
  obtain ⟨-, hbyte⟩ := hflat.others _ hthird 0x1097 haddr.le (by rw [haddr, hsize]; simp)
  rw [haddr, hofs] at hbyte
  exact absurd hbyte (by decide +kernel)

end Liigboot.Tools
