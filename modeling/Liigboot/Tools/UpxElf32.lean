import Liigboot.Tools.Adler32
import Liigboot.Tools.Elf32

/-!
# The executable that UPX decompresses

`upxbc` wraps compressed data in an executable, for `upx -d` to unpack it. UPX checks the checksum
of the whole uncompressed file, of which the script has only the checksum of the data.
-/

namespace Liigboot.Tools

/-! ## Packed fields -/

/-- A format of `pack_fields` with its value. -/
inductive Field
  /-- `struct.pack` of a string: cut or filled with zeros. -/
  | bytes (len : Nat) (value : List UInt8)
  /-- `struct.pack` of a number: `B`, `H` or `L`. -/
  | num (size value : Nat)
  | str (value : List UInt8)
  | pad (value : Nat)
  | phcs (value : Nat)
  | minsize (value : Nat)

/-- `'B'` -/
def Field.b (value : Nat) : Field := .num 1 value

/-- `'H'` -/
def Field.h (value : Nat) : Field := .num 2 value

/-- `'L'` -/
def Field.l (value : Nat) : Field := .num 4 value

/-- The strings at the end of the output until there are enough bytes, from the last one on. -/
def lastBytes (value : Nat) : List (List UInt8) → List UInt8 → List UInt8
  | [], buf => buf
  | s :: output, buf => if buf.length < value then lastBytes value output (s ++ buf) else buf

/-- `sum(len(x) for x in output)` -/
def outputSize (output : List (List UInt8)) : Nat := (output.map List.length).sum

/-- One round of the loop of `pack_fields`. -/
def packField (output : List (List UInt8)) : Field → Except Failure (List (List UInt8))
  | .bytes len value =>
    .ok (output ++ [value.take len ++ List.replicate (len - value.length) 0])
  | .num size value =>
    if value < 256 ^ size then .ok (output ++ [leBytes value size]) else .error .struct
  | .str value => .ok (output ++ [value])
  | .pad value =>
    .ok (output ++ [List.replicate ((value - outputSize output % value) % value) 0])
  | .phcs value =>
    let buf := lastBytes value output.reverse []
    if buf.length ≠ value then .error (.assertion "")
    else .ok (output ++ [[UInt8.ofNat ((buf.map UInt8.toNat).sum % 251)]])
  | .minsize value =>
    let size := outputSize output
    if size < value then .ok (output ++ [List.replicate (value - size) 0]) else .ok output

/-- The loop of `pack_fields`, with the strings so far. -/
def packOutput (output : List (List UInt8)) :
    List (String × Field) → Except Failure (List (List UInt8))
  | [] => .ok output
  | (_, field) :: fields =>
    match packField output field with
    | .error e => .error e
    | .ok output => packOutput output fields

/-- `pack_fields` -/
def packFields (fields : List (String × Field)) : Except Failure (List UInt8) :=
  (packOutput [] fields).map List.flatten

/-! ## The header of the uncompressed file -/

/-- The parts of a compressed header around the two sizes, for each method. -/
def compressedHeaderParts : Nat → Option (List UInt8 × List UInt8)
  | 0 => some
    ([0x7f, 0x45, 0x4c, 0x46, 1, 1, 1, 3, 0, 0, 0, 0, 0, 0, 0, 0, 2, 0, 3, 0, 1, 0, 0, 0, 0x54,
      0x10, 0x10, 0, 0x34, 0, 0, 0, 0, 0, 0, 0, 0, 0, 0, 0, 0x34, 0, 0x20, 0, 1, 0, 0x28, 0, 0, 0,
      0, 0, 1, 0, 0, 0, 0, 0, 0, 0, 0, 0x10, 0x10, 0, 0, 0x10, 0x10, 0],
    [7, 0, 0, 0, 1, 0, 0, 0])
  | 2 => some
    ([0xdb, 0x0e, 0x72, 0xf9, 0x7f, 0x45, 0x4c, 0x46, 1, 3, 0, 2, 0, 0x0a, 1, 7, 0xeb, 0xb6, 0x65,
      0xbf, 0x54, 0x10, 0x10, 0, 0x34, 0, 0, 0x0b, 0x20, 0x17, 0x28, 0x0b, 0xff, 0xcf, 0x0d, 0x1b,
      1, 0x14, 0x23, 3],
    [0, 0, 0x40, 0xb0, 7, 0x1b, 0x20, 1, 0, 0, 0xff])
  | 5 => some
    ([0xf6, 0x0e, 0x72, 0xf9, 0x7f, 0x45, 0x4c, 0x46, 1, 3, 0, 2, 0, 0x15, 1, 0x0e, 0x66, 0xed,
      0xad, 0xfd, 0x54, 0x10, 0x10, 0, 0x34, 0, 1, 0x17, 0x20, 0x2e, 0x28, 0x17, 1, 0x61, 0xff,
      0xcf, 0xc6, 0x29, 0x46, 6],
    [7, 0x37, 0x49, 0x92, 0x24, 9, 0, 0, 0, 0x2a, 0xff])
  | 8 => some
    ([0x5f, 0x7b, 0xb2, 0xf9, 0x7f, 0x45, 0x4c, 0x46, 1, 3, 0, 2, 0, 0x14, 1, 0x0e, 0x54, 0x10,
      0xf6, 0xbd, 0x96, 0xf6, 0x10, 0, 0x34, 0, 1, 0x16, 0x20, 0x2e, 0x28, 0x17, 1, 0x29, 0xc2,
      0xf6, 0xff, 0x1d, 0x10, 0x10, 7],
    [7, 0x37, 0x4a, 0x92, 0x24, 0x49, 0, 0, 0, 0x80, 0xff])
  | _ => none

/-- `get_compressed_elf32_header` -/
def getCompressedElf32Header (ubufsize loadAddr method : Nat) : Except Failure (List UInt8) :=
  if loadAddr ≠ 0x101000 then .error .notImplemented
  else if 2 ^ 32 ≤ ubufsize + 0x54 then .error .struct
  else
    let mid := leBytes (ubufsize + 0x54) 4 ++ leBytes (ubufsize + 0x54) 4
    match compressedHeaderParts method with
    | none => .error .notImplemented
    | some (front, rest) => .ok (front ++ mid ++ rest)

/-! ## The executable -/

/-- The slots of an `UpxCompressed` that are read here. -/
structure UpxCompressed where
  method : Nat
  filter : Nat
  filterCto : Nat
  compressedData : List UInt8
  ubufsize : Nat
  compressedElf32Header : List UInt8

/-- The compressed header that goes with the data. `upx_compress32` runs UPX. -/
def headerFor (upxCompress32 : List UInt8 → Except Failure UpxCompressed) (ch : UpxCompressed)
    (elf32Header : List UInt8) (loadAddr : Nat) : Except Failure (List UInt8) :=
  if ch.method = 2 ∨ ch.method = 5 ∨ ch.method = 8 then
    getCompressedElf32Header ch.ubufsize loadAddr ch.method
  else if ch.method = 14 ∧ ch.compressedElf32Header = [] then
    match upxCompress32 elf32Header with
    | .error e => .error e
    | .ok ch2 =>
      if ch2.ubufsize ≠ 0x54 then
        .error (.assertion "Unexpected padding in LZMA-compressed ELF32 header.")
      else .ok ch2.compressedData
  else if ch.compressedElf32Header = [] then
    .error (.valueError "compressed_elf32_header empty.")
  else .ok ch.compressedElf32Header

/-- `'\xc3' * 16` -/
def loaderData : List UInt8 := List.replicate 16 0xc3

/-- `'UPX!'` -/
def upxMagic : List UInt8 := [0x55, 0x50, 0x58, 0x21]

/-- `bend_ofs`, where the compressed blocks end. -/
def bendOfs (ch : UpxCompressed) (compressedElf32Header : List UInt8) : Nat :=
  164 + compressedElf32Header.length + ch.compressedData.length

/-- `loader_ofs` -/
def loaderOfs (ch : UpxCompressed) (compressedElf32Header : List UInt8) : Nat :=
  bendOfs ch compressedElf32Header + (4 - bendOfs ch compressedElf32Header % 4) % 4

/-- The fields up to the padding in front of the loader. -/
def blockFields (ch : UpxCompressed) (compressedElf32Header : List UInt8) (loadAddr : Nat) :
    List (String × Field) :=
  let loaderOfs := loaderOfs ch compressedElf32Header
  [("ei_mag", .bytes 4 elfMag),
    ("ei_class", .b 1),
    ("ei_data", .b 1),
    ("ei_version", .b 1),
    ("e_osabi", .b 3),
    ("e_abiversion", .b 0),
    ("e_pad", .bytes 7 (List.replicate 7 0)),
    ("e_type", .h 2),
    ("e_machine", .h 3),
    ("e_version", .l 1),
    ("e_entry", .l (0xc01000 + loaderOfs + 8)),
    ("e_phoff", .l 0x34),
    ("e_shoff", .l 0),
    ("e_flags", .l 0),
    ("e_ehsize", .h 0x34),
    ("e_phentsize", .h 0x20),
    ("e_phnum", .h 2),
    ("e_shentsize", .h 0x28),
    ("e_shnum", .h 0),
    ("e_shstrndx", .h 0),
    ("p0_type", .l 1),
    ("p0_offset", .l 0),
    ("p0_vaddr", .l 0xc01000),
    ("p0_paddr", .l 0xc01000),
    ("p0_filesz", .l (loaderOfs + loaderData.length)),
    ("p0_memsz", .l (loaderOfs + loaderData.length)),
    ("p0_flags", .l 5),
    ("p0_align", .l 0x1000),
    ("p1_type", .l 1),
    ("p1_offset", .l ((loadAddr + 0x54 + ch.ubufsize) % 0x1000)),
    ("p1_vaddr", .l (loadAddr + 0x54 + ch.ubufsize)),
    ("p1_paddr", .l (loadAddr + 0x54 + ch.ubufsize)),
    ("p1_filesz", .l 0),
    ("p1_memsz", .l 0),
    ("p1_flags", .l 6),
    ("p1_align", .l 0x1000),
    ("l_checksum", .l 0),
    ("l_magic", .bytes 4 upxMagic),
    ("l_lsize", .h loaderData.length),
    ("l_version", .b 13),
    ("l_format", .b 12),
    ("p_progid", .l 0),
    ("p_filesize", .l (0x54 + ch.ubufsize)),
    ("p_blocksize", .l (0x54 + ch.ubufsize)),
    ("sz0_unc", .l 0x54),
    ("sz0_cpr", .l compressedElf32Header.length),
    ("b0_method", .b ch.method),
    ("b0_ftid", .b 0),
    ("b0_cto8", .b 0),
    ("b0_unused", .b 0),
    ("b0_cpr", .str compressedElf32Header),
    ("sz1_unc", .l ch.ubufsize),
    ("sz1_cpr", .l ch.compressedData.length),
    ("b1_method", .b ch.method),
    ("b1_ftid", .b ch.filter),
    ("b1_cto8", .b ch.filterCto),
    ("b1_unused", .b 0),
    ("b1_cpr", .str ch.compressedData)]

/-- The loader and the pack header, up to the checksum of the uncompressed file. -/
def loaderFields (ch : UpxCompressed) : List (String × Field) :=
  [("ld_data", .str loaderData),
    ("ld_eof", .bytes 12 ([0, 0, 0, 0] ++ upxMagic ++ [0, 0, 0, 0])),
    ("ph_magic", .bytes 4 upxMagic),
    ("ph_version", .b 13),
    ("ph_format", .b 12),
    ("ph_method", .b ch.method),
    ("ph_level", .b 10)]

/-- The rest of the pack header. -/
def packHeaderFields (ch : UpxCompressed) (cAdler : Nat) : List (String × Field) :=
  [("ph_c_adler", .l cAdler),
    ("ph_u_len", .l ch.ubufsize),
    ("ph_c_len", .l ch.compressedData.length),
    ("ph_u_file_size", .l (0x54 + ch.ubufsize)),
    ("ph_filter", .b ch.filter),
    ("ph_filter_cto", .b ch.filterCto),
    ("ph_n_mru1", .b 0),
    ("ph_checksum", .phcs 27),
    ("overlay_ofs", .l 0x80),
    ("minsize_pad", .minsize 0x200)]

/-- `build_elf32_for_upx_decompression` -/
def buildElf32ForUpxDecompression (upxCompress32 : List UInt8 → Except Failure UpxCompressed)
    (ch : UpxCompressed) (udataSize : Nat) (udataAdler32 : Int) (loadAddr : Nat) :
    Except Failure (List UInt8) :=
  if ch.ubufsize < udataSize then .error (.valueError "")
  else do
    let elf32Header ← getCompressedElf32Header ch.ubufsize 0x101000 0
    let compressedElf32Header ← headerFor upxCompress32 ch elf32Header loadAddr
    let uAdler := adler32Combine (zlibAdler32 elf32Header 1)
      (zlibAdler32 (List.replicate (ch.ubufsize - udataSize) 0) udataAdler32) ch.ubufsize
    let cAdler := mask32 (zlibAdler32 ch.compressedData (zlibAdler32 compressedElf32Header 1))
    if compressedElf32Header = [] then .error (.valueError "")
    else packFields (blockFields ch compressedElf32Header loadAddr ++
      ("ld_pad4", .pad 4) :: loaderFields ch ++
      ("ph_u_adler", .l uAdler) :: packHeaderFields ch cAdler)

/-! ## Where a field is stored -/

variable {output out : List (List UInt8)} {fields more : List (String × Field)} {data : List UInt8}

/-- The number of bytes of a field of fixed size. -/
def Field.len : Field → Nat
  | .bytes len _ => len
  | .num size _ => size
  | .str value => value.length
  | .pad _ => 0
  | .phcs _ => 1
  | .minsize _ => 0

/-- A field whose size does not depend on what is in front of it. -/
def Field.IsFixed : Field → Prop
  | .pad _ | .minsize _ => False
  | _ => True

theorem outputSize_append (output more : List (List UInt8)) :
    outputSize (output ++ more) = outputSize output + outputSize more := by
  rw [outputSize, List.map_append, List.sum_append, outputSize, outputSize]

theorem length_flatten_output (output : List (List UInt8)) :
    output.flatten.length = outputSize output := List.length_flatten

/-- Every field leaves the output in front of it. -/
theorem packField_ok {field : Field} (h : packField output field = .ok out) :
    ∃ s, out = output ++ s ∧ (field.IsFixed → outputSize s = field.len) := by
  cases field with
  | bytes len value =>
    cases h
    refine ⟨_, rfl, fun _ => ?_⟩
    simp only [outputSize, Field.len, List.map_cons, List.map_nil, List.sum_cons, List.sum_nil,
      List.length_append, List.length_take, List.length_replicate]
    omega
  | num size value =>
    rw [packField] at h
    split at h
    · cases h
      refine ⟨_, rfl, fun _ => ?_⟩
      simp only [outputSize, Field.len, List.map_cons, List.map_nil, List.sum_cons, List.sum_nil,
        length_leBytes, Nat.add_zero]
    · cases h
  | str value =>
    cases h
    refine ⟨_, rfl, fun _ => ?_⟩
    simp only [outputSize, Field.len, List.map_cons, List.map_nil, List.sum_cons, List.sum_nil,
      Nat.add_zero]
  | pad value =>
    cases h
    exact ⟨_, rfl, fun hfix => absurd hfix id⟩
  | phcs value =>
    simp only [packField] at h
    split at h
    · cases h
    · cases h
      exact ⟨_, rfl, fun _ => rfl⟩
  | minsize value =>
    simp only [packField] at h
    split at h
    · cases h
      exact ⟨_, rfl, fun hfix => absurd hfix id⟩
    · cases h
      exact ⟨[], (List.append_nil _).symm, fun hfix => absurd hfix id⟩

theorem packOutput_cons {name : String} {field : Field}
    (h : packOutput output ((name, field) :: fields) = .ok out) :
    ∃ mid, packField output field = .ok mid ∧ packOutput mid fields = .ok out := by
  rw [packOutput] at h
  cases hp : packField output field with
  | error e =>
    rw [hp] at h
    cases h
  | ok mid =>
    rw [hp] at h
    exact ⟨mid, rfl, h⟩

theorem packOutput_append (h : packOutput output (fields ++ more) = .ok out) :
    ∃ mid, packOutput output fields = .ok mid ∧ packOutput mid more = .ok out := by
  induction fields generalizing output with
  | nil => exact ⟨output, rfl, h⟩
  | cons field fields ih =>
    obtain ⟨name, field⟩ := field
    obtain ⟨next, hnext, h⟩ := packOutput_cons h
    obtain ⟨mid, hmid, h⟩ := ih h
    refine ⟨mid, ?_, h⟩
    rw [packOutput, hnext]
    exact hmid

/-- Fields leave the output in front of them, and those of fixed size add their sizes. -/
theorem packOutput_ok (h : packOutput output fields = .ok out) :
    ∃ s, out = output ++ s ∧
      ((∀ f ∈ fields, f.2.IsFixed) → outputSize s = (fields.map (·.2.len)).sum) := by
  induction fields generalizing output with
  | nil =>
    cases h
    exact ⟨[], (List.append_nil _).symm, fun _ => rfl⟩
  | cons field fields ih =>
    obtain ⟨name, field⟩ := field
    obtain ⟨mid, hmid, h⟩ := packOutput_cons h
    obtain ⟨s, rfl, hs⟩ := packField_ok hmid
    obtain ⟨s', rfl, hs'⟩ := ih h
    refine ⟨s ++ s', List.append_assoc .., fun hfix => ?_⟩
    rw [outputSize_append, hs (hfix _ List.mem_cons_self),
      hs' fun f hf => hfix f (List.mem_cons_of_mem _ hf), List.map_cons, List.sum_cons]

/-- A number is stored behind the fields in front of it. -/
theorem packFields_num {name : String} {size value : Nat}
    (h : packFields (fields ++ (name, .num size value) :: more) = .ok data) :
    ∃ mid, packOutput [] fields = .ok mid ∧ readLe data (outputSize mid) size = value := by
  rw [packFields] at h
  cases hp : packOutput [] (fields ++ (name, .num size value) :: more) with
  | error e =>
    rw [hp] at h
    cases h
  | ok out =>
    rw [hp] at h
    cases h
    obtain ⟨mid, hmid, hp⟩ := packOutput_append hp
    refine ⟨mid, hmid, ?_⟩
    obtain ⟨next, hnext, hp⟩ := packOutput_cons hp
    obtain ⟨s, rfl, -⟩ := packOutput_ok hp
    rw [packField] at hnext
    split at hnext
    · next hvalue =>
      cases hnext
      rw [List.flatten_append, List.flatten_append, ← length_flatten_output, List.flatten_singleton,
        readLe, slice, List.append_assoc, List.drop_left, List.take_append_of_le_length (by
          rw [length_leBytes]), List.take_of_length_le (by rw [length_leBytes]), leNat_leBytes,
        Nat.mod_eq_of_lt hvalue]
    · cases hnext

/-! ## The checksum of the uncompressed file -/

variable {ch : UpxCompressed} {upxCompress32 : List UInt8 → Except Failure UpxCompressed}
  {hdr udata file : List UInt8} {udataAdler32 : Int} {loadAddr : Nat}

/-- Where `ph_u_adler` is. -/
def phUAdlerOfs (ch : UpxCompressed) (hdr : List UInt8) : Nat := loaderOfs ch hdr + 36

private theorem blockFields_size :
    (∀ f ∈ blockFields ch hdr loadAddr, f.2.IsFixed) ∧
      ((blockFields ch hdr loadAddr).map (·.2.len)).sum = bendOfs ch hdr := by
  simp only [blockFields, Field.b, Field.h, Field.l, List.forall_mem_cons, Field.IsFixed,
    List.map_cons, List.map_nil, List.sum_cons, List.sum_nil, Field.len, bendOfs, true_and]
  exact ⟨fun f hf => absurd hf List.not_mem_nil, by omega⟩

private theorem loaderFields_size :
    (∀ f ∈ loaderFields ch, f.2.IsFixed) ∧ ((loaderFields ch).map (·.2.len)).sum = 36 := by
  simp only [loaderFields, Field.b, List.forall_mem_cons, Field.IsFixed, List.map_cons,
    List.map_nil, List.sum_cons, List.sum_nil, Field.len, loaderData, List.length_replicate,
    true_and]
  exact ⟨fun f hf => absurd hf List.not_mem_nil, rfl⟩

/-- The fields in front of the checksum end where it is stored. -/
theorem outputSize_phUAdler {out : List (List UInt8)}
    (h : packOutput [] (blockFields ch hdr loadAddr ++ ("ld_pad4", .pad 4) :: loaderFields ch) =
      .ok out) : outputSize out = phUAdlerOfs ch hdr := by
  obtain ⟨blocks, hblocks, h⟩ := packOutput_append h
  obtain ⟨padded, hpad, h⟩ := packOutput_cons h
  obtain ⟨s, rfl, hs⟩ := packOutput_ok h
  obtain ⟨bs, rfl, hbs⟩ := packOutput_ok hblocks
  have hbend := (hbs blockFields_size.1).trans blockFields_size.2
  cases hpad
  rw [outputSize_append, outputSize_append, hs loaderFields_size.1, loaderFields_size.2, hbend,
    phUAdlerOfs, loaderOfs]
  simp only [outputSize, List.map_cons, List.map_nil, List.length_replicate, List.sum_cons,
    List.sum_nil, Nat.add_zero]

/-- The executable has the checksum of the header, the data and the zeros behind it. -/
def StoresChecksum (upxCompress32 : List UInt8 → Except Failure UpxCompressed) (ch : UpxCompressed)
    (udata : List UInt8) (loadAddr : Nat) (file : List UInt8) : Prop :=
  ∃ elf32Header hdr, getCompressedElf32Header ch.ubufsize 0x101000 0 = .ok elf32Header ∧
    headerFor upxCompress32 ch elf32Header loadAddr = .ok hdr ∧
    readLe file (phUAdlerOfs ch hdr) 4 =
      adler32 (elf32Header ++ (udata ++ List.replicate (ch.ubufsize - udata.length) 0))

theorem build_storesChecksum (hadler : mask32 udataAdler32 = adler32 udata)
    (h : buildElf32ForUpxDecompression upxCompress32 ch udata.length udataAdler32 loadAddr =
      .ok file) : StoresChecksum upxCompress32 ch udata loadAddr file := by
  rw [buildElf32ForUpxDecompression] at h
  split at h
  · cases h
  next hsize =>
  have hroom : udata.length ≤ ch.ubufsize := Nat.le_of_not_lt hsize
  obtain ⟨elf32Header, helf, h⟩ := bind_eq_ok h
  obtain ⟨hdr, hhdr, h⟩ := bind_eq_ok h
  dsimp only at h
  split at h
  · cases h
  have hlen : (udata ++ List.replicate (ch.ubufsize - udata.length) 0).length = ch.ubufsize := by
    rw [List.length_append, List.length_replicate, Nat.add_sub_cancel' hroom]
  obtain ⟨out, hout, hread⟩ := packFields_num h
  refine ⟨elf32Header, hdr, helf, hhdr, ?_⟩
  have hmore : mask32 (zlibAdler32 (List.replicate (ch.ubufsize - udata.length) 0) udataAdler32) =
      adler32 (udata ++ List.replicate (ch.ubufsize - udata.length) 0) := mask32_zlibAdler32 hadler
  have hcombine := adler32Combine_eq (mask32_zlibAdler32_one elf32Header) hmore
  rw [hlen] at hcombine
  rw [← outputSize_phUAdler hout, hread, hcombine]

/-- For all strings the checksums of two parts combine to the checksum of the whole, and so the
executable has the checksum of the header, the data and any number of zeros. -/
theorem adler32_combines :
    (∀ s1 s2 : List UInt8, adler32Combine (zlibAdler32 s1 1) (zlibAdler32 s2 1) s2.length =
      adler32 (s1 ++ s2)) ∧
    ∀ (upxCompress32 : List UInt8 → Except Failure UpxCompressed) (ch : UpxCompressed)
      (udata : List UInt8) (udataAdler32 : Int) (loadAddr : Nat) (file : List UInt8),
      mask32 udataAdler32 = adler32 udata →
      buildElf32ForUpxDecompression upxCompress32 ch udata.length udataAdler32 loadAddr =
        .ok file → StoresChecksum upxCompress32 ch udata loadAddr file :=
  ⟨fun s1 s2 => adler32Combine_eq (mask32_zlibAdler32_one s1) (mask32_zlibAdler32_one s2),
    fun _ _ _ _ _ _ => build_storesChecksum⟩

/-- Three bytes in a buffer of five, compressed to one byte. -/
def fiveBytes : UpxCompressed := ⟨14, 0, 0, [0x61], 5, [0x62]⟩

/-- The executable of three bytes with two zeros behind them. -/
theorem adler32_combines_five :
    ∃ file, buildElf32ForUpxDecompression (fun _ => .error .notImplemented) fiveBytes 3
        (adler32 [0x66, 0x6f, 0x6f]) 0x101000 = .ok file ∧
      StoresChecksum (fun _ => .error .notImplemented) fiveBytes [0x66, 0x6f, 0x6f] 0x101000
        file := by
  have hok : (buildElf32ForUpxDecompression (fun _ => .error .notImplemented) fiveBytes 3
      (adler32 [0x66, 0x6f, 0x6f]) 0x101000).isOk = true := by decide +kernel
  cases h : buildElf32ForUpxDecompression (fun _ => .error .notImplemented) fiveBytes 3
      (adler32 [0x66, 0x6f, 0x6f]) 0x101000 with
  | error e =>
    rw [h] at hok
    cases hok
  | ok file =>
    exact ⟨file, rfl, adler32_combines.2 _ fiveBytes [0x66, 0x6f, 0x6f] _ 0x101000 file
      (mask32_natCast (adler32_lt _)) h⟩

end Liigboot.Tools
