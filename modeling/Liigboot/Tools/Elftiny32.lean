import Liigboot.Tools.LoadElf
import Liigboot.Tools.UpxElf32

/-!
# Small executables

`build_elftiny32` of `upxbc` puts a text behind the headers of an executable with one segment, which
begins on a page. The size of the result is computed a second time without the additional program
headers, and a low address puts the page below zero.
-/

namespace Liigboot.Tools

/-! ## The source -/

/-- `struct.pack` of a number that may be negative. Such a number is refused as one that is too
large is. -/
def Field.int (size : Nat) (value : Int) : Field :=
  .num size (if value < 0 then 256 ^ size else value.toNat)

/-- `get_elftiny32_size` -/
def getElftiny32Size (textDataSize loadAddr : Int) : Int :=
  0x54 + (loadAddr - 0x54) % 0x1000 + textDataSize

/-- The fields of the ELF header. -/
def elftinyEhdr (entryAddr : Int) (extraPhdrs : List UInt8) (eOsabi : Int) :
    List (String × Field) :=
  [("ei_mag", .bytes 4 elfMag),
    ("ei_class", .b 1),
    ("ei_data", .b 1),
    ("ei_version", .b 1),
    ("e_osabi", .int 1 eOsabi),
    ("e_abiversion", .b 0),
    ("e_pad", .bytes 7 (List.replicate 7 0)),
    ("e_type", .h 2),
    ("e_machine", .h 3),
    ("e_version", .l 1),
    ("e_entry", .int 4 entryAddr),
    ("e_phoff", .l 0x34),
    ("e_shoff", .l 0),
    ("e_flags", .l 0),
    ("e_ehsize", .h 0x34),
    ("e_phentsize", .h 0x20),
    ("e_phnum", .h (1 + extraPhdrs.length >>> 5)),
    ("e_shentsize", .h 0),
    ("e_shnum", .h 0),
    ("e_shstrndx", .h 0)]

/-- The fields of the first program header. -/
def elftinyPhdr (textData : List UInt8) (loadAddr endAddr vaddr : Int) : List (String × Field) :=
  [("p_type", .l 1),
    ("p_offset", .l 0),
    ("p_vaddr", .int 4 vaddr),
    ("p_paddr", .int 4 vaddr),
    ("p_filesz", .int 4 (loadAddr + textData.length - vaddr)),
    ("p_memsz", .int 4 (endAddr - vaddr)),
    ("p_flags", .l 7),
    ("p_align", .l 0x1000)]

/-- `prefix`: room for the headers at the beginning of the first page. -/
def elftinyPrefix (loadAddr : Int) (extraPhdrs : List UInt8) : List UInt8 :=
  List.replicate ((loadAddr - (0x54 + extraPhdrs.length)) % 0x1000).toNat 0

/-- `vaddr` -/
def elftinyVaddr (loadAddr : Int) (extraPhdrs : List UInt8) : Int :=
  loadAddr - (elftinyPrefix loadAddr extraPhdrs).length - (0x54 + extraPhdrs.length)

/-- `fields` -/
def elftinyFields (textData : List UInt8) (loadAddr entryAddr endAddr : Int)
    (extraPhdrs : List UInt8) (eOsabi : Int) : List (String × Field) :=
  elftinyEhdr entryAddr extraPhdrs eOsabi ++
    elftinyPhdr textData loadAddr endAddr (elftinyVaddr loadAddr extraPhdrs) ++
    [("extra_phdrs", .str extraPhdrs),
      ("prefix", .str (elftinyPrefix loadAddr extraPhdrs)),
      ("text_data", .str textData)]

/-- `build_elftiny32` -/
def buildElftiny32 (textData : List UInt8) (loadAddr entryAddr endAddr : Int)
    (extraPhdrs : List UInt8) (eOsabi : Int) : Except Failure (List UInt8) :=
  if loadAddr ≤ 0 then .error (.valueError "")
  else if endAddr - loadAddr < textData.length then .error (.valueError "")
  else if ¬ (loadAddr ≤ entryAddr ∧ entryAddr < endAddr) then .error (.valueError "")
  else if extraPhdrs.length &&& 0x1f ≠ 0 then .error (.valueError "")
  else if elftinyVaddr loadAddr extraPhdrs % 0x1000 ≠ 0 then .error (.assertion "")
  else
    match packFields (elftinyFields textData loadAddr entryAddr endAddr extraPhdrs eOsabi) with
    | .error e => .error e
    | .ok result =>
      if (result.length : Int) ≠ getElftiny32Size textData.length loadAddr then
        .error (.assertion "Bad output size of build_elftiny32.")
      else .ok result

/-! ## Fields without a look back -/

variable {fields : List (String × Field)} {data : List UInt8} {value : Int} {n size : Nat}

/-- A field whose bytes do not depend on what is in front of it. -/
def Field.IsOwn : Field → Prop
  | .bytes _ _ | .num _ _ | .str _ => True
  | _ => False

/-- The bytes of such a field. -/
def Field.own : Field → List UInt8
  | .bytes len value => value.take len ++ List.replicate (len - value.length) 0
  | .num size value => leBytes value size
  | .str value => value
  | _ => []

/-- A number fits in its format. -/
def Field.Fits : Field → Prop
  | .num size value => value < 256 ^ size
  | _ => True

@[simp] theorem Field.fits_int : (Field.int size value).Fits ↔ 0 ≤ value ∧ value < 256 ^ size := by
  simp only [Field.int, Field.Fits]
  split
  · next hneg => simp only [lt_irrefl, false_iff, not_and_or, not_le, hneg, true_or]
  · next hpos =>
    rw [not_lt] at hpos
    rw [Int.toNat_lt hpos]
    push_cast
    exact ⟨fun h => ⟨hpos, h⟩, fun h => h.2⟩

theorem packField_own {field : Field} {output out : List (List UInt8)} (h : field.IsOwn) :
    packField output field = .ok out ↔ field.Fits ∧ out = output ++ [field.own] := by
  cases field with
  | bytes len value => simp only [packField, Field.Fits, Field.own, Except.ok.injEq, true_and, eq_comm]
  | num size value =>
    simp only [packField, Field.Fits, Field.own]
    split
    · next hfit => simp only [hfit, Except.ok.injEq, true_and, eq_comm]
    · next hfit => simp only [hfit, reduceCtorEq, false_and]
  | str value => simp only [packField, Field.Fits, Field.own, Except.ok.injEq, true_and, eq_comm]
  | pad value => exact absurd h id
  | phcs value => exact absurd h id
  | minsize value => exact absurd h id

theorem packOutput_own {output out : List (List UInt8)} (h : ∀ f ∈ fields, f.2.IsOwn) :
    packOutput output fields = .ok out ↔
      (∀ f ∈ fields, f.2.Fits) ∧ out = output ++ fields.map (·.2.own) := by
  induction fields generalizing output with
  | nil => simp [packOutput, eq_comm]
  | cons field fields ih =>
    obtain ⟨name, field⟩ := field
    obtain ⟨hfield, hfields⟩ := List.forall_mem_cons.mp h
    rw [List.forall_mem_cons, List.map_cons]
    constructor
    · intro hrun
      obtain ⟨mid, hmid, hrest⟩ := packOutput_cons hrun
      obtain ⟨hfit, rfl⟩ := (packField_own hfield).mp hmid
      obtain ⟨hfits, rfl⟩ := (ih hfields).mp hrest
      exact ⟨⟨hfit, hfits⟩, by rw [List.append_assoc, List.singleton_append]⟩
    · rintro ⟨⟨hfit, hfits⟩, rfl⟩
      rw [packOutput, (packField_own hfield).mpr ⟨hfit, rfl⟩]
      exact (ih hfields).mpr ⟨hfits, by rw [List.append_assoc, List.singleton_append]⟩

/-- Such fields are packed one behind the other, exactly when all of them fit. -/
theorem packFields_own (h : ∀ f ∈ fields, f.2.IsOwn) :
    packFields fields = .ok data ↔
      (∀ f ∈ fields, f.2.Fits) ∧ data = fields.flatMap (·.2.own) := by
  rw [packFields]
  constructor
  · intro hrun
    cases hout : packOutput [] fields with
    | error e =>
      rw [hout] at hrun
      cases hrun
    | ok out =>
      rw [hout] at hrun
      cases hrun
      obtain ⟨hfits, rfl⟩ := (packOutput_own h).mp hout
      exact ⟨hfits, (List.flatMap_def ..).symm⟩
  · rintro ⟨hfits, rfl⟩
    rw [(packOutput_own h).mpr ⟨hfits, rfl⟩, Except.map, List.nil_append, List.flatMap_def]

/-- A number is read where its field is. -/
theorem readLe_own {name : String} {off v : Nat} (hfield : fields[n]? = some (name, .num size v))
    (hfit : v < 256 ^ size) (hoff : ((fields.take n).flatMap (·.2.own)).length = off) :
    readLe (fields.flatMap (·.2.own)) off size = v := by
  obtain ⟨hn, hget⟩ := List.getElem?_eq_some_iff.mp hfield
  have hsplit : fields = fields.take n ++ (name, .num size v) :: fields.drop (n + 1) := by
    rw [← hget, List.getElem_cons_drop, List.take_append_drop]
  apply readLe_of_holdsAt _ hfit
  intro i c hc
  have hi := (List.getElem?_eq_some_iff.mp hc).1
  rw [hsplit, List.flatMap_append, List.flatMap_cons, ← hoff,
    List.getElem?_append_right (Nat.le_add_right _ _), Nat.add_sub_cancel_left]
  exact (List.getElem?_append_left hi).trans hc

/-- So is a number that may be negative. -/
theorem readLe_own_int {name : String} {off : Nat}
    (hfield : fields[n]? = some (name, .int size value)) (hfits : ∀ f ∈ fields, f.2.Fits)
    (hoff : ((fields.take n).flatMap (·.2.own)).length = off) :
    (readLe (fields.flatMap (·.2.own)) off size : Int) = value := by
  have hfit := hfits _ (List.mem_of_getElem? hfield)
  obtain ⟨hpos, -⟩ := Field.fits_int.mp hfit
  rw [readLe_own hfield hfit hoff, if_neg (not_lt.mpr hpos), Int.toNat_of_nonneg hpos]

/-! ## The result -/

variable {textData extraPhdrs out : List UInt8} {loadAddr entryAddr endAddr eOsabi : Int}

/-- The ELF header that is read back. -/
def elftinyHeader (entryAddr : Int) (extraPhdrs : List UInt8) (eOsabi : Int) : Ehdr where
  eiMag := elfMag
  eiClass := 1
  eiData := 1
  eiVersion := 1
  eOsabi := eOsabi.toNat
  eAbiversion := 0
  eType := 2
  eMachine := 3
  eVersion := 1
  eEntry := entryAddr.toNat
  ePhoff := 0x34
  eShoff := 0
  eFlags := 0
  eEhsize := 0x34
  ePhentsize := 0x20
  ePhnum := 1 + extraPhdrs.length >>> 5
  eShentsize := 0
  eShnum := 0
  eShstrndx := 0

/-- An executable whose first segment begins on a page, has the text at its address, and reaches
the end address in memory. -/
structure IsElftiny (textData : List UInt8) (loadAddr entryAddr endAddr : Int)
    (extraPhdrs : List UInt8) (eOsabi : Int) (out : List UInt8) : Prop where
  ehdr : Ehdr.parse out = elftinyHeader entryAddr extraPhdrs eOsabi
  load : (Phdr.parse out 0x34).pType = ptLoad
  placed : ∃ off, HoldsAt out off textData ∧ (Phdr.parse out 0x34).pOffset ≤ off ∧
    off + textData.length ≤ (Phdr.parse out 0x34).pOffset + (Phdr.parse out 0x34).pFilesz ∧
    ((Phdr.parse out 0x34).pVaddr : Int) + (off - (Phdr.parse out 0x34).pOffset) = loadAddr
  page : (Phdr.parse out 0x34).pVaddr % 0x1000 = 0
  reaches : ((Phdr.parse out 0x34).pVaddr : Int) + (Phdr.parse out 0x34).pMemsz = endAddr
  extra : HoldsAt out 0x54 extraPhdrs
  length_eq : (out.length : Int) = getElftiny32Size textData.length loadAddr

theorem elftinyFields_isOwn :
    ∀ f ∈ elftinyFields textData loadAddr entryAddr endAddr extraPhdrs eOsabi, f.2.IsOwn := by
  simp [elftinyFields, elftinyEhdr, elftinyPhdr, Field.int, Field.b, Field.h, Field.l, Field.IsOwn]

theorem elftinyFields_fit_iff :
    (∀ f ∈ elftinyFields textData loadAddr entryAddr endAddr extraPhdrs eOsabi, f.2.Fits) ↔
      (0 ≤ eOsabi ∧ eOsabi < 0x100) ∧ (0 ≤ entryAddr ∧ entryAddr < 0x100000000) ∧
        1 + extraPhdrs.length / 0x20 < 0x10000 ∧
        (0 ≤ elftinyVaddr loadAddr extraPhdrs ∧
          elftinyVaddr loadAddr extraPhdrs < 0x100000000) ∧
        (0 ≤ loadAddr + textData.length - elftinyVaddr loadAddr extraPhdrs ∧
          loadAddr + textData.length - elftinyVaddr loadAddr extraPhdrs < 0x100000000) ∧
        (0 ≤ endAddr - elftinyVaddr loadAddr extraPhdrs ∧
          endAddr - elftinyVaddr loadAddr extraPhdrs < 0x100000000) := by
  simp only [elftinyFields, elftinyEhdr, elftinyPhdr, Field.b, Field.h, Field.l,
    List.forall_mem_append, List.forall_mem_cons, Field.fits_int, Nat.shiftRight_eq_div_pow]
  simp [Field.Fits, and_assoc]
  tauto

/-- The page of the headers. -/
theorem elftinyVaddr_eq : elftinyVaddr loadAddr extraPhdrs =
    (loadAddr - (0x54 + extraPhdrs.length)) / 0x1000 * 0x1000 := by
  simp only [elftinyVaddr, elftinyPrefix, List.length_replicate]
  omega

/-- The text is behind the headers and the prefix. -/
theorem length_elftinyPrefix : ((elftinyPrefix loadAddr extraPhdrs).length : Int) =
    loadAddr - (0x54 + extraPhdrs.length) - elftinyVaddr loadAddr extraPhdrs := by
  rw [elftinyVaddr]
  omega

/-- The two sizes are the same exactly when the additional program headers fit on the first page. -/
theorem elftiny_size_iff :
    (0x54 + extraPhdrs.length + (elftinyPrefix loadAddr extraPhdrs).length + textData.length : Int) =
        getElftiny32Size textData.length loadAddr ↔
      (extraPhdrs.length : Int) ≤ (loadAddr - 0x54) % 0x1000 := by
  simp only [elftinyPrefix, List.length_replicate, getElftiny32Size]
  omega

/-- What the checks on the arguments let through. -/
structure ElftinyArgs (textData : List UInt8) (loadAddr entryAddr endAddr : Int)
    (extraPhdrs : List UInt8) : Prop where
  load_pos : 0 < loadAddr
  text_le : textData.length ≤ endAddr - loadAddr
  entry_ge : loadAddr ≤ entryAddr
  entry_lt : entryAddr < endAddr
  whole : extraPhdrs.length &&& 0x1f = 0

/-- The additional program headers fit on the page in front of the text, the page is not below
zero, and all numbers fit in their fields. -/
structure ElftinyFits (loadAddr entryAddr endAddr : Int) (extraPhdrs : List UInt8)
    (eOsabi : Int) : Prop where
  osabi : 0 ≤ eOsabi ∧ eOsabi < 0x100
  room : extraPhdrs.length ≤ (loadAddr - 0x54) % 0x1000
  low : 0x54 + extraPhdrs.length ≤ loadAddr
  entry : entryAddr < 0x100000000
  top : endAddr - (loadAddr - (0x54 + extraPhdrs.length)) / 0x1000 * 0x1000 < 0x100000000

/-- The numbers of the fields fit exactly under the condition, as far as it is about them. -/
theorem ElftinyArgs.fields_fit (h : ElftinyArgs textData loadAddr entryAddr endAddr extraPhdrs)
    (hroom : extraPhdrs.length ≤ (loadAddr - 0x54) % 0x1000) :
    (∀ f ∈ elftinyFields textData loadAddr entryAddr endAddr extraPhdrs eOsabi, f.2.Fits) ↔
      ElftinyFits loadAddr entryAddr endAddr extraPhdrs eOsabi := by
  obtain ⟨hpos, htext, hge, hlt, -⟩ := h
  rw [elftinyFields_fit_iff, elftinyVaddr_eq]
  constructor
  · rintro ⟨hosabi, hentry, -, hvaddr, -, hmem⟩
    exact ⟨hosabi, hroom, by omega, hentry.2, hmem.2⟩
  · rintro ⟨hosabi, -, hlow, hentry, htop⟩
    refine ⟨hosabi, ⟨?_, hentry⟩, ?_, ⟨?_, ?_⟩, ⟨?_, ?_⟩, ?_, htop⟩ <;> omega

/-- The packed fields. -/
def elftinyOut (textData : List UInt8) (loadAddr entryAddr endAddr : Int)
    (extraPhdrs : List UInt8) (eOsabi : Int) : List UInt8 :=
  (elftinyFields textData loadAddr entryAddr endAddr extraPhdrs eOsabi).flatMap (·.2.own)

theorem length_elftinyOut :
    (elftinyOut textData loadAddr entryAddr endAddr extraPhdrs eOsabi).length =
      0x54 + extraPhdrs.length + (elftinyPrefix loadAddr extraPhdrs).length + textData.length := by
  simp only [elftinyOut, elftinyFields, elftinyEhdr, elftinyPhdr, Field.b, Field.h, Field.l,
    Field.int, List.flatMap_append, List.flatMap_cons, List.flatMap_nil, Field.own,
    List.length_append, length_leBytes, List.length_nil, List.length_take, List.length_replicate,
    elfMag, List.length_cons]
  omega

/-- A run returns the packed fields, exactly under the condition. -/
theorem ElftinyArgs.build_iff (h : ElftinyArgs textData loadAddr entryAddr endAddr extraPhdrs) :
    buildElftiny32 textData loadAddr entryAddr endAddr extraPhdrs eOsabi = .ok out ↔
      ElftinyFits loadAddr entryAddr endAddr extraPhdrs eOsabi ∧
        out = elftinyOut textData loadAddr entryAddr endAddr extraPhdrs eOsabi := by
  have hpage : elftinyVaddr loadAddr extraPhdrs % 0x1000 = 0 := by
    rw [elftinyVaddr_eq]
    exact Int.mul_emod_left _ _
  have hlen := @length_elftinyOut textData extraPhdrs loadAddr entryAddr endAddr eOsabi
  have hsize := @elftiny_size_iff textData extraPhdrs loadAddr
  rw [buildElftiny32, if_neg (not_le.mpr h.load_pos), if_neg (not_lt.mpr h.text_le),
    if_neg (not_not.mpr ⟨h.entry_ge, h.entry_lt⟩), if_neg (not_not.mpr h.whole),
    if_neg (not_not.mpr hpage)]
  constructor
  · intro hrun
    split at hrun
    · cases hrun
    next result hpack =>
    obtain ⟨hfits, rfl⟩ := (packFields_own elftinyFields_isOwn).mp hpack
    obtain ⟨hsame, hout⟩ := ite_error_eq_ok hrun
    rw [not_not, ← elftinyOut, hlen] at hsame
    push_cast at hsame
    refine ⟨(h.fields_fit (hsize.mp hsame)).mp hfits, ?_⟩
    cases hout
    rfl
  · rintro ⟨hfits, rfl⟩
    have hpack := (packFields_own elftinyFields_isOwn).mpr ⟨(h.fields_fit hfits.room).mpr hfits, rfl⟩
    rw [hpack]
    dsimp only
    rw [← elftinyOut, hlen, if_neg]
    push_cast
    exact not_not.mpr (hsize.mpr hfits.room)

/-- The first program header that is read back. -/
theorem parse_elftinyOut
    (hall : ∀ f ∈ elftinyFields textData loadAddr entryAddr endAddr extraPhdrs eOsabi, f.2.Fits) :
    (Phdr.parse (elftinyOut textData loadAddr entryAddr endAddr extraPhdrs eOsabi) 0x34).map
        Int.ofNat =
      ⟨1, 0, elftinyVaddr loadAddr extraPhdrs, elftinyVaddr loadAddr extraPhdrs,
        loadAddr + textData.length - elftinyVaddr loadAddr extraPhdrs,
        endAddr - elftinyVaddr loadAddr extraPhdrs, 7, 0x1000⟩ := by
  simp only [Phdr.parse, Phdr.map, Int.ofNat_eq_natCast, Phdr.mk.injEq, elftinyOut]
  refine ⟨?_, ?_, ?_, ?_, ?_, ?_, ?_, ?_⟩
  · exact congrArg Nat.cast (@readLe_own _ 20 4 "p_type" 0x34 1 rfl (by decide) rfl)
  · exact congrArg Nat.cast (@readLe_own _ 21 4 "p_offset" 0x38 0 rfl (by decide) rfl)
  · exact @readLe_own_int _ _ 22 4 "p_vaddr" 0x3c rfl hall rfl
  · exact @readLe_own_int _ _ 23 4 "p_paddr" 0x40 rfl hall rfl
  · exact @readLe_own_int _ _ 24 4 "p_filesz" 0x44 rfl hall rfl
  · exact @readLe_own_int _ _ 25 4 "p_memsz" 0x48 rfl hall rfl
  · exact congrArg Nat.cast (@readLe_own _ 26 4 "p_flags" 0x4c 7 rfl (by decide) rfl)
  · exact congrArg Nat.cast (@readLe_own _ 27 4 "p_align" 0x50 0x1000 rfl (by decide) rfl)

/-- The ELF header that is read back. -/
theorem parse_elftinyOut_ehdr
    (hall : ∀ f ∈ elftinyFields textData loadAddr entryAddr endAddr extraPhdrs eOsabi, f.2.Fits) :
    Ehdr.parse (elftinyOut textData loadAddr entryAddr endAddr extraPhdrs eOsabi) =
      elftinyHeader entryAddr extraPhdrs eOsabi := by
  have hnum : 1 + extraPhdrs.length >>> 5 < 256 ^ 2 :=
    hall ("e_phnum", .h (1 + extraPhdrs.length >>> 5)) (List.mem_of_getElem? (i := 16) rfl)
  simp only [Ehdr.parse, elftinyHeader, elftinyOut, Ehdr.mk.injEq]
  refine ⟨rfl, ?_, ?_, ?_, ?_, ?_, ?_, ?_, ?_, ?_, ?_, ?_, ?_, ?_, ?_, ?_, ?_, ?_, ?_⟩
  · exact @readLe_own _ 1 1 "ei_class" 4 1 rfl (by decide) rfl
  · exact @readLe_own _ 2 1 "ei_data" 5 1 rfl (by decide) rfl
  · exact @readLe_own _ 3 1 "ei_version" 6 1 rfl (by decide) rfl
  · exact congrArg Int.toNat (@readLe_own_int _ _ 4 1 "e_osabi" 7 rfl hall rfl)
  · exact @readLe_own _ 5 1 "e_abiversion" 8 0 rfl (by decide) rfl
  · exact @readLe_own _ 7 2 "e_type" 0x10 2 rfl (by decide) rfl
  · exact @readLe_own _ 8 2 "e_machine" 0x12 3 rfl (by decide) rfl
  · exact @readLe_own _ 9 4 "e_version" 0x14 1 rfl (by decide) rfl
  · exact congrArg Int.toNat (@readLe_own_int _ _ 10 4 "e_entry" 0x18 rfl hall rfl)
  · exact @readLe_own _ 11 4 "e_phoff" 0x1c 0x34 rfl (by decide) rfl
  · exact @readLe_own _ 12 4 "e_shoff" 0x20 0 rfl (by decide) rfl
  · exact @readLe_own _ 13 4 "e_flags" 0x24 0 rfl (by decide) rfl
  · exact @readLe_own _ 14 2 "e_ehsize" 0x28 0x34 rfl (by decide) rfl
  · exact @readLe_own _ 15 2 "e_phentsize" 0x2a 0x20 rfl (by decide) rfl
  · exact @readLe_own _ 16 2 "e_phnum" 0x2c _ rfl hnum rfl
  · exact @readLe_own _ 17 2 "e_shentsize" 0x2e 0 rfl (by decide) rfl
  · exact @readLe_own _ 18 2 "e_shnum" 0x30 0 rfl (by decide) rfl
  · exact @readLe_own _ 19 2 "e_shstrndx" 0x32 0 rfl (by decide) rfl

private theorem holdsAt_self (xs : List UInt8) : HoldsAt xs 0 xs := fun i c hc => by
  rwa [Nat.zero_add]

/-- Behind the headers there are the additional program headers, the prefix and the text. -/
theorem elftinyOut_holds :
    HoldsAt (elftinyOut textData loadAddr entryAddr endAddr extraPhdrs eOsabi) 0x54 extraPhdrs ∧
      HoldsAt (elftinyOut textData loadAddr entryAddr endAddr extraPhdrs eOsabi)
        (0x54 + extraPhdrs.length + (elftinyPrefix loadAddr extraPhdrs).length) textData := by
  have hout : elftinyOut textData loadAddr entryAddr endAddr extraPhdrs eOsabi =
      ((elftinyEhdr entryAddr extraPhdrs eOsabi ++ elftinyPhdr textData loadAddr endAddr
        (elftinyVaddr loadAddr extraPhdrs)).flatMap (·.2.own)) ++
        (extraPhdrs ++ (elftinyPrefix loadAddr extraPhdrs ++ textData)) := by
    simp [elftinyOut, elftinyFields, Field.own]
  rw [hout]
  have hrest := (holdsAt_self (((elftinyEhdr entryAddr extraPhdrs eOsabi ++ elftinyPhdr textData
    loadAddr endAddr (elftinyVaddr loadAddr extraPhdrs)).flatMap (·.2.own)) ++
    (extraPhdrs ++ (elftinyPrefix loadAddr extraPhdrs ++ textData)))).right
  exact ⟨hrest.left, hrest.right.right⟩

/-- What is packed is an executable with the text at its address. -/
theorem ElftinyArgs.isElftiny (h : ElftinyArgs textData loadAddr entryAddr endAddr extraPhdrs)
    (hfits : ElftinyFits loadAddr entryAddr endAddr extraPhdrs eOsabi) :
    IsElftiny textData loadAddr entryAddr endAddr extraPhdrs eOsabi
      (elftinyOut textData loadAddr entryAddr endAddr extraPhdrs eOsabi) := by
  have hall := (h.fields_fit hfits.room).mpr hfits
  have hphdr := parse_elftinyOut hall
  simp only [Phdr.map, Int.ofNat_eq_natCast, Phdr.mk.injEq] at hphdr
  obtain ⟨htype, hoffset, hvaddr, -, hfilesz, hmemsz, -, -⟩ := hphdr
  obtain ⟨hextra, htext⟩ := @elftinyOut_holds textData extraPhdrs loadAddr entryAddr endAddr eOsabi
  have hprefix := @length_elftinyPrefix extraPhdrs loadAddr
  refine ⟨parse_elftinyOut_ehdr hall, Int.ofNat.inj htype, ⟨_, htext, ?_, ?_, ?_⟩, ?_, ?_, hextra,
    ?_⟩
  · omega
  · omega
  · push_cast
    omega
  · have hpage := @elftinyVaddr_eq extraPhdrs loadAddr
    omega
  · omega
  · rw [length_elftinyOut]
    push_cast
    exact elftiny_size_iff.mpr hfits.room

/-- Arguments that pass the checks are made into an executable with the text at its address and of
the size that is computed for it, exactly when the additional program headers fit on the first page
in front of the text and that page and all numbers are in range. -/
theorem buildElftiny32_iff (textData : List UInt8) (loadAddr entryAddr endAddr : Int)
    (extraPhdrs : List UInt8) (eOsabi : Int)
    (h : ElftinyArgs textData loadAddr entryAddr endAddr extraPhdrs) :
    (∃ out, buildElftiny32 textData loadAddr entryAddr endAddr extraPhdrs eOsabi = .ok out ∧
        IsElftiny textData loadAddr entryAddr endAddr extraPhdrs eOsabi out) ↔
      ElftinyFits loadAddr entryAddr endAddr extraPhdrs eOsabi := by
  constructor
  · rintro ⟨out, hrun, -⟩
    exact (h.build_iff.mp hrun).1
  · intro hfits
    exact ⟨_, h.build_iff.mpr ⟨hfits, rfl⟩, h.isElftiny hfits⟩

/-- A text of one byte, with one additional program header. -/
theorem elftinyArgs_oneByte (loadAddr : Int) (hpos : 0 < loadAddr) :
    ElftinyArgs [0xc3] loadAddr loadAddr (loadAddr + 1) (List.replicate 0x20 0) :=
  ⟨hpos, by simp, le_rfl, Int.lt_succ loadAddr, rfl⟩

theorem buildElftiny32_iff_oneByte :
    (∃ out, buildElftiny32 [0xc3] 0x1074 0x1074 0x1075 (List.replicate 0x20 0) 3 = .ok out ∧
        IsElftiny [0xc3] 0x1074 0x1074 0x1075 (List.replicate 0x20 0) 3 out) ↔
      ElftinyFits 0x1074 0x1074 0x1075 (List.replicate 0x20 0) 3 :=
  buildElftiny32_iff [0xc3] 0x1074 0x1074 0x1075 (List.replicate 0x20 0) 3
    (elftinyArgs_oneByte 0x1074 (by decide))

/-- A page of headers that ends where the text begins has no room for an additional program
header: the result would have another page. -/
theorem not_buildElftiny32 :
    ¬ ∀ (textData : List UInt8) (loadAddr entryAddr endAddr : Int) (extraPhdrs : List UInt8),
      ElftinyArgs textData loadAddr entryAddr endAddr extraPhdrs →
        ∃ out, buildElftiny32 textData loadAddr entryAddr endAddr extraPhdrs 3 = .ok out ∧
          IsElftiny textData loadAddr entryAddr endAddr extraPhdrs 3 out := by
  intro hclaim
  have hargs := elftinyArgs_oneByte 0x1054 (by decide)
  obtain ⟨out, hrun, -⟩ := hclaim [0xc3] 0x1054 0x1054 0x1055 (List.replicate 0x20 0) hargs
  have hroom := (hargs.build_iff.mp hrun).1.room
  rw [List.length_replicate] at hroom
  exact absurd hroom (by decide)

end Liigboot.Tools
