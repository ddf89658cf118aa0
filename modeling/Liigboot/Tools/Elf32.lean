import Liigboot.Lib.Bytes

/-!
# Headers of ELF files

The two tools that read executables unpack the same two headers, with the same names for the
fields.
-/

namespace Liigboot.Tools

/-- How the scripts fail. -/
inductive Failure
  | valueError (args : String)
  | assertion (args : String)
  | notImplemented
  | index
  | struct
  deriving DecidableEq, Repr

/-- A run of two parts that succeeds has run both. -/
theorem bind_eq_ok {α β : Type} {x : Except Failure α} {f : α → Except Failure β} {r : β}
    (h : x >>= f = .ok r) : ∃ a, x = .ok a ∧ f a = .ok r := by
  cases x with
  | error e => cases h
  | ok a => exact ⟨a, rfl, h⟩

/-- A check that a run has passed. -/
theorem ite_error_eq_ok {α : Type} {c : Prop} [Decidable c] {e : Failure} {x : Except Failure α}
    {a : α} (h : (if c then .error e else x) = .ok a) : ¬ c ∧ x = .ok a := by
  split at h
  · cases h
  · next hc => exact ⟨hc, h⟩

/-- A run that may end early. -/
theorem ite_ok_eq_ok {α : Type} {c : Prop} [Decidable c] {b : α} {x : Except Failure α} {a : α}
    (h : (if c then .ok b else x) = .ok a) : c ∧ b = a ∨ ¬ c ∧ x = .ok a := by
  split at h
  · next hc =>
    cases h
    exact .inl ⟨hc, rfl⟩
  · next hc => exact .inr ⟨hc, h⟩

/-- The fields of `EHDR_FIELDS` that the tools look at. -/
structure Ehdr where
  eiMag : List UInt8
  eiClass : Nat
  eiData : Nat
  eiVersion : Nat
  eOsabi : Nat
  eAbiversion : Nat
  eType : Nat
  eMachine : Nat
  eVersion : Nat
  eEntry : Nat
  ePhoff : Nat
  eShoff : Nat
  eFlags : Nat
  eEhsize : Nat
  ePhentsize : Nat
  ePhnum : Nat
  eShentsize : Nat
  eShnum : Nat
  eShstrndx : Nat
  deriving DecidableEq, Repr

/-- `struct.unpack` of the first `0x34` bytes. -/
def Ehdr.parse (data : List UInt8) : Ehdr where
  eiMag := slice data 0 4
  eiClass := readLe data 4 1
  eiData := readLe data 5 1
  eiVersion := readLe data 6 1
  eOsabi := readLe data 7 1
  eAbiversion := readLe data 8 1
  eType := readLe data 0x10 2
  eMachine := readLe data 0x12 2
  eVersion := readLe data 0x14 4
  eEntry := readLe data 0x18 4
  ePhoff := readLe data 0x1c 4
  eShoff := readLe data 0x20 4
  eFlags := readLe data 0x24 4
  eEhsize := readLe data 0x28 2
  ePhentsize := readLe data 0x2a 2
  ePhnum := readLe data 0x2c 2
  eShentsize := readLe data 0x2e 2
  eShnum := readLe data 0x30 2
  eShstrndx := readLe data 0x32 2

/-- `'\x7fELF'` -/
def elfMag : List UInt8 := [0x7f, 0x45, 0x4c, 0x46]

/-- `PHDR_FIELDS`, as they are unpacked or with the numbers that a tool computes of them. -/
structure Phdr (ι : Type) where
  pType : ι
  pOffset : ι
  pVaddr : ι
  pPaddr : ι
  pFilesz : ι
  pMemsz : ι
  pFlags : ι
  pAlign : ι
  deriving DecidableEq, Repr

/-- `struct.unpack('<8L', data[i : i + 0x20])` -/
def Phdr.parse (data : List UInt8) (i : Nat) : Phdr Nat where
  pType := readLe data i 4
  pOffset := readLe data (i + 4) 4
  pVaddr := readLe data (i + 8) 4
  pPaddr := readLe data (i + 0xc) 4
  pFilesz := readLe data (i + 0x10) 4
  pMemsz := readLe data (i + 0x14) 4
  pFlags := readLe data (i + 0x18) 4
  pAlign := readLe data (i + 0x1c) 4

/-- The same header with other numbers. -/
def Phdr.map {ι κ : Type} (f : ι → κ) (phdr : Phdr ι) : Phdr κ where
  pType := f phdr.pType
  pOffset := f phdr.pOffset
  pVaddr := f phdr.pVaddr
  pPaddr := f phdr.pPaddr
  pFilesz := f phdr.pFilesz
  pMemsz := f phdr.pMemsz
  pFlags := f phdr.pFlags
  pAlign := f phdr.pAlign

/-- The fields in the order of `PHDR_FIELDS`. -/
def Phdr.values {ι : Type} (phdr : Phdr ι) : List ι :=
  [phdr.pType, phdr.pOffset, phdr.pVaddr, phdr.pPaddr, phdr.pFilesz, phdr.pMemsz, phdr.pFlags,
    phdr.pAlign]

/-- `struct.pack('<8L', ...)`. Each number must fit in 32 bits. -/
def Phdr.pack (phdr : Phdr Int) : Except Failure (List UInt8) :=
  if ∀ v ∈ phdr.values, 0 ≤ v ∧ v < 2 ^ 32 then
    .ok (phdr.values.flatMap fun v => leBytes v.toNat 4)
  else .error .struct

/-- A number is read where its bytes are. -/
theorem readLe_of_holdsAt {data : List UInt8} {off len n : Nat}
    (h : HoldsAt data off (leBytes n len)) (hn : n < 256 ^ len) : readLe data off len = n := by
  have hread := @HoldsAt.readLe data (leBytes n len) off h 0 len (by
    rw [Nat.zero_add, length_leBytes])
  rw [Nat.add_zero] at hread
  rw [hread, readLe, slice, List.drop_zero, List.take_of_length_le (by rw [length_leBytes]),
    leNat_leBytes, Nat.mod_eq_of_lt hn]

/-- Numbers of 32 bits that are stored one behind the other. -/
theorem readLe_of_holdsAt_flatMap {data : List UInt8} {vs : List Int} {off n : Nat} {v : Int}
    (hfit : ∀ v ∈ vs, 0 ≤ v ∧ v < 2 ^ 32)
    (h : HoldsAt data off (vs.flatMap fun v => leBytes v.toNat 4)) (hv : vs[n]? = some v) :
    (readLe data (off + 4 * n) 4 : Int) = v := by
  induction vs generalizing off n with
  | nil => cases hv
  | cons w vs ih =>
    rw [List.flatMap_cons] at h
    cases n with
    | zero =>
      obtain rfl : w = v := Option.some.inj hv
      obtain ⟨h0, hlt⟩ := hfit w List.mem_cons_self
      rw [Nat.mul_zero, Nat.add_zero, readLe_of_holdsAt h.left (by omega)]
      omega
    | succ n =>
      have hrest := h.right
      rw [length_leBytes] at hrest
      have hoff : off + 4 * (n + 1) = off + 4 + 4 * n := by omega
      rw [hoff]
      exact ih (fun u hu => hfit u (List.mem_cons_of_mem w hu)) hrest hv

theorem Phdr.pack_ok {phdr : Phdr Int} {bytes : List UInt8} (h : phdr.pack = .ok bytes) :
    (∀ v ∈ phdr.values, 0 ≤ v ∧ v < 2 ^ 32) ∧
      bytes = phdr.values.flatMap fun v => leBytes v.toNat 4 := by
  unfold pack at h
  split at h
  · next hfit =>
    cases h
    exact ⟨hfit, rfl⟩
  · cases h

theorem Phdr.length_pack {phdr : Phdr Int} {bytes : List UInt8} (h : phdr.pack = .ok bytes) :
    bytes.length = 0x20 := by
  rw [(pack_ok h).2]
  rfl

/-- What was packed is unpacked again. -/
theorem Phdr.parse_pack {phdr : Phdr Int} {bytes data : List UInt8} {i : Nat}
    (h : phdr.pack = .ok bytes) (hold : HoldsAt data i bytes) :
    (Phdr.parse data i).map Int.ofNat = phdr := by
  obtain ⟨hfit, rfl⟩ := pack_ok h
  have hread : ∀ n v, phdr.values[n]? = some v → (readLe data (i + 4 * n) 4 : Int) = v :=
    fun n v hv => readLe_of_holdsAt_flatMap hfit hold hv
  cases phdr
  simp only [Phdr.map, Phdr.parse, Int.ofNat_eq_natCast, Phdr.mk.injEq]
  exact ⟨hread 0 _ rfl, hread 1 _ rfl, hread 2 _ rfl, hread 3 _ rfl, hread 4 _ rfl, hread 5 _ rfl,
    hread 6 _ rfl, hread 7 _ rfl⟩

end Liigboot.Tools
