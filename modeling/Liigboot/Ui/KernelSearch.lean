import Liigboot.Config.Store
import Liigboot.Lib.Window
import Mathlib.Data.List.GetD
import Mathlib.Data.List.TakeWhile

/-!
# The search for a kernel

`get_kernel` of `ui.inc` looks for the name that was typed, and then for the name with each of the
extensions of `diskfs.inc`, which it stores behind the name in `KernelName`; `kernel_good` tells
from the last bytes of the name that was found what kind of image it is.
-/

namespace Liigboot.Ui

open Liigboot.Config

/-! ## The source -/

/-- `KernelName`, by its offset from `FKeyName`, which is in front of it. -/
def kernelName : Nat := 12 * filenameMax

/-- The text at `KernelName`, up to the NUL behind the buffer. -/
def nameAt (mem : Nat → UInt8) : List UInt8 :=
  cString ((List.range (filenameMax + 1)).map fun i => mem (kernelName + i))

/-- `repne scasb`, with `cx` and `di`: where the byte is. -/
def repneScasb (mem : Nat → UInt8) (al : UInt8) : Nat → Nat → Option Nat
  | 0, _ => none
  | cx + 1, di => if mem di = al then some di else repneScasb mem al cx (di + 1)

/-- `exten_table` with four of the null bytes behind it: `'.cbt'`, `'.bss'`, `'.bs'`, `'.com'` and
`'.c32'`. -/
def extenTable : List (List UInt8) :=
  [[0x2E, 0x63, 0x62, 0x74], [0x2E, 0x62, 0x73, 0x73], [0x2E, 0x62, 0x73, 0],
    [0x2E, 0x63, 0x6F, 0x6D], [0x2E, 0x63, 0x33, 0x32], [0, 0, 0, 0]]

/-- How the search ends. -/
inductive Search
  | kernelGood (mem : Nat → UInt8)
  | badKernel (mem : Nat → UInt8)

variable (found : List UInt8 → Bool)

/-- `.search_loop`, with the entries of the table from `bx` on. `found` is `pm_searchdir`. -/
def searchLoop (kernelExtPtr : Nat) : List (List UInt8) → (Nat → UInt8) → Search
  | [], mem => .badKernel mem
  | eax :: table, mem =>
    if found (nameAt mem) then .kernelGood mem
    else
      searchLoop kernelExtPtr table
        (put (repMovsbFrom mem eax kernelExtPtr) (kernelExtPtr + 4) 0)

/-- `get_kernel`. -/
def getKernel (mem : Nat → UInt8) : Search :=
  let mem := put mem (kernelName + filenameMax) 0
  if mem kernelName ≤ 0x20 then .badKernel mem
  else
    let cx := filenameMax - 5 -- Need 4 chars + null
    searchLoop found ((repneScasb mem 0 cx kernelName).getD (kernelName + cx)) extenTable mem

/-- Kinds of images. -/
inductive Image
  | comboot
  | com32
  | bssSector
  | bootsector
  | badImage
  | linuxKernel
  | configFile
  deriving DecidableEq, Repr

/-- `is_unknown_filetype`, with the bytes of `ecx`, the lowest one first. -/
def isUnknownFiletype (ecx : List UInt8) : Image :=
  let ecx := List.zipWith (· ||| ·) ecx [0, 0x20, 0x20, 0x20] -- Force lower case (except dot)
  if ecx = [0x2E, 0x63, 0x6F, 0x6D] then .comboot -- '.com'
  else if ecx = [0x2E, 0x63, 0x62, 0x74] then .comboot -- '.cbt'
  else if ecx = [0x2E, 0x63, 0x33, 0x32] then .com32 -- '.c32'
  else if ecx = [0x2E, 0x62, 0x73, 0x73] then .bssSector -- '.bss'
  else if ecx = [0x2E, 0x62, 0x69, 0x6E] then .bootsector -- '.bin'
  else
    let ecx := ecx.drop 1 ++ [0]
    if ecx = [0x2E, 0x62, 0x73, 0] then .bootsector -- '.bs'
    else
      let ecx := ecx.drop 1 ++ [0]
      if ecx.take 2 = [0x2E, 0x30] then .bootsector -- '.0'
      else .linuxKernel

/-- `kernel_good`, with `KernelType` by `kerneltype_table`. -/
def kernelGood (mem : Nat → UInt8) (kernelType : Nat) : Image :=
  let di := (repneScasb mem 0 filenameMax kernelName).getD (kernelName + filenameMax)
  let ecx := [mem (di - 4), mem (di - 3), mem (di - 2), mem (di - 1)] -- 4 bytes before end
  match kernelType with
  | 0 => isUnknownFiletype ecx
  | 1 => .linuxKernel
  | 2 => .bootsector
  | 3 => .bssSector
  | 4 => .bootsector
  | 5 => .badImage
  | 6 => .comboot
  | 7 => .com32
  | _ => .configFile

/-! ## What they are for -/

/-- The names that are looked for, in their order. Only so much of a name is kept that the longest
extension fits behind it. -/
def candidates (name : List UInt8) : List (List UInt8) :=
  name :: (extenTable.dropLast.map fun ext => name.take (filenameMax - 5) ++ cString ext)

/-- The first name of which there is a file. -/
def firstFound (name : List UInt8) : Option (List UInt8) :=
  if name.headD 0 ≤ 0x20 then none else (candidates name).find? found

/-- A lower case letter for an upper case one. -/
def asciiLower (c : UInt8) : UInt8 := if 0x41 ≤ c ∧ c ≤ 0x5A then c + 0x20 else c

/-- A name has an extension, in upper or lower case. -/
def HasExtension (name ext : List UInt8) : Prop := ext <:+ name.map asciiLower

instance (name ext : List UInt8) : Decidable (HasExtension name ext) :=
  inferInstanceAs (Decidable (_ <:+ _))

/-- The kind of image by the extension of a name. -/
def imageOf (name : List UInt8) : Image :=
  if HasExtension name [0x2E, 0x63, 0x6F, 0x6D] then .comboot
  else if HasExtension name [0x2E, 0x63, 0x62, 0x74] then .comboot
  else if HasExtension name [0x2E, 0x63, 0x33, 0x32] then .com32
  else if HasExtension name [0x2E, 0x62, 0x73, 0x73] then .bssSector
  else if HasExtension name [0x2E, 0x62, 0x69, 0x6E] then .bootsector
  else if HasExtension name [0x2E, 0x62, 0x73] then .bootsector
  else if HasExtension name [0x2E, 0x30] then .bootsector
  else .linuxKernel

/-! ## Texts in memory -/

/-- `KernelName` holds a name, which may take all of the buffer. -/
structure Named (mem : Nat → UInt8) (name : List UInt8) : Prop where
  holds : Holds mem kernelName (name ++ [0])
  ne_zero : ∀ c ∈ name, c ≠ 0
  length_le : name.length ≤ filenameMax

variable {found} {mem mem' : Nat → UInt8} {name base ext : List UInt8}

/-- A C string ends at its first NUL. -/
theorem cString_append (hne : ∀ c ∈ name, c ≠ 0) (rest : List UInt8) :
    cString (name ++ 0 :: rest) = name := by
  rw [cString, List.takeWhile_append_of_pos fun c hc => bne_iff_ne.mpr (hne c hc)]
  simp

/-- The name in memory is the one that was put there. -/
theorem Named.nameAt_eq (h : Named mem name) : nameAt mem = name := by
  have hle := h.length_le
  have hsplit : filenameMax + 1 = (name ++ [0]).length + (filenameMax - name.length) := by
    rw [List.length_append, List.length_singleton]
    omega
  rw [nameAt, hsplit, List.range_add, List.map_append, h.holds.map_range, List.append_assoc]
  exact cString_append h.ne_zero _

/-- Memory holds what is read from it. -/
theorem holds_map_range (mem : Nat → UInt8) (a n : Nat) :
    Holds mem a ((List.range n).map fun i => mem (a + i)) := by
  intro i b hb
  have hi : i < n := by simpa using (List.getElem?_eq_some_iff.mp hb).1
  rw [List.getElem?_map, List.getElem?_range hi] at hb
  exact Option.some.inj hb

/-- A buffer with a NUL is a string, the NUL and a rest. -/
theorem cString_spec {bytes : List UInt8} (h : 0 ∈ bytes) :
    ∃ rest, bytes = cString bytes ++ 0 :: rest := by
  induction bytes with
  | nil => exact absurd h List.not_mem_nil
  | cons b bytes ih =>
    by_cases hb : b = 0
    · exact ⟨bytes, by simp [cString, hb]⟩
    · obtain ⟨rest, hrest⟩ := ih ((List.mem_cons.mp h).resolve_left (Ne.symm hb))
      refine ⟨rest, ?_⟩
      have hcons : cString (b :: bytes) = b :: cString bytes := by simp [cString, hb]
      rw [hcons, List.cons_append, ← hrest]

/-- With a NUL behind the buffer, there is a name in it. -/
theorem named_nameAt (h : mem (kernelName + filenameMax) = 0) : Named mem (nameAt mem) := by
  have hmem : (0 : UInt8) ∈ (List.range (filenameMax + 1)).map fun i => mem (kernelName + i) :=
    List.mem_map.mpr ⟨filenameMax, List.mem_range.mpr (Nat.lt_succ_self _), h⟩
  obtain ⟨rest, hrest⟩ := cString_spec hmem
  have hholds := holds_map_range mem kernelName (filenameMax + 1)
  have hlength := congrArg List.length hrest
  rw [hrest, List.append_cons, holds_append] at hholds
  rw [List.length_map, List.length_range, List.length_append, List.length_cons] at hlength
  exact ⟨hholds.1, fun c hc => by simpa using List.mem_takeWhile_imp hc, by
    change (cString _).length ≤ _
    omega⟩

/-- The scan stops at the end of a text, or with the count. -/
theorem repneScasb_eq {a : Nat} (h : Holds mem a (name ++ [0])) (hne : ∀ c ∈ name, c ≠ 0)
    (cx : Nat) : (repneScasb mem 0 cx a).getD (a + cx) = a + min name.length cx := by
  induction name generalizing a cx with
  | nil =>
    cases cx with
    | zero => rfl
    | succ cx =>
      rw [repneScasb, if_pos (holds_cons.mp h).1]
      simp
  | cons c name ih =>
    cases cx with
    | zero => rfl
    | succ cx =>
      rw [List.forall_mem_cons] at hne
      obtain ⟨hc, hrest⟩ := holds_cons.mp h
      have hnext := ih hrest hne.2 cx
      rw [repneScasb, if_neg (by rw [hc]; exact hne.1), List.length_cons]
      rw [Nat.add_assoc, Nat.add_comm 1] at hnext
      rw [hnext]
      omega

/-! ## The search -/

/-- The NUL at the end is no part of the string. -/
theorem cString_concat (bytes : List UInt8) : cString (bytes ++ [0]) = cString bytes := by
  induction bytes with
  | nil => rfl
  | cons b bytes ih =>
    unfold cString at *
    rw [List.cons_append, List.takeWhile_cons, List.takeWhile_cons, ih]

/-- An extension is stored behind the base of the name. -/
theorem Named.extend (hbase : Holds mem kernelName base) (hne : ∀ c ∈ base, c ≠ 0)
    (hle : base.length ≤ filenameMax - 5) (hext : ext.length = 4) :
    Named (put (repMovsbFrom mem ext (kernelName + base.length)) (kernelName + base.length + 4) 0)
      (base ++ cString ext) := by
  rw [← hext, ← repMovsbFrom_concat]
  have hkept : Holds (repMovsbFrom mem (ext ++ [0]) (kernelName + base.length)) kernelName base :=
    hbase.congr fun c _ hc => repMovsbFrom_of_lt hc
  have hstored := @repMovsbFrom_holds _ mem (ext ++ [0]) (kernelName + base.length)
  generalize repMovsbFrom mem (ext ++ [0]) (kernelName + base.length) = mem₁ at hkept hstored ⊢
  obtain ⟨rest, hrest⟩ := cString_spec (List.mem_append_right ext (List.mem_singleton_self 0))
  have hlength := congrArg List.length hrest
  have hmax : filenameMax = 256 := rfl
  rw [cString_concat] at hrest hlength
  simp only [List.length_append, List.length_cons, List.length_nil] at hlength
  rw [hrest, List.append_cons, holds_append] at hstored
  refine ⟨?_, fun c hc => ?_, ?_⟩
  · rw [List.append_assoc]
    exact holds_append.mpr ⟨hkept, hstored.1⟩
  · rcases List.mem_append.mp hc with hc | hc
    · exact hne c hc
    · simpa using List.mem_takeWhile_imp hc
  · rw [List.length_append]
    omega

/-- Behind some entries of the table: either the first name with a file, or the last name. -/
theorem searchLoop_eq (hbase : Holds mem kernelName base) (hne : ∀ c ∈ base, c ≠ 0)
    (hle : base.length ≤ filenameMax - 5) {table : List (List UInt8)}
    (htable : ∀ ext ∈ table, ext.length = 4) (hname : Named mem name) :
    let names := name :: table.map (base ++ cString ·)
    ∃ mem', searchLoop found (kernelName + base.length) table mem =
        (match names.dropLast.find? found with
          | some _ => .kernelGood mem'
          | none => .badKernel mem') ∧
      Named mem' ((names.dropLast.find? found).getD (names.getLastD [])) ∧
      ∀ a, a < kernelName + base.length ∨ kernelName + base.length + 4 < a → mem' a = mem a := by
  induction table generalizing mem name with
  | nil => exact ⟨mem, rfl, hname, fun _ _ => rfl⟩
  | cons ext table ih =>
    rw [List.forall_mem_cons] at htable
    rw [searchLoop, hname.nameAt_eq]
    simp only [List.map_cons, List.dropLast_cons_cons, List.find?_cons]
    cases hfound : found name with
    | true => exact ⟨mem, rfl, hname, fun _ _ => rfl⟩
    | false =>
      have hstores : ∀ a, a < kernelName + base.length ∨ kernelName + base.length + 4 < a →
          put (repMovsbFrom mem ext (kernelName + base.length)) (kernelName + base.length + 4) 0 a =
            mem a := by
        intro a ha
        rw [put_of_ne _ (by omega)]
        rcases ha with ha | ha
        · exact repMovsbFrom_of_lt ha
        · exact repMovsbFrom_of_ge (by rw [htable.1]; omega)
      have hbase' := hbase.congr fun c _ hc => hstores c (.inl hc)
      obtain ⟨mem', hloop, hnamed, hframe⟩ :=
        ih hbase' htable.2 (Named.extend hbase hne hle htable.1)
      exact ⟨mem', hloop, hnamed, fun a ha => (hframe a ha).trans (hstores a ha)⟩

/-- What `get_kernel` does to a memory: it ends with the first name of which there is a file, or
without one with as much of the name as was kept; only the buffer and the byte behind it are
stored to. -/
def Searched (found : List UInt8 → Bool) (mem : Nat → UInt8) (search : Search) : Prop :=
  let name := nameAt (put mem (kernelName + filenameMax) 0)
  let kept := if name.headD 0 ≤ 0x20 then name else name.take (filenameMax - 5)
  ∃ mem', search =
      (match firstFound found name with
        | some _ => .kernelGood mem'
        | none => .badKernel mem') ∧
    Named mem' ((firstFound found name).getD kept) ∧
    ∀ a, a < kernelName ∨ kernelName + filenameMax < a → mem' a = mem a

/-- For every memory and all files there may be, `get_kernel` finds the first of the candidates, and
stores nothing outside of `KernelName` but the NUL behind it. -/
theorem get_kernel_searches (found : List UInt8 → Bool) (mem : Nat → UInt8) :
    Searched found mem (getKernel found mem) := by
  have hname := named_nameAt (@put_self _ mem (kernelName + filenameMax) 0)
  have houtside : ∀ a, a < kernelName ∨ kernelName + filenameMax < a →
      put mem (kernelName + filenameMax) 0 a = mem a := fun a ha => put_of_ne _ (by omega)
  unfold Searched getKernel
  generalize put mem (kernelName + filenameMax) 0 = mem₁ at *
  generalize nameAt mem₁ = name at *
  have hfirst : mem₁ kernelName = name.headD 0 := by
    cases name with
    | nil => exact (holds_cons.mp hname.holds).1
    | cons c name => exact (holds_cons.mp hname.holds).1
  simp only [hfirst]
  by_cases hmissing : name.headD 0 ≤ 0x20
  · have hnone : firstFound found name = none := if_pos hmissing
    rw [if_pos hmissing, if_pos hmissing, hnone]
    exact ⟨mem₁, rfl, hname, houtside⟩
  · have hfound : firstFound found name = (candidates name).find? found := if_neg hmissing
    have hmax : filenameMax = 256 := rfl
    have hbase : Holds mem₁ kernelName (name.take (filenameMax - 5)) := by
      have hholds := hname.holds
      rw [← List.take_append_drop (filenameMax - 5) name, List.append_assoc] at hholds
      exact (holds_append.mp hholds).1
    have hlength : (name.take (filenameMax - 5)).length ≤ filenameMax - 5 := List.length_take_le _ _
    have hptr : (repneScasb mem₁ 0 (filenameMax - 5) kernelName).getD
        (kernelName + (filenameMax - 5)) = kernelName + (name.take (filenameMax - 5)).length := by
      rw [repneScasb_eq hname.holds hname.ne_zero, List.length_take, Nat.min_comm]
    obtain ⟨mem', hloop, hnamed, hframe⟩ := @searchLoop_eq found mem₁ name _ hbase
      (fun c hc => hname.ne_zero c (List.mem_of_mem_take hc)) hlength extenTable (by decide) hname
    have hnames : (name :: extenTable.map (name.take (filenameMax - 5) ++ cString ·)).dropLast =
        candidates name := rfl
    have hlast : (name :: extenTable.map (name.take (filenameMax - 5) ++ cString ·)).getLastD [] =
        name.take (filenameMax - 5) := by simp [extenTable, cString]
    rw [hnames] at hloop
    rw [hnames, hlast] at hnamed
    rw [if_neg hmissing, if_neg hmissing, hfound, hptr]
    refine ⟨mem', hloop, hnamed, fun a ha => ?_⟩
    rw [hframe a (by omega), houtside a ha]

/-! ## Kinds of images -/

/-- The kind of image by the last four bytes of a name in lower case. -/
def imageByEnd (a b c d : UInt8) : Image :=
  if a = 0x2E ∧ b = 0x63 ∧ c = 0x6F ∧ d = 0x6D then .comboot
  else if a = 0x2E ∧ b = 0x63 ∧ c = 0x62 ∧ d = 0x74 then .comboot
  else if a = 0x2E ∧ b = 0x63 ∧ c = 0x33 ∧ d = 0x32 then .com32
  else if a = 0x2E ∧ b = 0x62 ∧ c = 0x73 ∧ d = 0x73 then .bssSector
  else if a = 0x2E ∧ b = 0x62 ∧ c = 0x69 ∧ d = 0x6E then .bootsector
  else if b = 0x2E ∧ c = 0x62 ∧ d = 0x73 then .bootsector
  else if c = 0x2E ∧ d = 0x30 then .bootsector
  else .linuxKernel

/-- A byte that is not a control character, or a NUL in front of the name. -/
def Sound (c : UInt8) : Prop := c = 0 ∨ 0x20 < c

/-- For the characters of the extensions, to set bit 5 is to turn to lower case. -/
theorem or_eq_iff {c : UInt8} (hc : Sound c) {l : UInt8}
    (hl : l ∈ [0x2E, 0x30, 0x32, 0x33, 0x62, 0x63, 0x69, 0x6D, 0x6E, 0x6F, 0x73, 0x74]) :
    c ||| 0x20 = l ↔ asciiLower c = l := by
  have hall : ∀ n : Fin 256, (UInt8.ofNat n = 0 ∨ 0x20 < UInt8.ofNat n) →
      ∀ l ∈ ([0x2E, 0x30, 0x32, 0x33, 0x62, 0x63, 0x69, 0x6D, 0x6E, 0x6F, 0x73, 0x74] :
        List UInt8), (UInt8.ofNat n ||| 0x20 = l ↔ asciiLower (UInt8.ofNat n) = l) := by
    decide +kernel
  have hn := hall ⟨c.toNat, c.toNat_lt⟩
  rw [UInt8.ofNat_toNat] at hn
  exact hn hc l hl

/-- A dot is the same in either case. -/
theorem dot_iff (c : UInt8) : c = 0x2E ↔ asciiLower c = 0x2E := by
  have hall : ∀ n : Fin 256, UInt8.ofNat n = 0x2E ↔ asciiLower (UInt8.ofNat n) = 0x2E := by
    decide +kernel
  have hn := hall ⟨c.toNat, c.toNat_lt⟩
  rwa [UInt8.ofNat_toNat] at hn

/-- The image type by the last four characters. -/
theorem isUnknownFiletype_eq {a b c d : UInt8} (hb : Sound b) (hc : Sound c) (hd : Sound d) :
    isUnknownFiletype [a, b, c, d] =
      imageByEnd (asciiLower a) (asciiLower b) (asciiLower c) (asciiLower d) := by
  unfold isUnknownFiletype imageByEnd
  simp [or_eq_iff hb, or_eq_iff hc, or_eq_iff hd, ← dot_iff a]

/-- An extension is the end of the name in lower case. -/
theorem hasExtension_iff : HasExtension name ext ↔ ext.reverse <+: name.reverse.map asciiLower := by
  rw [HasExtension, ← List.reverse_prefix, List.map_reverse]

/-- The bytes in front of a short name are not letters. -/
theorem imageOf_eq (name : List UInt8) :
    imageOf name = (fun w : List UInt8 => imageByEnd (asciiLower (w.getD 3 0))
      (asciiLower (w.getD 2 0)) (asciiLower (w.getD 1 0)) (asciiLower (w.getD 0 0)))
        name.reverse := by
  have hzero : asciiLower 0 = 0 := rfl
  unfold imageOf imageByEnd
  simp only [hasExtension_iff]
  match name.reverse with
  | [] => simp [hzero]
  | [d] => simp [hzero]
  | [d, c] =>
    simp [hzero]
    grind
  | [d, c, b] =>
    simp [hzero]
    grind
  | d :: c :: b :: a :: rest =>
    have h4 : ∀ w x y z : UInt8,
        [w, x, y, z].reverse <+: (d :: c :: b :: a :: rest).map asciiLower ↔
          asciiLower a = w ∧ asciiLower b = x ∧ asciiLower c = y ∧ asciiLower d = z := by
      intro w x y z
      simp only [List.reverse_cons, List.reverse_nil, List.nil_append, List.cons_append,
        List.map_cons, List.cons_prefix_cons, List.nil_prefix]
      grind
    have h3 : ∀ x y z : UInt8, [x, y, z].reverse <+: (d :: c :: b :: a :: rest).map asciiLower ↔
        asciiLower b = x ∧ asciiLower c = y ∧ asciiLower d = z := by
      intro x y z
      simp only [List.reverse_cons, List.reverse_nil, List.nil_append, List.cons_append,
        List.map_cons, List.cons_prefix_cons, List.nil_prefix]
      grind
    have h2 : ∀ y z : UInt8, [y, z].reverse <+: (d :: c :: b :: a :: rest).map asciiLower ↔
        asciiLower c = y ∧ asciiLower d = z := by
      intro y z
      simp only [List.reverse_cons, List.reverse_nil, List.nil_append, List.cons_append,
        List.map_cons, List.cons_prefix_cons, List.nil_prefix]
      grind
    simp only [h4, h3, h2]
    rfl

/-- The bytes in front of a name of less than four characters are those in front of the buffer. -/
theorem kernelGood_bytes (hname : Named mem name)
    (hfront : 4 ≤ name.length ∨ ∀ a, kernelName - 4 ≤ a → a < kernelName → mem a = 0)
    {k : Nat} (hk : k < 4) : mem (kernelName + name.length - (k + 1)) = name.reverse.getD k 0 := by
  by_cases hin : k < name.length
  · have hget := (holds_append.mp hname.holds).1 (name.length - 1 - k) _
      (List.getElem?_eq_getElem (by omega))
    rw [List.getD_eq_getElem _ _ (by simpa using hin), List.getElem_reverse, ← hget]
    congr 1
    omega
  · have hbase : kernelName = 3072 := rfl
    rw [List.getD_eq_default _ _ (by simpa using hin)]
    exact hfront.resolve_left (by omega) _ (by omega) (by omega)

/-- For every name of printable characters, the image is the one of its extension: upper and lower
case are the same, and nothing else is taken for an extension. -/
theorem kernel_good_image (mem : Nat → UInt8) (name : List UInt8) (hname : Named mem name)
    (hchars : ∀ c ∈ name, 0x20 < c)
    (hfront : 4 ≤ name.length ∨ ∀ a, kernelName - 4 ≤ a → a < kernelName → mem a = 0) :
    kernelGood mem 0 = imageOf name := by
  have hbytes := fun k hk => @kernelGood_bytes mem name hname hfront k hk
  have hsound : ∀ k, Sound (name.reverse.getD k 0) := by
    intro k
    by_cases hin : k < name.reverse.length
    · rw [List.getD_eq_getElem _ _ hin]
      exact .inr (hchars _ (List.mem_reverse.mp (List.getElem_mem hin)))
    · rw [List.getD_eq_default _ _ (Nat.not_lt.mp hin)]
      exact .inl rfl
  have hend : (repneScasb mem 0 filenameMax kernelName).getD (kernelName + filenameMax) =
      kernelName + name.length := by
    rw [repneScasb_eq hname.holds hname.ne_zero, Nat.min_eq_left hname.length_le]
  unfold kernelGood
  simp only [hend]
  rw [hbytes 3 (by decide), hbytes 2 (by decide), hbytes 1 (by decide), hbytes 0 (by decide),
    isUnknownFiletype_eq (hsound 2) (hsound 1) (hsound 0), imageOf_eq]

/-- `'A.C32'`. -/
def sampleName : List UInt8 := [0x41, 0x2E, 0x43, 0x33, 0x32]

/-- The image type of the sample name. -/
theorem kernel_good_image_sample :
    kernelGood (repMovsbFrom (fun _ => 0) (sampleName ++ [0]) kernelName) 0 = imageOf sampleName :=
  kernel_good_image _ sampleName ⟨repMovsbFrom_holds _ _, by decide, by decide⟩ (by decide)
    (.inl (by decide))

end Liigboot.Ui
