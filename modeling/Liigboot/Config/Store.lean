import Liigboot.Config.RllPack
import Liigboot.Lib.Bytes

/-!
# The store of label records

Committed labels are packed into high memory, one below the other, from
`HighMemSize` down to `VKernelEnd`. Nothing else marks where a record starts:
every scanner begins at the top and unpacks until it meets the end pointer. The
invariant is that memory below the top is exactly the packed records, in the
order of their commits; a commit extends it at the low end, and all three
scanners read it from the high end.
-/

namespace Liigboot.Config

/-! ## Label records -/

/-- `FILENAME_MAX`. -/
def filenameMax : Nat := 256

/-- `max_cmd_len`. -/
def maxCmdLen : Nat := 2047

def vkRname : Nat := filenameMax
def vkAppendlen : Nat := vkRname + filenameMax
def vkType : Nat := vkAppendlen + 2
def vkAppend : Nat := (vkType + 1 + 3) / 4 * 4
def vkSize : Nat := (vkAppend + maxCmdLen + 1 + 3) / 4 * 4

/-- The contents of `VKernelBuf`: a record whose virtual name ends inside its field. -/
structure VKernel where
  bytes : List UInt8
  length_eq : bytes.length = vkSize
  vname_ends : ∃ i < filenameMax, bytes[i]? = some 0

/-- The null-terminated string at the start of a buffer. -/
def cString (bytes : List UInt8) : List UInt8 := bytes.takeWhile (· != 0)

/-- The string at `vk_vname`, which comes first. -/
def VKernel.vname (vk : VKernel) : List UInt8 := cString vk.bytes

/-- The characters up to the first blank or control character. -/
def firstWord (line : List UInt8) : List UInt8 := line.takeWhile (0x20 < ·)

/-- The number at `vk_appendlen`. -/
def VKernel.appendlen (vk : VKernel) : Nat := readLe vk.bytes vkAppendlen 2

/-- Store into a record behind its virtual name, as the commands inside a label do. -/
def VKernel.put (vk : VKernel) (off : Nat) (ys : List UInt8) (hlo : filenameMax ≤ off)
    (hhi : off + ys.length ≤ vkSize) : VKernel where
  bytes := blit vk.bytes off ys
  length_eq := (length_blit (hhi.trans vk.length_eq.ge)).trans vk.length_eq
  vname_ends := by
    obtain ⟨i, hi, h0⟩ := vk.vname_ends
    have hoff : off ≤ vk.bytes.length := by
      rw [vk.length_eq]
      omega
    exact ⟨i, hi, (getElem?_blit_of_lt hoff (hi.trans_le hlo)).trans h0⟩

/-- The zeroed record with a virtual name of at most `FILENAME_MAX - 1` characters. -/
def VKernel.named (name : List UInt8) (h : name.length < filenameMax) : VKernel where
  bytes := blit (List.replicate vkSize 0) 0 name
  length_eq := by
    rw [length_blit] <;> rw [List.length_replicate]
    simp only [vkSize, vkAppend, vkType, vkAppendlen, vkRname, filenameMax, maxCmdLen] at *
    omega
  vname_ends := by
    refine ⟨name.length, h, ?_⟩
    have hsize : name.length < vkSize := h.trans (by decide)
    rw [getElem?_blit_of_ge (Nat.zero_le _) (Nat.zero_add _).le, List.getElem?_replicate,
      if_pos hsize]

/-- The name that the copy loop of `pc_label` takes from a line. -/
def labelName (line : List UInt8) : List UInt8 := (firstWord line).take (filenameMax - 1)

theorem length_labelName (line : List UInt8) : (labelName line).length < filenameMax :=
  Nat.lt_of_le_of_lt (List.length_take_le _ _) (by decide)

/-! ## The store -/

/-- High memory and the two pointers that frame the store. -/
structure Store where
  /-- The address of `VKernelBuf`. -/
  vkernelBuf : UInt32
  highMemSize : UInt32
  vkernelEnd : UInt32
  mem : Nat → UInt8

/-- The store before the first label. -/
def Store.init (vkernelBuf highMemSize : UInt32) (mem : Nat → UInt8) : Store :=
  ⟨vkernelBuf, highMemSize, highMemSize, mem⟩

/-- Memory after the bytes `out` were stored from `edi - 1` downwards. -/
def storeDown (mem : Nat → UInt8) (edi : Nat) (out : List UInt8) : Nat → UInt8 :=
  fun a => if a < edi then (out[edi - 1 - a]?).getD (mem a) else mem a

/-- The `n` bytes below an address, downwards. -/
def span (mem : Nat → UInt8) (esi n : Nat) : List UInt8 :=
  (List.range n).map fun k => mem (esi - 1 - k)

/-- The packed form of a record behind `edi`. -/
def Store.packed (s : Store) (edi : UInt32) (vk : VKernel) : Pack :=
  rllpack s.vkernelBuf edi vk.bytes

/-- Pack a record into high memory. -/
def Store.commit (s : Store) (vk : VKernel) : Store :=
  { s with
    mem := storeDown s.mem s.vkernelEnd.toNat (s.packed s.vkernelEnd vk).out
    vkernelEnd := (s.packed s.vkernelEnd vk).o }

/-- Unpack the record below `esi` into `VKernelBuf`. -/
def Store.unpack (s : Store) (esi : UInt32) : Option Unpacked :=
  rllunpack esi s.vkernelBuf (span s.mem esi.toNat esi.toNat)

/-- The records met by repeated unpacking, and the pointer at which the scan ends. -/
def Store.scan (s : Store) : Nat → UInt32 → Option (List (List UInt8) × UInt32)
  | 0, _ => none
  | fuel + 1, esi =>
    if esi ≤ s.vkernelEnd then some ([], esi)
    else match s.unpack esi with
      | none => none
      | some u => (s.scan fuel u.esi).map fun r => (u.out :: r.1, r.2)

/-- `display_labels`: the names printed when `typed` has been typed so far. -/
def Store.displayLabels (s : Store) (typed : List UInt8) : Nat → UInt32 → Option (List (List UInt8))
  | 0, _ => none
  | fuel + 1, esi =>
    if esi ≤ s.vkernelEnd then some []
    else match s.unpack esi with
      | none => none
      | some u =>
        if typed.length = 0 ∨ u.out.take typed.length = typed then
          (s.displayLabels typed fuel u.esi).map (cString u.out :: ·)
        else s.displayLabels typed fuel u.esi

/-- The loop of `vk_check` over the command line and the record: the first word must match and
the record's name must end with it. The command line is null-terminated. -/
def matchName : List UInt8 → List UInt8 → Bool
  | [], di => di.head? == some 0
  | al :: si, di =>
    if al ≤ 0x20 then di.head? == some 0
    else match di with
      | [] => false
      | d :: di => al == d && matchName si di

/-- `vk_check`: the record left in `VKernelBuf` when the command line names a label. -/
def Store.vkCheck (s : Store) (commandLine : List UInt8) :
    Nat → UInt32 → Option (Option (List UInt8))
  | 0, _ => none
  | fuel + 1, esi =>
    if esi ≤ s.vkernelEnd then some none
    else match s.unpack esi with
      | none => none
      | some u =>
        if matchName commandLine u.out then some (some u.out)
        else s.vkCheck commandLine fuel u.esi

/-! ## Memory below a pointer -/

@[simp] theorem length_span (mem : Nat → UInt8) (esi n : Nat) : (span mem esi n).length = n := by
  rw [span, List.length_map, List.length_range]

theorem getElem?_span (mem : Nat → UInt8) (esi n k : Nat) :
    (span mem esi n)[k]? = if k < n then some (mem (esi - 1 - k)) else none := by
  rw [span, List.getElem?_map]
  by_cases h : k < n
  · rw [List.getElem?_range h, if_pos h]
    rfl
  · rw [List.getElem?_eq_none (by rw [List.length_range]; omega), if_neg h]
    rfl

/-- The bytes below a pointer, cut at a lower pointer. -/
theorem span_append {mem : Nat → UInt8} {esi n : Nat} (h : n ≤ esi) :
    span mem esi esi = span mem esi n ++ span mem (esi - n) (esi - n) := by
  apply List.ext_getElem?
  intro k
  by_cases hk : k < n
  · rw [List.getElem?_append_left (by rwa [length_span]), getElem?_span, getElem?_span,
      if_pos (by omega), if_pos hk]
  · rw [List.getElem?_append_right (by rw [length_span]; omega), length_span, getElem?_span,
      getElem?_span]
    by_cases hk' : k < esi
    · rw [if_pos hk', if_pos (by omega)]
      congr 2
      omega
    · rw [if_neg hk', if_neg (by omega)]

/-- A store below a pointer leaves the bytes from there on alone. -/
theorem span_storeDown_of_le {mem : Nat → UInt8} {edi esi n : Nat} (out : List UInt8)
    (hn : n ≤ esi) (h : edi ≤ esi - n) : span (storeDown mem edi out) esi n = span mem esi n := by
  apply List.ext_getElem?
  intro k
  rw [getElem?_span, getElem?_span]
  by_cases hk : k < n
  · rw [if_pos hk, if_pos hk, storeDown, if_neg (by omega)]
  · rw [if_neg hk, if_neg hk]

/-- A store that fits below its pointer reads back. -/
theorem span_storeDown {mem : Nat → UInt8} {edi : Nat} {out : List UInt8} (h : out.length ≤ edi) :
    span (storeDown mem edi out) edi out.length = out := by
  apply List.ext_getElem?
  intro k
  rw [getElem?_span]
  by_cases hk : k < out.length
  · have hback : edi - 1 - (edi - 1 - k) = k := by omega
    rw [if_pos hk, storeDown, if_pos (by omega), hback, List.getElem?_eq_getElem hk,
      Option.getD_some]
  · rw [if_neg hk, List.getElem?_eq_none (Nat.le_of_not_lt hk)]

/-! ## The invariant -/

/-- From `esi` down to `VKernelEnd`, memory holds the packed forms of these records. -/
def Store.Holds (s : Store) : UInt32 → List VKernel → Prop
  | esi, [] => esi = s.vkernelEnd
  | esi, vk :: vks =>
    (s.packed esi vk).out.length ≤ esi.toNat ∧
      span s.mem esi.toNat (s.packed esi vk).out.length = (s.packed esi vk).out ∧
      s.Holds (s.packed esi vk).o vks

/-- Each record's packed form fits into the memory that is left below the store. -/
def Store.Fits : Store → List VKernel → Prop
  | _, [] => True
  | s, vk :: vks =>
    (s.packed s.vkernelEnd vk).out.length ≤ s.vkernelEnd.toNat ∧ (s.commit vk).Fits vks

theorem packed_ne_nil (s : Store) (esi : UInt32) (vk : VKernel) :
    0 < (s.packed esi vk).out.length := by
  obtain ⟨ts, -, hout, -⟩ := rllpack_spec s.vkernelBuf esi vk.bytes
  rw [Store.packed, hout, List.length_append, List.length_singleton]
  omega

/-- The end pointer of a packed record that fits is its start minus its length. -/
theorem packed_o {s : Store} {esi : UInt32} {vk : VKernel}
    (h : (s.packed esi vk).out.length ≤ esi.toNat) :
    (s.packed esi vk).o.toNat = esi.toNat - (s.packed esi vk).out.length := by
  obtain ⟨-, -, -, -, ho⟩ := rllpack_spec s.vkernelBuf esi vk.bytes
  have hlen : (UInt32.ofNat (s.packed esi vk).out.length).toNat = (s.packed esi vk).out.length :=
    UInt32.toNat_ofNat_of_lt' (h.trans_lt esi.toNat_lt)
  rw [Store.packed] at *
  rw [ho, UInt32.toNat_sub_of_le _ _ (by rw [UInt32.le_iff_toNat_le, hlen]; exact h), hlen]

/-- The store ends at or below every pointer it is read from. -/
theorem Store.Holds.le {s : Store} {esi : UInt32} {vks : List VKernel} (h : s.Holds esi vks) :
    s.vkernelEnd.toNat ≤ esi.toNat := by
  induction vks generalizing esi with
  | nil => exact (congrArg UInt32.toNat h).ge
  | cons vk vks ih =>
    obtain ⟨hfit, -, h⟩ := h
    exact (ih h).trans ((packed_o hfit).trans_le (Nat.sub_le _ _))

/-- A commit appends its record at the low end. -/
theorem Store.Holds.commit {s : Store} {esi : UInt32} {vks : List VKernel} {vk : VKernel}
    (h : s.Holds esi vks) (hfit : (s.packed s.vkernelEnd vk).out.length ≤ s.vkernelEnd.toNat) :
    (s.commit vk).Holds esi (vks ++ [vk]) := by
  induction vks generalizing esi with
  | nil =>
    obtain rfl : esi = s.vkernelEnd := h
    exact ⟨hfit, span_storeDown hfit, rfl⟩
  | cons v vks ih =>
    obtain ⟨hv, hmem, h⟩ := h
    have hle := h.le
    rw [packed_o hv] at hle
    exact ⟨hv, (span_storeDown_of_le _ hv hle).trans hmem, ih h⟩

/-- The records committed to an empty store are what it holds. -/
theorem Store.holds_foldl {s : Store} {esi : UInt32} {vks ws : List VKernel} (h : s.Holds esi vks)
    (hfit : s.Fits ws) : (ws.foldl Store.commit s).Holds esi (vks ++ ws) := by
  induction ws generalizing s vks with
  | nil => rwa [List.append_nil]
  | cons w ws ih =>
    have := ih (h.commit hfit.1) hfit.2
    rwa [List.append_assoc] at this

/-- Reading below a pointer yields the record packed there and the pointer to the next one. -/
theorem Store.Holds.unpack {s : Store} {esi : UInt32} {vk : VKernel} {vks : List VKernel}
    (h : s.Holds esi (vk :: vks)) :
    ∃ u, s.unpack esi = some u ∧ u.out = vk.bytes ∧ s.Holds u.esi vks := by
  obtain ⟨hfit, hmem, h⟩ := h
  obtain ⟨ts, hts, hout, -, ho⟩ := rllpack_spec s.vkernelBuf esi vk.bytes
  rw [Store.packed] at hfit hmem h
  rw [hout] at hmem ho
  have hu : s.unpack esi = some ⟨esi - UInt32.ofNat (encodes ts ++ [0]).length,
      UInt32.ofNat (expands ts).length, s.vkernelBuf + UInt32.ofNat (expands ts).length,
      expands ts, span s.mem (esi.toNat - (encodes ts ++ [0]).length)
        (esi.toNat - (encodes ts ++ [0]).length)⟩ := by
    rw [hout] at hfit
    rw [Store.unpack, span_append hfit, hmem]
    exact rllunpack_encodes ts _ esi s.vkernelBuf
  exact ⟨_, hu, hts, ho ▸ h⟩

theorem Store.Holds.not_le {s : Store} {esi : UInt32} {vk : VKernel} {vks : List VKernel}
    (h : s.Holds esi (vk :: vks)) : ¬ esi ≤ s.vkernelEnd := by
  obtain ⟨hfit, -, h⟩ := h
  have hle := h.le
  have hpos := packed_ne_nil s esi vk
  rw [packed_o hfit] at hle
  rw [UInt32.le_iff_toNat_le]
  omega

/-! ## The scanners -/

/-- A scan meets the records of the store in order and stops at its end. -/
theorem Store.Holds.scan {s : Store} {esi : UInt32} {vks : List VKernel} (h : s.Holds esi vks) :
    ∀ fuel > vks.length, s.scan fuel esi = some (vks.map VKernel.bytes, s.vkernelEnd) := by
  induction vks generalizing esi with
  | nil =>
    intro fuel hfuel
    obtain ⟨fuel, rfl⟩ := Nat.exists_eq_succ_of_ne_zero (Nat.ne_of_gt hfuel)
    obtain rfl : esi = s.vkernelEnd := h
    rw [Store.scan, if_pos (UInt32.le_refl _)]
    rfl
  | cons vk vks ih =>
    intro fuel hfuel
    obtain ⟨fuel, rfl⟩ := Nat.exists_eq_succ_of_ne_zero (Nat.ne_of_gt (Nat.zero_lt_of_lt hfuel))
    obtain ⟨u, hu, hout, hrest⟩ := h.unpack
    rw [Store.scan, if_neg h.not_le, hu]
    simp only [ih hrest fuel (Nat.lt_of_succ_lt_succ hfuel), hout, Option.map_some, List.map_cons]

/-- The menu prints the names of the records that start with what has been typed. -/
theorem Store.Holds.displayLabels {s : Store} {esi : UInt32} {vks : List VKernel}
    (h : s.Holds esi vks) (typed : List UInt8) :
    ∀ fuel > vks.length, s.displayLabels typed fuel esi =
      some ((vks.filter fun vk => typed.isPrefixOf vk.bytes).map VKernel.vname) := by
  induction vks generalizing esi with
  | nil =>
    intro fuel hfuel
    obtain ⟨fuel, rfl⟩ := Nat.exists_eq_succ_of_ne_zero (Nat.ne_of_gt hfuel)
    obtain rfl : esi = s.vkernelEnd := h
    rw [Store.displayLabels, if_pos (UInt32.le_refl _)]
    rfl
  | cons vk vks ih =>
    intro fuel hfuel
    obtain ⟨fuel, rfl⟩ := Nat.exists_eq_succ_of_ne_zero (Nat.ne_of_gt (Nat.zero_lt_of_lt hfuel))
    obtain ⟨u, hu, hout, hrest⟩ := h.unpack
    have hpre : (typed.length = 0 ∨ vk.bytes.take typed.length = typed) ↔
        typed.isPrefixOf vk.bytes = true := by
      rw [List.isPrefixOf_iff_prefix, List.prefix_iff_eq_take, eq_comm (a := typed)]
      refine ⟨fun h => h.elim (fun h0 => ?_) id, Or.inr⟩
      rw [List.length_eq_zero_iff.mp h0]
      rfl
    rw [Store.displayLabels, if_neg h.not_le, hu]
    simp only [ih hrest fuel (Nat.lt_of_succ_lt_succ hfuel), hout, hpre, List.filter_cons,
      Option.map_some]
    split
    · rfl
    · rfl

/-- The comparison of `vk_check` holds exactly when the first word is the record's name. -/
theorem matchName_eq (commandLine : List UInt8) {di : List UInt8} (h0 : 0 ∈ di) :
    matchName commandLine di = (cString di == firstWord commandLine) := by
  induction commandLine generalizing di with
  | nil =>
    cases di with
    | nil => exact absurd h0 List.not_mem_nil
    | cons d di => by_cases hd : d = 0 <;> simp [matchName, cString, firstWord, hd]
  | cons al si ih =>
    cases di with
    | nil => exact absurd h0 List.not_mem_nil
    | cons d di =>
      by_cases hal : al ≤ 0x20
      · -- the word ends here, and the name must end with it
        by_cases hd : d = 0 <;> simp [matchName, cString, firstWord, hal, hd]
      · have hne : al ≠ 0 := fun h => hal (h ▸ by decide)
        have hgt : 0x20 < al := UInt8.not_le.mp hal
        by_cases had : al = d
        · subst had
          have h0' : 0 ∈ di := (List.mem_cons.mp h0).resolve_left hne.symm
          simp only [matchName, hal, if_false, BEq.rfl, Bool.true_and, ih h0']
          simp [cString, firstWord, hne, hgt]
        · by_cases hd : d = 0
          · simp [matchName, cString, firstWord, hal, hd, hgt, hne]
          · have hb : (al == d) = false := beq_false_of_ne had
            have hb' : (d == al) = false := beq_false_of_ne (Ne.symm had)
            simp [matchName, cString, firstWord, hal, hd, hgt, hb, hb']

/-- `vk_check` selects the first record whose name is the first word of the command line. -/
theorem Store.Holds.vkCheck {s : Store} {esi : UInt32} {vks : List VKernel} (h : s.Holds esi vks)
    (commandLine : List UInt8) :
    ∀ fuel > vks.length, s.vkCheck commandLine fuel esi =
      some ((vks.find? fun vk => vk.vname == firstWord commandLine).map VKernel.bytes) := by
  induction vks generalizing esi with
  | nil =>
    intro fuel hfuel
    obtain ⟨fuel, rfl⟩ := Nat.exists_eq_succ_of_ne_zero (Nat.ne_of_gt hfuel)
    obtain rfl : esi = s.vkernelEnd := h
    rw [Store.vkCheck, if_pos (UInt32.le_refl _)]
    rfl
  | cons vk vks ih =>
    intro fuel hfuel
    obtain ⟨fuel, rfl⟩ := Nat.exists_eq_succ_of_ne_zero (Nat.ne_of_gt (Nat.zero_lt_of_lt hfuel))
    obtain ⟨u, hu, hout, hrest⟩ := h.unpack
    obtain ⟨i, -, h0⟩ := vk.vname_ends
    have hmatch : matchName commandLine vk.bytes = (vk.vname == firstWord commandLine) :=
      matchName_eq commandLine (List.mem_of_getElem? h0)
    rw [Store.vkCheck, if_neg h.not_le, hu]
    simp only [ih hrest fuel (Nat.lt_of_succ_lt_succ hfuel), hout, hmatch, List.find?_cons]
    cases vk.vname == firstWord commandLine with
    | true => rfl
    | false => rfl

/-- For every sequence of committed records that fits: a scan from the top of high memory meets
each record once, in the order of the commits, and ends at `VKernelEnd`; the command line
selects the first record whose name is its first word. -/
theorem scan_committed (vkernelBuf highMemSize : UInt32) (mem : Nat → UInt8) (labels : List VKernel)
    (hfit : (Store.init vkernelBuf highMemSize mem).Fits labels) :
    let s := labels.foldl Store.commit (Store.init vkernelBuf highMemSize mem)
    ∀ fuel > labels.length,
      s.scan fuel highMemSize = some (labels.map VKernel.bytes, s.vkernelEnd) ∧
      (∀ typed, s.displayLabels typed fuel highMemSize =
        some ((labels.filter fun vk => typed.isPrefixOf vk.bytes).map VKernel.vname)) ∧
      ∀ commandLine, s.vkCheck commandLine fuel highMemSize =
        some ((labels.find? fun vk => vk.vname == firstWord commandLine).map VKernel.bytes) := by
  intro s fuel hfuel
  have hempty : (Store.init vkernelBuf highMemSize mem).Holds highMemSize [] := rfl
  have h : s.Holds highMemSize labels := Store.holds_foldl hempty hfit
  exact ⟨h.scan fuel hfuel, fun typed => h.displayLabels typed fuel hfuel,
    fun commandLine => h.vkCheck commandLine fuel hfuel⟩

/-- A label with a short name, on an otherwise empty record. -/
def linuxLabel : VKernel := VKernel.named [0x6c, 0x69, 0x6e, 0x75, 0x78] (by decide)

/-- A second label with a name of its own, and a third one with the name of the first. -/
def textLabel : VKernel := VKernel.named [0x74, 0x65, 0x78, 0x74] (by decide)

def otherLinuxLabel : VKernel := linuxLabel.put vkRname [0x6b] (by decide) (by decide)

def sampleLabels : List VKernel := [linuxLabel, textLabel, otherLinuxLabel]

/-- The scanners over a store of three labels, the last with the name of the first. -/
theorem scan_committed_linux :
    let s := sampleLabels.foldl Store.commit (Store.init 0x8000 0x100000 fun _ => 0)
    ∀ fuel > sampleLabels.length,
      s.scan fuel 0x100000 = some (sampleLabels.map VKernel.bytes, s.vkernelEnd) ∧
      (∀ typed, s.displayLabels typed fuel 0x100000 =
        some ((sampleLabels.filter fun vk => typed.isPrefixOf vk.bytes).map VKernel.vname)) ∧
      ∀ commandLine, s.vkCheck commandLine fuel 0x100000 =
        some ((sampleLabels.find? fun vk => vk.vname == firstWord commandLine).map
          VKernel.bytes) :=
  scan_committed 0x8000 0x100000 _ sampleLabels
    ⟨by decide +kernel, by decide +kernel, by decide +kernel, trivial⟩

end Liigboot.Config
