import Liigboot.Lib.Crc
import Liigboot.Fs.Btrfs.Iget

/-!
# The hash of a name

`crc32c_le` takes a byte at a time and finds in a table what its bits do. What it comes to is the
remainder of a division by the polynomial that its comment names. So names that are too similar have
different hashes, and a lookup does not confuse them.
-/

namespace Liigboot.Fs.Btrfs

open Polynomial

/-- The polynomial of `btrfs_init_crc32c`, reflected. -/
def crc32cPoly : BitVec 32 := 0x82f63b78#32

/-- The bits of a byte, as they go into the check. -/
def byteBits (b : UInt8) : List Bool := (List.range 8).map b.toBitVec.getLsbD

/-- The bits of a name. -/
def nameBits (name : List UInt8) : List Bool := name.flatMap byteBits

/-! ## The table -/

/-- One step of the table's construction is a shift of the register. -/
theorem crc32cStep_toBitVec (v : UInt32) :
    (crc32cStep v).toBitVec = Crc.shift crc32cPoly v.toBitVec := by
  have hbit : v &&& 1 ≠ 0 ↔ v.toBitVec.getLsbD 0 = true := by
    rw [Ne, ← UInt32.toBitVec_inj, UInt32.toBitVec_and]
    change ¬v.toBitVec &&& 1#32 = 0#32 ↔ _
    rw [BitVec.and_one_eq_setWidth_ofBool_getLsbD]
    cases v.toBitVec.getLsbD 0 <;> decide
  rw [crc32cStep, Crc.shift, UInt32.toBitVec_xor]
  congr 1
  by_cases h : v &&& 1 ≠ 0
  · rw [if_pos h, if_pos (hbit.mp h)]
    rfl
  · rw [if_neg h, if_neg (mt hbit.mpr h)]
    rfl

/-- Several steps are as many shifts. -/
theorem foldl_crc32cStep (n : Nat) (v : UInt32) :
    ((List.range n).foldl (fun v _ => crc32cStep v) v).toBitVec =
      (Crc.shift crc32cPoly)^[n] v.toBitVec := by
  induction n with
  | zero => rfl
  | succ n ih =>
    rw [List.range_succ, List.foldl_append, List.foldl_cons, List.foldl_nil, crc32cStep_toBitVec,
      ih, Function.iterate_succ_apply']

/-- An entry of the table is its index shifted eight times. -/
theorem crc32cTable_toBitVec (i : UInt8) :
    (crc32cTable i).toBitVec = (Crc.shift crc32cPoly)^[8] (i.toBitVec.setWidth 32) :=
  foldl_crc32cStep 8 i.toUInt32

@[simp] theorem length_byteBits (b : UInt8) : (byteBits b).length = 8 := by
  rw [byteBits, List.length_map, List.length_range]

theorem length_nameBits (name : List UInt8) : (nameBits name).length = 8 * name.length := by
  induction name with
  | nil => rfl
  | cons b name ih =>
    rw [nameBits, List.flatMap_cons, List.length_append, length_byteBits, ← nameBits, ih,
      List.length_cons]
    omega

/-- The bits of a byte are the byte. -/
theorem ofBits_byteBits (b : UInt8) : Crc.ofBits 32 (byteBits b) = b.toBitVec.setWidth 32 := by
  apply BitVec.eq_of_getLsbD_eq
  intro i hi
  rw [Crc.getLsbD_ofBits, BitVec.getLsbD_setWidth, byteBits]
  by_cases h : i < 8
  · simp [h]
  · simp [h, BitVec.getLsbD_of_ge b.toBitVec i (by omega)]

/-- A byte of the table does what its bits do one by one. -/
theorem crc32c_byte (crc : UInt32) (b : UInt8) :
    (crc32cTable (crc.toUInt8 ^^^ b) ^^^ (crc >>> 8)).toBitVec =
      Crc.crc crc32cPoly crc.toBitVec (byteBits b) := by
  have hlow : ((crc.toBitVec ^^^ b.toBitVec.setWidth 32).setWidth 8).setWidth 32 =
      (crc.toUInt8 ^^^ b).toBitVec.setWidth 32 := by
    congr 1
    apply BitVec.eq_of_getLsbD_eq
    intro i hi
    simp [hi]
  have hhigh : (crc.toBitVec ^^^ b.toBitVec.setWidth 32) >>> 8 = (crc >>> 8).toBitVec := by
    apply BitVec.eq_of_getLsbD_eq
    intro i hi
    simp
  rw [Crc.crc_eq_iterate (by rw [length_byteBits]; decide), length_byteBits, ofBits_byteBits,
    Crc.shift_iterate_table, hlow, hhigh, UInt32.toBitVec_xor, crc32cTable_toBitVec]

/-- The checksum by bytes is the one by bits. -/
theorem crc32cLe_toBitVec (crc : UInt32) (data : List UInt8) :
    (crc32cLe crc data).toBitVec = Crc.crc crc32cPoly crc.toBitVec (nameBits data) := by
  induction data generalizing crc with
  | nil => rfl
  | cons b data ih =>
    rw [crc32cLe, ih, crc32c_byte, nameBits, nameBits, List.flatMap_cons, Crc.crc_append]

/-! ## The division -/

/-- The polynomial that the comment of `crc32c_table` names. -/
noncomputable def crc32cGenerator : (ZMod 2)[X] :=
  X ^ 32 + ofFn 32 fun i => Crc.coefficient ((0x1edc6f41#32).getLsbD i)

/-- The constant of the code is the polynomial of its comment, with the bits in reverse order. -/
theorem divisor_crc32cPoly : Crc.divisor crc32cPoly = crc32cGenerator := by
  rw [Crc.divisor, crc32cGenerator, Crc.poly]
  congr 2
  decide

/-- `crc32c_le` leaves the remainder of the message, behind what was left before it. -/
theorem crc32c_divides (crc : UInt32) (data : List UInt8) :
    Crc.poly (crc32cLe crc data).toBitVec =
      (X ^ (8 * data.length) * Crc.poly crc.toBitVec + X ^ 32 * Crc.message (nameBits data)) %ₘ
        crc32cGenerator := by
  rw [crc32cLe_toBitVec, Crc.poly_crc (by decide), length_nameBits, divisor_crc32cPoly]

/-! ## Names with different hashes -/

/-- Names are told apart by a number of ones that is even in one of them only, or by the bits in a
part of theirs that is not longer than the check. -/
def ToldApart (s t : List UInt8) : Prop :=
  (nameBits s).count true % 2 ≠ (nameBits t).count true % 2 ∨
    ∃ before xs ys after, nameBits s = before ++ xs ++ after ∧ nameBits t = before ++ ys ++ after ∧
      xs.length = ys.length ∧ xs.length ≤ 32 ∧ xs ≠ ys

/-- Names that the polynomial tells apart have different hashes. -/
theorem btrfsNameHash_ne {s t : List UInt8} (h : ToldApart s t) :
    btrfsNameHash s ≠ btrfsNameHash t := by
  have hinj (crc crc' : UInt32) (heq : crc.toUInt64 = crc'.toUInt64) :
      crc.toBitVec = crc'.toBitVec := by
    rw [← UInt64.toNat_inj, UInt32.toNat_toUInt64, UInt32.toNat_toUInt64, UInt32.toNat_inj] at heq
    rw [heq]
  intro heq
  have hcrc := hinj _ _ heq
  rw [crc32cLe_toBitVec, crc32cLe_toBitVec] at hcrc
  rcases h with hcount | ⟨before, xs, ys, after, hs, ht, hlength, hle, hne⟩
  · have heven : (Crc.divisor crc32cPoly).eval 1 = 0 := by
      rw [Crc.divisor, eval_add, Crc.eval_poly (by decide), eval_pow, eval_X]
      decide
    exact Crc.crc_ne_of_count (by decide) heven _ hcount hcrc
  · rw [hs, ht] at hcrc
    exact Crc.crc_ne_of_burst (by decide) _ before after hlength hle hne hcrc

/-! ## Lookups -/

/-- The inode of an entry can be opened, and has a number of 32 bits. -/
def BtrfsDirectory.CanOpen {vol : BtrfsVolume} {ino : UInt32} (d : BtrfsDirectory vol ino)
    (e : DirEntry) : Prop :=
  e.location.objectid.toNat < 2 ^ 32 ∧
    ∃ v, v.item.key = e.location ∧ d.Opens e.location.objectid v

/-- The lookup of a name is right in a directory whose other names are told apart from it, when the
blocks of the tree fit the buffer of a search and the entry with the name can be opened. -/
theorem btrfs_iget_similar_names {vol : BtrfsVolume} {ino : UInt32} (d : BtrfsDirectory vol ino)
    (name : List UInt8) (hfits : d.disk.Fits d.level)
    (hopens : ∀ e, d.Has e → e.name = name → d.CanOpen e)
    (hapart : ∀ e, d.Has e → e.name ≠ name → ToldApart e.name name) : FindsName d name := by
  refine (btrfs_iget_finds_iff d name).mpr ⟨hfits, fun f hf => ?_⟩
  have hhash := d.hash_eq _ f (List.mem_of_head? hf)
  have hhas : d.Has f := by
    rw [BtrfsDirectory.Has, hhash]
    exact List.mem_of_head? hf
  have hname : f.name = name := by
    by_contra hne
    exact btrfsNameHash_ne (hapart f hhas hne) hhash
  obtain ⟨hinr, v, hkey, hopen⟩ := hopens f hhas hname
  have hnumber : f.location.objectid.toUInt32.toUInt64 = f.location.objectid := by
    rw [← UInt64.toNat_inj, UInt32.toNat_toUInt64, UInt64.toNat_toUInt32, Nat.mod_eq_of_lt hinr]
  refine Or.inl ⟨f, v, hhas, hname, hopen, ?_, hnumber, v, hopen.1, hkey, rfl, rfl⟩
  rw [← hkey, hopen.2.1]

/-- Two names of two letters in one directory. -/
theorem btrfs_iget_similar_names_sample :
    btrfsNameHash [0x6b, 0x30] ≠ btrfsNameHash sampleName ∧
      FindsName sampleDirectory [0x6b, 0x30] ∧ FindsName sampleDirectory sampleName := by
  have hfits : sampleDirectory.disk.Fits sampleDirectory.level :=
    ⟨(by decide : FitsBuffer 4096), fun hne => absurd rfl hne⟩
  have hapart : ToldApart sampleName [0x6b, 0x30] := Or.inl (by decide)
  have honly : ∀ e, sampleDirectory.Has e → e = sampleEntry := by
    intro e he
    change e ∈ if btrfsNameHash e.name = 0xd6c7b10e then [sampleEntry] else [] at he
    split_ifs at he
    · exact List.mem_singleton.mp he
    · cases he
  refine ⟨(btrfsNameHash_ne hapart).symm, btrfs_iget_similar_names _ _ hfits
    (fun e he hname => ?_) fun e he _ => ?_, btrfs_iget_similar_names _ _ hfits
    (fun e he _ => ?_) fun e he hne => ?_⟩
  · obtain rfl := honly e he
    exact absurd hname (by decide)
  · obtain rfl := honly e he
    exact hapart
  · obtain rfl := honly e he
    refine ⟨by decide, ?_⟩
    have hitem : ∃ v ∈ allVisits sampleDirectory.disk sampleDirectory.level sampleDirectory.root,
        v.item.key = sampleEntry.location ∧ v.inodeMode = 4 := by
      decide +kernel
    obtain ⟨v, hv, hkey, hmode⟩ := hitem
    refine ⟨v, hkey, hv, hkey, fun h => ?_⟩
    rw [hmode] at h
    exact absurd h (by decide)
  · obtain rfl := honly e he
    exact absurd rfl hne

end Liigboot.Fs.Btrfs
