import Liigboot.Adv.Tags
import Liigboot.Lib.Bytes

/-!
# The two copies of the auxiliary data vector

`adv_cleanup` makes the checksum of the vector and its copy. `adv_verify` checks the first copy, and
takes the second one or a blank vector in its place when it is bad.
-/

namespace Liigboot.Adv

/-! ## The source -/

/-- `ADV_MAGIC1`. -/
def advMagic1 : UInt32 := 0x5a2d2fa5

/-- `ADV_MAGIC2`. -/
def advMagic2 : UInt32 := 0xa3041767

/-- `ADV_MAGIC3`. -/
def advMagic3 : UInt32 := 0xdd28bf64

/-- `adv0`. -/
def adv0 : Nat := 0

/-- `adv1`. -/
def adv1 : Nat := 512

/-- The offset of `.csum` in a vector. -/
def advCsum : Nat := 4

/-- A dword in memory. -/
def dword (mem : Mem) (a : Nat) : UInt32 :=
  UInt32.ofNat (leNat [mem a, mem (a + 1), mem (a + 2), mem (a + 3)])

/-- A byte of a dword. -/
def dwordByte (v : UInt32) (i : Nat) : UInt8 := UInt8.ofNat (v.toNat / 256 ^ i)

/-- A dword written. -/
def putDword (mem : Mem) (a : Nat) (v : UInt32) : Mem :=
  put (put (put (put mem a (dwordByte v 0)) (a + 1) (dwordByte v 1)) (a + 2) (dwordByte v 2))
    (a + 3) (dwordByte v 3)

/-- `lodsd`, `add edx,eax`, `loop`. -/
def csumLoop (mem : Mem) : Nat → Nat → UInt32 → UInt32
  | 0, _, edx => edx
  | cx + 1, si, edx => csumLoop mem cx (si + 4) (edx + dword mem si)

/-- `rep movsd`. -/
def repMovsd (mem : Mem) : Nat → Nat → Nat → Mem
  | 0, _, _ => mem
  | cx + 1, si, di => repMovsd (putDword mem di (dword mem si)) cx (si + 4) (di + 4)

/-- `rep stosd`. -/
def repStosd (mem : Mem) (eax : UInt32) : Nat → Nat → Mem
  | 0, _ => mem
  | cx + 1, di => repStosd (putDword mem di eax) eax cx (di + 4)

/-- `adv_cleanup`. -/
def advCleanup (mem : Mem) : Mem :=
  let edx := csumLoop mem (advLen / 4) adv0Data 0
  let eax := advMagic2 - edx
  let mem := putDword mem (adv0 + advCsum) eax
  repMovsd mem ((advLen + 12) / 4) adv0 adv1

/-- `.check_adv`: the zero flag. -/
def checkAdv (mem : Mem) (si : Nat) : Bool :=
  dword mem si = advMagic1 ∧ csumLoop mem (advLen / 4 + 1) (si + 4) 0 = advMagic2 ∧
    dword mem (si + 4 + 4 * (advLen / 4 + 1)) = advMagic3

/-- `.reset`. -/
def advReset (mem : Mem) : Mem :=
  let mem := putDword mem adv0 advMagic1
  let mem := putDword mem (adv0 + 4) advMagic2
  let mem := repStosd mem 0 (advLen / 4) (adv0 + 8)
  putDword mem (adv0 + 8 + 4 * (advLen / 4)) advMagic3

/-- `adv_verify`. -/
def advVerify (advDrive : UInt8) (mem : Mem) : Mem :=
  if advDrive = 0xff then advReset mem
  else if checkAdv mem adv0 then mem
  else if checkAdv mem adv1 then repMovsd mem (512 / 4) adv1 adv0
  else advReset mem

/-! ## Dwords -/

variable {mem mem' : Mem}

/-- A store of four bytes leaves the others. -/
theorem putDword_of_ne {a c : Nat} (v : UInt32) (h : c < a ∨ a + 4 ≤ c) :
    putDword mem a v c = mem c := by
  rw [putDword, put_of_ne _ (by omega), put_of_ne _ (by omega), put_of_ne _ (by omega),
    put_of_ne _ (by omega)]

/-- Each of the four bytes is stored. -/
theorem putDword_of_lt {a i : Nat} (v : UInt32) (h : i < 4) :
    putDword mem a v (a + i) = dwordByte v i := by
  obtain rfl | rfl | rfl | rfl : i = 0 ∨ i = 1 ∨ i = 2 ∨ i = 3 := by omega
  · rw [putDword, put_of_ne _ (by omega), put_of_ne _ (by omega), put_of_ne _ (by omega)]
    exact put_self a _
  · rw [putDword, put_of_ne _ (by omega), put_of_ne _ (by omega)]
    exact put_self (a + 1) _
  · rw [putDword, put_of_ne _ (by omega)]
    exact put_self (a + 2) _
  · exact put_self (a + 3) _

/-- A number in memory is given by its four bytes. -/
theorem dword_congr {a a' : Nat} (h : ∀ i < 4, mem (a + i) = mem' (a' + i)) :
    dword mem a = dword mem' a' := by
  have h0 : mem a = mem' a' := h 0 (by decide)
  rw [dword, dword, h0, h 1 (by decide), h 2 (by decide), h 3 (by decide)]

/-- The bytes of a dword in memory. -/
theorem dwordByte_dword {a i : Nat} (h : i < 4) : dwordByte (dword mem a) i = mem (a + i) := by
  have h0 := (mem a).toNat_lt
  have h1 := (mem (a + 1)).toNat_lt
  have h2 := (mem (a + 2)).toNat_lt
  have h3 := (mem (a + 3)).toNat_lt
  have hle : (dword mem a).toNat = (mem a).toNat + 256 * ((mem (a + 1)).toNat +
      256 * ((mem (a + 2)).toNat + 256 * ((mem (a + 3)).toNat + 256 * 0))) := by
    rw [dword, UInt32.toNat_ofNat_of_lt']
    · simp only [leNat]
    · simp only [leNat]
      show _ < 2 ^ 32
      omega
  refine UInt8.toNat_inj.mp ?_
  rw [dwordByte, UInt8.toNat_ofNat', hle]
  obtain rfl | rfl | rfl | rfl : i = 0 ∨ i = 1 ∨ i = 2 ∨ i = 3 := by omega
  · rw [Nat.pow_zero, Nat.div_one]
    change _ = (mem a).toNat
    omega
  · omega
  · omega
  · omega

/-- A dword that was written is read. -/
theorem dword_putDword (a : Nat) (v : UInt32) : dword (putDword mem a v) a = v := by
  have hv := v.toNat_lt
  have h0 : putDword mem a v a = dwordByte v 0 := putDword_of_lt v (show 0 < 4 by decide)
  rw [dword, h0, putDword_of_lt v (by decide), putDword_of_lt v (by decide),
    putDword_of_lt v (by decide)]
  refine UInt32.toNat_inj.mp ?_
  simp only [leNat, dwordByte, UInt8.toNat_ofNat', UInt32.toNat_ofNat']
  omega

/-- A store leaves the numbers apart from it. -/
theorem dword_putDword_of_ne {a b : Nat} (v : UInt32) (h : b + 4 ≤ a ∨ a + 4 ≤ b) :
    dword (putDword mem a v) b = dword mem b :=
  dword_congr fun i hi => putDword_of_ne v (by omega)

/-! ## Sums and moves of dwords -/

/-- A sum depends on the bytes that it is over. -/
theorem csumLoop_congr {cx si si' : Nat} (edx : UInt32)
    (h : ∀ i < 4 * cx, mem (si + i) = mem' (si' + i)) :
    csumLoop mem cx si edx = csumLoop mem' cx si' edx := by
  induction cx generalizing si si' edx with
  | zero => rfl
  | succ cx ih =>
    have hfirst : dword mem si = dword mem' si' := dword_congr fun i hi => h i (by omega)
    rw [csumLoop, csumLoop, hfirst]
    refine ih _ fun i hi => ?_
    rw [Nat.add_assoc, Nat.add_assoc]
    exact h (4 + i) (by omega)

/-- A sum that goes on from a value has this value more. -/
theorem csumLoop_add (mem : Mem) (cx si : Nat) (edx : UInt32) :
    csumLoop mem cx si edx = edx + csumLoop mem cx si 0 := by
  induction cx generalizing si edx with
  | zero => exact (UInt32.add_zero edx).symm
  | succ cx ih =>
    rw [csumLoop, csumLoop, ih (si + 4) (edx + _), ih (si + 4) (0 + _), UInt32.zero_add,
      UInt32.add_assoc]

/-- The sum over zeros is zero. -/
theorem csumLoop_zeros {cx si : Nat} (h : ∀ i < 4 * cx, mem (si + i) = 0) :
    csumLoop mem cx si 0 = 0 := by
  induction cx generalizing si with
  | zero => rfl
  | succ cx ih =>
    have hfirst : dword mem si = 0 := by
      have h0 : mem si = 0 := h 0 (by omega)
      rw [dword, h0, h 1 (by omega), h 2 (by omega), h 3 (by omega)]
      rfl
    rw [csumLoop, hfirst]
    refine ih fun i hi => ?_
    rw [Nat.add_assoc]
    exact h (4 + i) (by omega)

/-- Dwords are moved as their bytes are. -/
theorem repMovsd_eq {cx si di : Nat} (h : di + 4 * cx ≤ si ∨ si + 4 * cx ≤ di) (a : Nat) :
    repMovsd mem cx si di a =
      if di ≤ a ∧ a < di + 4 * cx then mem (si + (a - di)) else mem a := by
  induction cx generalizing mem si di with
  | zero => rw [repMovsd, if_neg (by omega)]
  | succ cx ih =>
    rw [repMovsd, ih (by omega)]
    by_cases hfirst : di ≤ a ∧ a < di + 4
    · obtain ⟨i, rfl⟩ := Nat.exists_eq_add_of_le hfirst.1
      rw [if_neg (by omega), if_pos (by omega), putDword_of_lt _ (by omega),
        dwordByte_dword (by omega), Nat.add_sub_cancel_left]
    · by_cases hrest : di + 4 ≤ a ∧ a < di + 4 + 4 * cx
      · rw [if_pos hrest, if_pos (by omega), putDword_of_ne _ (by omega)]
        congr 1
        omega
      · rw [if_neg hrest, if_neg (by omega), putDword_of_ne _ (by omega)]

theorem repStosd_zero {cx di : Nat} (a : Nat) :
    repStosd mem 0 cx di a = if di ≤ a ∧ a < di + 4 * cx then 0 else mem a := by
  induction cx generalizing mem di with
  | zero => rw [repStosd, if_neg (by omega)]
  | succ cx ih =>
    rw [repStosd, ih]
    by_cases hfirst : di ≤ a ∧ a < di + 4
    · obtain ⟨i, rfl⟩ := Nat.exists_eq_add_of_le hfirst.1
      rw [if_neg (by omega), if_pos (by omega), putDword_of_lt _ (by omega), dwordByte]
      show UInt8.ofNat (0 / 256 ^ i) = 0
      rw [Nat.zero_div]
      rfl
    · by_cases hrest : di + 4 ≤ a ∧ a < di + 4 + 4 * cx
      · rw [if_pos hrest, if_pos (by omega)]
      · rw [if_neg hrest, if_neg (by omega), putDword_of_ne _ (by omega)]

/-! ## The check -/

/-- A blank vector that is valid. -/
def Blank (mem : Mem) : Prop :=
  checkAdv mem adv0 = true ∧ ∀ i < advLen, mem (adv0Data + i) = 0

/-- The check depends on the 512 bytes of a copy. -/
theorem checkAdv_congr {si si' : Nat} (h : ∀ i < 512, mem (si + i) = mem' (si' + i)) :
    checkAdv mem si = checkAdv mem' si' := by
  have hhead : dword mem si = dword mem' si' := dword_congr fun i hi => h i (by omega)
  have hsum : csumLoop mem (advLen / 4 + 1) (si + 4) 0 =
      csumLoop mem' (advLen / 4 + 1) (si' + 4) 0 := by
    refine csumLoop_congr 0 fun i hi => ?_
    rw [advLen] at hi
    rw [Nat.add_assoc, Nat.add_assoc]
    exact h (4 + i) (by omega)
  have htail : dword mem (si + 4 + 4 * (advLen / 4 + 1)) =
      dword mem' (si' + 4 + 4 * (advLen / 4 + 1)) := by
    refine dword_congr fun i hi => ?_
    rw [Nat.add_assoc, Nat.add_assoc, Nat.add_assoc, Nat.add_assoc]
    exact h _ (by rw [advLen]; omega)
  rw [checkAdv, checkAdv, hhead, hsum, htail]

/-- The check passes a vector whose checksum is the complement of the sum of its data. -/
theorem checkAdv_of_complement (hhead : dword mem adv0 = advMagic1)
    (htail : dword mem adv0Tail = advMagic3)
    (hcsum : dword mem advCsum = advMagic2 - csumLoop mem (advLen / 4) adv0Data 0) :
    checkAdv mem adv0 = true := by
  refine decide_eq_true ⟨hhead, ?_, htail⟩
  have hplace : adv0 + 4 = advCsum := rfl
  have hdata : advCsum + 4 = adv0Data := rfl
  rw [hplace, csumLoop, hdata, UInt32.zero_add, csumLoop_add, hcsum, UInt32.sub_add_cancel]

/-! ## Cleaning up -/

/-- Outside of the second copy and the checksum `adv_cleanup` changes nothing. -/
theorem advCleanup_of_ne {a : Nat} (hcsum : a < advCsum ∨ advCsum + 4 ≤ a)
    (hcopy : a < adv1 ∨ adv1 + 512 ≤ a) : advCleanup mem a = mem a := by
  rw [advCleanup]
  rw [repMovsd_eq (Or.inr (by decide)), if_neg (by rw [advLen]; omega), adv0, Nat.zero_add,
    putDword_of_ne _ hcsum]

/-- The clean-up stores the checksum that makes the sum right. -/
theorem dword_advCleanup_csum : dword (advCleanup mem) advCsum =
    advMagic2 - csumLoop mem (advLen / 4) adv0Data 0 := by
  rw [← @dword_putDword mem advCsum (advMagic2 - csumLoop mem (advLen / 4) adv0Data 0)]
  refine dword_congr fun i hi => ?_
  rw [advCleanup, repMovsd_eq (Or.inr (by decide)), if_neg (by rw [adv1, advCsum]; omega), adv0,
    Nat.zero_add]

/-- The copies are equal. -/
theorem advCleanup_copy {i : Nat} (h : i < 512) :
    advCleanup mem (adv1 + i) = advCleanup mem (adv0 + i) := by
  rw [advCleanup]
  rw [repMovsd_eq (Or.inr (by decide)), repMovsd_eq (Or.inr (by decide)),
    if_pos (by rw [advLen]; omega), if_neg (by rw [adv0, adv1]; omega), Nat.add_sub_cancel_left]

/-- A copy with its signatures passes the check behind a clean-up. -/
theorem checkAdv_advCleanup (hhead : dword mem adv0 = advMagic1)
    (htail : dword mem adv0Tail = advMagic3) : checkAdv (advCleanup mem) adv0 = true := by
  refine checkAdv_of_complement ?_ ?_ ?_
  · rw [← hhead]
    refine dword_congr fun i hi => advCleanup_of_ne ?_ ?_
    · exact Or.inl (by rw [adv0, advCsum]; omega)
    · exact Or.inl (by rw [adv0, adv1]; omega)
  · rw [← htail]
    refine dword_congr fun i hi => advCleanup_of_ne ?_ ?_
    · exact Or.inr (by rw [adv0Tail, adv0Data, advLen, advCsum]; omega)
    · exact Or.inl (by rw [adv0Tail, adv0Data, advLen, adv1]; omega)
  · rw [dword_advCleanup_csum]
    refine congrArg (advMagic2 - ·) (csumLoop_congr 0 fun i hi => Eq.symm ?_)
    rw [advLen] at hi
    refine advCleanup_of_ne ?_ ?_
    · exact Or.inr (by rw [adv0Data, advCsum]; omega)
    · exact Or.inl (by rw [adv0Data, adv1]; omega)

/-! ## Resetting -/

/-- The data of a reset copy are zeros. -/
theorem advReset_data {i : Nat} (h : i < advLen) : advReset mem (adv0Data + i) = 0 := by
  rw [advLen] at h
  rw [advReset]
  rw [putDword_of_ne _ (Or.inl (by rw [adv0, adv0Data, advLen]; omega)), repStosd_zero,
    if_pos (by rw [adv0, adv0Data, advLen]; omega)]

/-- A reset leaves what is behind the first copy. -/
theorem advReset_of_ge {a : Nat} (h : adv1 ≤ a) : advReset mem a = mem a := by
  rw [adv1] at h
  rw [advReset]
  rw [putDword_of_ne _ (Or.inr (by rw [adv0, advLen]; omega)), repStosd_zero,
    if_neg (by rw [adv0, advLen]; omega), putDword_of_ne _ (Or.inr (by rw [adv0]; omega)),
    putDword_of_ne _ (Or.inr (by rw [adv0]; omega))]

/-- A reset stores the first signature and the checksum of no data. -/
theorem advReset_head {a : Nat} (h : a < adv0Data) :
    advReset mem a = putDword (putDword mem adv0 advMagic1) advCsum advMagic2 a := by
  rw [adv0Data] at h
  rw [advReset]
  rw [putDword_of_ne _ (Or.inl (by rw [adv0, advLen]; omega)), repStosd_zero,
    if_neg (by rw [adv0]; omega), adv0, Nat.zero_add, advCsum]

/-- A reset leaves a blank copy. -/
theorem advReset_blank (mem : Mem) : Blank (advReset mem) := by
  refine ⟨checkAdv_of_complement ?_ ?_ ?_, fun i hi => advReset_data hi⟩
  · rw [← @dword_putDword mem adv0 advMagic1]
    refine dword_congr fun i hi => ?_
    rw [advReset_head (by rw [adv0, adv0Data]; omega),
      putDword_of_ne _ (Or.inl (by rw [adv0, advCsum]; omega))]
  · exact dword_putDword _ _
  · rw [csumLoop_zeros fun i hi => advReset_data hi, UInt32.sub_zero,
      ← @dword_putDword (putDword mem adv0 advMagic1) advCsum advMagic2]
    exact dword_congr fun i hi => advReset_head (by rw [advCsum, adv0Data]; omega)

/-! ## Verifying -/

/-- A bad first copy is made the second one, when that is good. -/
theorem advVerify_backup {advDrive : UInt8} (hdrive : advDrive ≠ 0xff)
    (h0 : checkAdv mem adv0 = false) (h1 : checkAdv mem adv1 = true) (a : Nat) :
    advVerify advDrive mem a = if a < 512 then mem (adv1 + a) else mem a := by
  rw [advVerify, if_neg hdrive, h0, if_neg Bool.false_ne_true, h1, if_pos rfl,
    repMovsd_eq (Or.inl (by decide)), adv0, Nat.sub_zero]
  exact if_congr (by omega) rfl rfl

/-- With both copies damaged the first is reset. -/
theorem advVerify_reset {advDrive : UInt8} (h0 : checkAdv mem adv0 = false)
    (h1 : checkAdv mem adv1 = false) : advVerify advDrive mem = advReset mem := by
  rw [advVerify, h0, h1, if_neg Bool.false_ne_true, if_neg Bool.false_ne_true, ite_self]

/-- After `adv_cleanup` both copies are good and equal. With a drive, `adv_verify` makes a bad first
copy the second one as `adv_cleanup` left it, and nothing else changes. When both are bad, or
without a drive, it makes the first copy blank. -/
theorem adv_cleanup_verify (mem : Mem) (hhead : dword mem adv0 = advMagic1)
    (htail : dword mem adv0Tail = advMagic3) :
    (checkAdv (advCleanup mem) adv0 = true ∧ checkAdv (advCleanup mem) adv1 = true ∧
      ∀ i < 512, advCleanup mem (adv1 + i) = advCleanup mem (adv0 + i)) ∧
    ∀ (advDrive : UInt8) (mem' : Mem), checkAdv mem' adv0 = false →
      (advDrive ≠ 0xff → (∀ i < 512, mem' (adv1 + i) = advCleanup mem (adv1 + i)) →
        ∀ a, advVerify advDrive mem' a = if a < 512 then advCleanup mem (adv1 + a) else mem' a) ∧
      (advDrive = 0xff ∨ checkAdv mem' adv1 = false → Blank (advVerify advDrive mem') ∧
        ∀ a, adv1 ≤ a → advVerify advDrive mem' a = mem' a) := by
  have hfirst := checkAdv_advCleanup hhead htail
  have hsecond : checkAdv (advCleanup mem) adv1 = true := by
    rw [checkAdv_congr fun i hi => advCleanup_copy hi]
    exact hfirst
  refine ⟨⟨hfirst, hsecond, fun i hi => advCleanup_copy hi⟩, fun advDrive mem' h0 => ⟨?_, ?_⟩⟩
  · intro hdrive hbackup a
    have h1 : checkAdv mem' adv1 = true := by
      rw [checkAdv_congr hbackup]
      exact hsecond
    rw [advVerify_backup hdrive h0 h1]
    by_cases ha : a < 512
    · rw [if_pos ha, if_pos ha, hbackup a ha]
    · rw [if_neg ha, if_neg ha]
  · intro hbad
    have hreset : advVerify advDrive mem' = advReset mem' := by
      obtain hdrive | h1 := hbad
      · rw [advVerify, if_pos hdrive]
      · exact advVerify_reset h0 h1
    rw [hreset]
    exact ⟨advReset_blank mem', fun a ha => advReset_of_ge ha⟩

/-- A vector with a one in its first data byte. -/
def savedMem : Mem :=
  putDword (putDword (put (fun _ => 0) adv0Data 1) adv0 advMagic1) adv0Tail advMagic3

/-- The sample has the first signature. -/
theorem savedMem_head : dword savedMem adv0 = advMagic1 := by
  rw [savedMem, dword_putDword_of_ne _ (Or.inl (by decide)), dword_putDword]

/-- The sample has the last signature. -/
theorem savedMem_tail : dword savedMem adv0Tail = advMagic3 := dword_putDword _ _

/-- The sample has a byte of data. -/
theorem savedMem_data : advCleanup savedMem (adv1 + adv0Data) = 1 := by
  have hcopy : advCleanup savedMem (adv1 + adv0Data) = advCleanup savedMem (adv0 + adv0Data) :=
    advCleanup_copy (by decide)
  rw [hcopy, advCleanup_of_ne (by decide) (by decide), savedMem, putDword_of_ne _ (by decide),
    putDword_of_ne _ (by decide)]
  rfl

/-- A vector without its head is bad. -/
theorem checkAdv_headless (mem : Mem) : checkAdv (put mem adv0 0) adv0 = false := by
  refine decide_eq_false fun h => ?_
  have hbyte : put mem adv0 0 adv0 = dwordByte advMagic1 0 := by
    rw [← h.1]
    exact (dwordByte_dword (show 0 < 4 by decide)).symm
  rw [put_self] at hbyte
  exact absurd hbyte (by decide)

/-- The sample with one byte of data. -/
theorem adv_cleanup_verify_saved :
    (checkAdv (advCleanup savedMem) adv0 = true ∧ checkAdv (advCleanup savedMem) adv1 = true ∧
      ∀ i < 512, advCleanup savedMem (adv1 + i) = advCleanup savedMem (adv0 + i)) ∧
    ∀ (advDrive : UInt8) (mem' : Mem), checkAdv mem' adv0 = false →
      (advDrive ≠ 0xff → (∀ i < 512, mem' (adv1 + i) = advCleanup savedMem (adv1 + i)) →
        ∀ a, advVerify advDrive mem' a =
          if a < 512 then advCleanup savedMem (adv1 + a) else mem' a) ∧
      (advDrive = 0xff ∨ checkAdv mem' adv1 = false → Blank (advVerify advDrive mem') ∧
        ∀ a, adv1 ≤ a → advVerify advDrive mem' a = mem' a) :=
  adv_cleanup_verify savedMem savedMem_head savedMem_tail

/-- Without a drive the first copy is not restored: its first data byte is lost. -/
theorem adv_verify_resets_without_drive :
    ¬ ∀ (mem : Mem), dword mem adv0 = advMagic1 → dword mem adv0Tail = advMagic3 →
      ∀ (advDrive : UInt8) (mem' : Mem),
        (∀ i < 512, mem' (adv1 + i) = advCleanup mem (adv1 + i)) →
        checkAdv mem' adv0 = false →
        ∀ i < 512, advVerify advDrive mem' (adv0 + i) = advCleanup mem (adv1 + i) := by
  intro h
  have hsame : ∀ i < 512, put (advCleanup savedMem) adv0 0 (adv1 + i) =
      advCleanup savedMem (adv1 + i) :=
    fun i _ => put_of_ne _ (by rw [adv0, adv1]; omega)
  have hrestored := h savedMem savedMem_head savedMem_tail 0xff _ hsame
    (checkAdv_headless _) adv0Data (by decide)
  rw [advVerify, if_pos rfl, savedMem_data] at hrestored
  have hreset : advReset (put (advCleanup savedMem) adv0 0) (adv0Data + 0) = 0 :=
    advReset_data (by decide)
  exact absurd (hreset.symm.trans hrestored) (by decide)

end Liigboot.Adv
