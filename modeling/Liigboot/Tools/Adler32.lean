import Liigboot.Lib.TwoSums

/-!
# Combining two checksums

`adler32_combine` of `upxbc` computes the checksum of a concatenation from the checksums of its
parts. The sums are reduced by subtraction only, which is enough because each stays below a small
multiple of the modulus.
-/

namespace Liigboot.Tools

/-- The modulus of Adler-32. -/
def adlerBase : Nat := 65521

/-- The two sums in the halves of a number. -/
def sumsOf (adler : Nat) : Sums := ⟨adler % 2 ^ 16, adler / 2 ^ 16⟩

/-- The number with the two sums in its halves. -/
def packSums (s : Sums) : Nat := s.a + s.b * 2 ^ 16

/-- The Adler-32 checksum of a string. -/
def adler32 (data : List UInt8) : Nat := packSums (Sums.start.addAll adlerBase data)

/-- A signed 32-bit number. -/
def signed32 (n : Nat) : Int := if n < 2 ^ 31 then n else n - 2 ^ 32

/-- `value & 0xffffffff` -/
def mask32 (value : Int) : Nat := (value % 2 ^ 32).toNat

/-- `zlib.adler32(data, start)`. The start is cut to 32 bits, and the result is signed. -/
def zlibAdler32 (data : List UInt8) (start : Int) : Int :=
  signed32 (packSums ((sumsOf (mask32 start)).addAll adlerBase data))

/-- `adler32_combine` -/
def adler32Combine (adler1 adler2 : Int) (len2 : Nat) : Nat :=
  let adler1 := mask32 adler1
  let adler2 := mask32 adler2
  let rem := len2 % 65521
  let sum1 := adler1 &&& 0xffff
  let sum2 := (rem * sum1) % 65521
  let sum1 := sum1 + ((adler2 &&& 0xffff) + 65521 - 1)
  let sum2 := sum2 + (((adler1 >>> 16) &&& 0xffff) + ((adler2 >>> 16) &&& 0xffff) + 65521 - rem)
  let sum1 := if 65521 ≤ sum1 then sum1 - 65521 else sum1
  let sum1 := if 65521 ≤ sum1 then sum1 - 65521 else sum1
  let sum2 := if 65521 <<< 1 ≤ sum2 then sum2 - 65521 <<< 1 else sum2
  let sum2 := if 65521 ≤ sum2 then sum2 - 65521 else sum2
  sum1 ||| (sum2 <<< 16)

/-! ## Sums in the halves of a number -/

variable {s : Sums} {n : Nat}

theorem packSums_lt (h : s.Reduced adlerBase) : packSums s < 2 ^ 32 := by
  obtain ⟨ha, hb⟩ := h
  simp only [packSums, adlerBase] at *
  omega

theorem sumsOf_packSums (h : s.Reduced adlerBase) : sumsOf (packSums s) = s := by
  obtain ⟨ha, -⟩ := h
  have hlow : s.a < 2 ^ 16 := ha.trans (by decide)
  rw [sumsOf, packSums, Nat.add_mul_mod_self_right, Nat.mod_eq_of_lt hlow,
    Nat.add_mul_div_right _ _ (by decide), Nat.div_eq_of_lt hlow, Nat.zero_add]

/-- The sign is lost again by masking. -/
theorem mask32_signed32 (h : n < 2 ^ 32) : mask32 (signed32 n) = n := by
  unfold mask32 signed32
  split <;> omega

theorem mask32_natCast (h : n < 2 ^ 32) : mask32 (n : Int) = n := by
  unfold mask32
  omega

theorem start_reduced : Sums.start.Reduced adlerBase := ⟨by decide, by decide⟩

theorem adler32_lt (data : List UInt8) : adler32 data < 2 ^ 32 :=
  packSums_lt (start_reduced.addAll data)

/-- A checksum can be continued, whether it is taken signed or masked. -/
theorem mask32_zlibAdler32 {start : Int} {data more : List UInt8}
    (h : mask32 start = adler32 data) : mask32 (zlibAdler32 more start) = adler32 (data ++ more) := by
  have hred := start_reduced.addAll data
  rw [zlibAdler32, h, adler32, sumsOf_packSums hred, mask32_signed32 (packSums_lt (hred.addAll more)),
    adler32, Sums.addAll_append]

/-- `zlib.adler32(data)` -/
theorem mask32_zlibAdler32_one (data : List UInt8) :
    mask32 (zlibAdler32 data 1) = adler32 data :=
  @mask32_zlibAdler32 1 [] data rfl

/-! ## Combining -/

/-- What is less than three times the modulus is reduced by two subtractions. -/
private theorem reduce_three {x : Nat} (hx : x < 3 * 65521) :
    (if 65521 ≤ (if 65521 ≤ x then x - 65521 else x) then
      (if 65521 ≤ x then x - 65521 else x) - 65521
      else if 65521 ≤ x then x - 65521 else x) = x % 65521 := by
  split_ifs <;> omega

/-- What is less than four times the modulus is reduced by a double and a single subtraction. -/
private theorem reduce_four {x : Nat} (hx : x < 4 * 65521) :
    (if 65521 ≤ (if 65521 <<< 1 ≤ x then x - 65521 <<< 1 else x) then
      (if 65521 <<< 1 ≤ x then x - 65521 <<< 1 else x) - 65521
      else if 65521 <<< 1 ≤ x then x - 65521 <<< 1 else x) = x % 65521 := by
  rw [show 65521 <<< 1 = 2 * 65521 from rfl]
  split_ifs <;> omega

private theorem packSums_halves (h : s.Reduced adlerBase) :
    packSums s &&& 0xffff = s.a ∧ (packSums s >>> 16) &&& 0xffff = s.b := by
  obtain ⟨ha, hb⟩ := h
  simp only [packSums, adlerBase] at *
  rw [Nat.shiftRight_eq_div_pow, show 0xffff = 2 ^ 16 - 1 from rfl, Nat.and_two_pow_sub_one_eq_mod,
    Nat.and_two_pow_sub_one_eq_mod]
  omega

private theorem or_shiftLeft (h : s.Reduced adlerBase) : s.a ||| (s.b <<< 16) = packSums s := by
  have hlow : s.a < 2 ^ 16 := h.a_lt.trans (by decide)
  rw [Nat.or_comm, ← Nat.shiftLeft_add_eq_or_of_lt hlow, Nat.shiftLeft_eq, packSums, Nat.add_comm]

/-- The checksum of a concatenation is made of the checksums of its parts. -/
theorem adler32Combine_eq {adler1 adler2 : Int} {data more : List UInt8}
    (h1 : mask32 adler1 = adler32 data) (h2 : mask32 adler2 = adler32 more) :
    adler32Combine adler1 adler2 more.length = adler32 (data ++ more) := by
  have hs := start_reduced.addAll data
  have ht := start_reduced.addAll more
  have hr := hs.addAll more
  rw [adler32, Sums.addAll_append]
  obtain ⟨ha, hb⟩ := Sums.addAll_combine (show 0 < adlerBase by decide)
    (Sums.start.addAll adlerBase data) more
  rw [adler32] at h1 h2
  generalize Sums.start.addAll adlerBase data = s at *
  generalize Sums.start.addAll adlerBase more = t at *
  generalize s.addAll adlerBase more = r at *
  obtain ⟨hs1, hs2⟩ := packSums_halves hs
  obtain ⟨ht1, ht2⟩ := packSums_halves ht
  have hrem : more.length % 65521 < 65521 := Nat.mod_lt _ (by decide)
  have hprod : more.length % 65521 * s.a % 65521 < 65521 := Nat.mod_lt _ (by decide)
  have hsum1 : (s.a + (t.a + 65521 - 1)) % 65521 = r.a := by
    rw [← Nat.mod_eq_of_lt hr.a_lt, ha, Nat.add_sub_assoc (by decide), Nat.add_assoc]
    rfl
  have hsum2 : (more.length % 65521 * s.a % 65521 +
      (s.b + t.b + 65521 - more.length % 65521)) % 65521 = r.b := by
    rw [← Nat.mod_eq_of_lt hr.b_lt, hb, Nat.mod_add_mod, Nat.add_sub_assoc hrem.le,
      ← Nat.add_assoc, ← Nat.add_assoc]
    rfl
  have hsa := hs.a_lt
  have hsb := hs.b_lt
  have hta := ht.a_lt
  have htb := ht.b_lt
  simp only [adlerBase] at hsa hsb hta htb
  simp only [adler32Combine, h1, h2, hs1, hs2, ht1, ht2]
  rw [reduce_three (by omega), reduce_four (by omega), hsum1, hsum2, or_shiftLeft hr]

end Liigboot.Tools
