import Mathlib.Algebra.Polynomial.Div
import Mathlib.Algebra.Polynomial.OfFn
import Mathlib.Algebra.Field.ZMod
import Mathlib.Data.Bool.Count
import Mathlib.Tactic.Ring

/-!
# Cyclic redundancy checks

A register of bits takes the bits of a message in, the one that counts most being its lowest. What
is left in it is the remainder of a division of polynomials. Two messages that are the same but for
as many bits in a row as the register has do not leave the same in it.
-/

namespace Liigboot.Crc

open Polynomial

variable {w : Nat} {p u v : BitVec w} {bits : List Bool}

/-! ## The register -/

/-- A step of the register, which takes the polynomial in when a bit falls out. -/
def shift (p v : BitVec w) : BitVec w := (v >>> 1) ^^^ (if v.getLsbD 0 then p else 0#w)

/-- A bit at the low end. -/
def lowBit (w : Nat) (b : Bool) : BitVec w := if b then 1#w else 0#w

/-- The register after the bits of a message. -/
def crc (p v : BitVec w) : List Bool → BitVec w
  | [] => v
  | b :: bits => crc p (shift p (v ^^^ lowBit w b)) bits

/-- A bit behind a step is the next higher one, changed where the polynomial has a bit if the low
one was set. -/
@[simp] theorem getLsbD_shift (p v : BitVec w) (i : Nat) :
    (shift p v).getLsbD i = (v.getLsbD (i + 1) ^^ (v.getLsbD 0 && p.getLsbD i)) := by
  rw [shift, BitVec.getLsbD_xor, BitVec.getLsbD_ushiftRight, Nat.add_comm 1 i]
  cases v.getLsbD 0 <;> simp

/-- A single bit at the low end. -/
@[simp] theorem getLsbD_lowBit (b : Bool) (i : Nat) :
    (lowBit w b).getLsbD i = (decide (i < w) && decide (i = 0) && b) := by
  cases b with
  | false => simp [lowBit]
  | true =>
    simp only [lowBit, if_true, BitVec.getLsbD_one, Bool.and_true]
    by_cases hi : i = 0
    · simp [hi]
    · simp [hi]

/-- A step is linear. -/
theorem shift_xor (p u v : BitVec w) : shift p (u ^^^ v) = shift p u ^^^ shift p v := by
  apply BitVec.eq_of_getLsbD_eq
  intro i _
  simp only [getLsbD_shift, BitVec.getLsbD_xor]
  cases u.getLsbD 0 <;> cases v.getLsbD 0 <;> cases p.getLsbD i <;>
    simp [Bool.xor_comm]

@[simp] theorem shift_zero (p : BitVec w) : shift p 0#w = 0#w := by
  apply BitVec.eq_of_getLsbD_eq
  intro i _
  simp

/-- When the polynomial has the top bit, nothing is lost. -/
theorem eq_zero_of_shift_eq_zero (hp : p.msb = true) (h : shift p v = 0#w) : v = 0#w := by
  have hw : 0 < w := by
    rcases Nat.eq_zero_or_pos w with rfl | hw
    · rw [BitVec.eq_nil p] at hp
      cases hp
    · exact hw
  have hbit (i : Nat) : (v.getLsbD (i + 1) ^^ (v.getLsbD 0 && p.getLsbD i)) = false := by
    rw [← getLsbD_shift, h, BitVec.getLsbD_zero]
  have htop : p.getLsbD (w - 1) = true := by rwa [← BitVec.msb_eq_getLsbD_last]
  have hlow : v.getLsbD 0 = false := by
    have hlast := hbit (w - 1)
    rwa [htop, Bool.and_true, BitVec.getLsbD_of_ge v _ (by omega), Bool.false_xor] at hlast
  apply BitVec.eq_of_getLsbD_eq
  intro i _
  cases i with
  | zero => rw [hlow, BitVec.getLsbD_zero]
  | succ i => simpa [hlow] using hbit i

/-- With the highest bit in the polynomial no two values are stepped to the same one. -/
theorem shift_injective (hp : p.msb = true) : Function.Injective (shift p) := by
  intro u v h
  rw [← BitVec.xor_eq_zero_iff] at h ⊢
  rw [← shift_xor] at h
  exact eq_zero_of_shift_eq_zero hp h

/-- The check of a text goes on from that of its front. -/
theorem crc_append (p v : BitVec w) (bits bits' : List Bool) :
    crc p v (bits ++ bits') = crc p (crc p v bits) bits' := by
  induction bits generalizing v with
  | nil => rfl
  | cons b bits ih => rw [List.cons_append, crc, crc, ih]

/-- The bits of a message do not bring two registers together. -/
theorem crc_injective (hp : p.msb = true) (bits : List Bool) :
    Function.Injective fun v => crc p v bits := by
  induction bits with
  | nil => exact fun u v h => h
  | cons b bits ih =>
    intro u v h
    exact (BitVec.xor_left_inj _).mp (shift_injective hp (ih h))

/-! ## Bits as a number -/

/-- The bits of a message in a register, the first one being the lowest. -/
def ofBits (w : Nat) : List Bool → BitVec w
  | [] => 0#w
  | b :: bits => lowBit w b ^^^ (ofBits w bits <<< 1)

/-- The bits of a value made of a list. -/
theorem getLsbD_ofBits (w : Nat) (bits : List Bool) (i : Nat) :
    (ofBits w bits).getLsbD i = (decide (i < w) && bits.getD i false) := by
  induction bits generalizing i with
  | nil => simp [ofBits]
  | cons b bits ih =>
    rw [ofBits, BitVec.getLsbD_xor, getLsbD_lowBit, BitVec.getLsbD_shiftLeft]
    cases i with
    | zero => simp
    | succ i =>
      rw [Nat.add_sub_cancel, ih]
      by_cases hi : i + 1 < w
      · simp [hi, show i < w by omega]
      · simp [hi]

/-- Lists of one length that fit have different values. -/
theorem ofBits_injective {xs ys : List Bool} (hlength : xs.length = ys.length)
    (hle : xs.length ≤ w) (h : ofBits w xs = ofBits w ys) : xs = ys := by
  apply List.ext_getElem hlength
  intro i hx hy
  have hbit := congrArg (fun v => v.getLsbD i) h
  simp only [getLsbD_ofBits] at hbit
  rwa [List.getD_eq_getElem _ _ hx, List.getD_eq_getElem _ _ hy, decide_eq_true (by omega),
    Bool.true_and, Bool.true_and] at hbit

/-- A register that has room takes the bits in at once. -/
theorem shift_ofBits_cons (b : Bool) (hlt : bits.length < w) :
    shift p (v ^^^ ofBits w (b :: bits)) = shift p (v ^^^ lowBit w b) ^^^ ofBits w bits := by
  have hup : shift p (ofBits w bits <<< 1) = ofBits w bits := by
    apply BitVec.eq_of_getLsbD_eq
    intro i hi
    rw [getLsbD_shift, BitVec.getLsbD_shiftLeft, BitVec.getLsbD_shiftLeft, Nat.add_sub_cancel]
    by_cases hlast : i + 1 < w
    · simp [hlast]
    · have htop : bits.getD i false = false := List.getD_eq_default _ _ (by omega)
      simp only [getLsbD_ofBits, htop, hlast]
      simp
  rw [ofBits, ← BitVec.xor_assoc, shift_xor, hup]

/-- Bits that fit into the register can be put in at once. -/
theorem crc_eq_iterate (hle : bits.length ≤ w) :
    crc p v bits = (shift p)^[bits.length] (v ^^^ ofBits w bits) := by
  induction bits generalizing v with
  | nil => simp [crc, ofBits]
  | cons b bits ih =>
    rw [List.length_cons] at hle ⊢
    rw [crc, ih (by omega), Function.iterate_succ_apply, shift_ofBits_cons b (by omega)]

/-- Messages that are the same but for as many bits in a row as the register has are told apart. -/
theorem crc_ne_of_burst (hp : p.msb = true) (v : BitVec w) (before after : List Bool)
    {xs ys : List Bool} (hlength : xs.length = ys.length) (hle : xs.length ≤ w) (hne : xs ≠ ys) :
    crc p v (before ++ xs ++ after) ≠ crc p v (before ++ ys ++ after) := by
  intro h
  rw [crc_append, crc_append, crc_append, crc_append] at h
  have hmid : crc p (crc p v before) xs = crc p (crc p v before) ys := crc_injective hp after h
  generalize crc p v before = u at hmid
  rw [crc_eq_iterate hle, crc_eq_iterate (by omega), ← hlength] at hmid
  have hstart := (BitVec.xor_right_inj _).mp ((shift_injective hp).iterate _ hmid)
  exact hne (ofBits_injective hlength hle hstart)

/-! ## Tables -/

/-- So are several steps. -/
theorem shift_iterate_xor (p u v : BitVec w) (k : Nat) :
    (shift p)^[k] (u ^^^ v) = (shift p)^[k] u ^^^ (shift p)^[k] v := by
  induction k generalizing u v with
  | zero => rfl
  | succ k ih => rw [Function.iterate_succ_apply, shift_xor, ih]; rfl

/-- Bits that are not in reach of the steps only move. -/
theorem shift_iterate_of_low {k : Nat} (hlow : ∀ i < k, v.getLsbD i = false) :
    (shift p)^[k] v = v >>> k := by
  induction k generalizing v with
  | zero => simp
  | succ k ih =>
    have hstep : shift p v = v >>> 1 := by
      rw [shift, hlow 0 (Nat.succ_pos k)]
      simp
    rw [Function.iterate_succ_apply, hstep, ih, ← BitVec.shiftRight_add, Nat.add_comm 1 k]
    intro i hi
    rw [BitVec.getLsbD_ushiftRight]
    exact hlow _ (by omega)

/-- Some steps at once: a table has what they make of the low bits, and the others move. -/
theorem shift_iterate_table (p v : BitVec w) (k : Nat) :
    (shift p)^[k] v = (shift p)^[k] ((v.setWidth k).setWidth w) ^^^ (v >>> k) := by
  have hsplit : v = (v.setWidth k).setWidth w ^^^ ((v >>> k) <<< k) := by
    apply BitVec.eq_of_getLsbD_eq
    intro i hi
    rw [BitVec.getLsbD_xor, BitVec.getLsbD_setWidth, BitVec.getLsbD_setWidth,
      BitVec.getLsbD_shiftLeft, BitVec.getLsbD_ushiftRight]
    by_cases hk : i < k
    · simp [hi, hk]
    · simp [hi, hk, Nat.add_sub_cancel' (Nat.le_of_not_lt hk)]
  have hhigh : (shift p)^[k] ((v >>> k) <<< k) = v >>> k := by
    rw [shift_iterate_of_low fun i hi => by simp [BitVec.getLsbD_shiftLeft, hi]]
    apply BitVec.eq_of_getLsbD_eq
    intro i hi
    rw [BitVec.getLsbD_ushiftRight, BitVec.getLsbD_shiftLeft, BitVec.getLsbD_ushiftRight,
      Nat.add_sub_cancel_left]
    by_cases hk : k + i < w
    · simp [hk]
    · simp [hk, BitVec.getLsbD_of_ge v (k + i) (by omega)]
  conv_lhs => rw [hsplit, shift_iterate_xor, hhigh]

/-! ## The division -/

/-- A bit as a coefficient. -/
def coefficient (b : Bool) : ZMod 2 := if b then 1 else 0

/-- The coefficient of a bit that is not set. -/
@[simp] theorem coefficient_false : coefficient false = 0 := rfl

/-- The coefficient of a bit that is set. -/
@[simp] theorem coefficient_true : coefficient true = 1 := rfl

/-- Exclusive or adds coefficients. -/
theorem coefficient_xor (a b : Bool) :
    coefficient (a ^^ b) = coefficient a + coefficient b := by
  cases a <;> cases b <;> decide

/-- In the field of two elements the difference is the sum. -/
theorem coefficient_xor_and (a b c : Bool) :
    coefficient (a ^^ (b && c)) = coefficient a - coefficient b * coefficient c := by
  cases a <;> cases b <;> cases c <;> decide

/-- The polynomial of a register, whose lowest bit has the highest power. -/
noncomputable def poly (v : BitVec w) : (ZMod 2)[X] := ofFn w fun i => coefficient (v.getMsbD i)

/-- The polynomial of a message, whose first bit has the highest power. -/
noncomputable def message : List Bool → (ZMod 2)[X]
  | [] => 0
  | b :: bits => C (coefficient b) * X ^ bits.length + message bits

/-- What the register divides by. -/
noncomputable def divisor (p : BitVec w) : (ZMod 2)[X] := X ^ w + poly p

/-- The highest bit of a register is the constant coefficient. -/
theorem coeff_poly (v : BitVec w) (k : Nat) : (poly v).coeff k = coefficient (v.getMsbD k) := by
  by_cases hk : k < w
  · rw [poly, ofFn_coeff_eq_val_of_lt _ hk]
  · rw [poly, ofFn_coeff_eq_zero_of_ge _ (Nat.le_of_not_lt hk), BitVec.getMsbD_of_ge v _ (by omega),
      coefficient_false]

/-- A register is a polynomial of a degree below its width. -/
theorem degree_poly_lt (v : BitVec w) : (poly v).degree < w := ofFn_degree_lt _

/-- The divisor has the leading coefficient 1. -/
theorem divisor_monic (p : BitVec w) : (divisor p).Monic := monic_X_pow_add (degree_poly_lt p)

/-- Its degree is the width of the register. -/
theorem degree_divisor (p : BitVec w) : (divisor p).degree = w := by
  rw [divisor, degree_add_eq_left_of_degree_lt, degree_X_pow]
  rw [degree_X_pow]
  exact degree_poly_lt p

/-- Exclusive or adds polynomials. -/
theorem poly_xor (u v : BitVec w) : poly (u ^^^ v) = poly u + poly v := by
  ext k
  rw [coeff_add, coeff_poly, coeff_poly, coeff_poly, BitVec.getMsbD_xor, coefficient_xor]

/-- Multiplying with the variable moves the coefficients up. -/
theorem coeff_X_mul_poly (v : BitVec w) (k : Nat) :
    (X * poly v).coeff k =
      coefficient (if k = w then v.getLsbD 0 else decide (k < w) && v.getLsbD (w - k)) := by
  cases k with
  | zero =>
    rw [coeff_X_mul_zero]
    by_cases hw : 0 = w
    · rw [if_pos hw, BitVec.getLsbD_of_ge v 0 (by omega), coefficient_false]
    · rw [if_neg hw, Nat.sub_zero, BitVec.getLsbD_of_ge v w (Nat.le_refl w), Bool.and_false,
        coefficient_false]
  | succ k =>
    rw [coeff_X_mul, coeff_poly, BitVec.getMsbD_eq_getLsbD, show w - 1 - k = w - (k + 1) by omega]
    by_cases hw : k + 1 = w
    · rw [if_pos hw, decide_eq_true (by omega), Bool.true_and, Nat.sub_eq_zero_of_le hw.ge]
    · by_cases hlt : k < w
      · rw [if_neg hw, decide_eq_true hlt, decide_eq_true (by omega)]
      · rw [if_neg hw, decide_eq_false hlt, decide_eq_false (by omega)]

/-- The lowest bit has the highest power. -/
theorem X_mul_poly_lowBit (hw : 0 < w) (b : Bool) :
    X * poly (lowBit w b) = C (coefficient b) * X ^ w := by
  ext k
  rw [coeff_X_mul_poly, coeff_C_mul, coeff_X_pow, getLsbD_lowBit, getLsbD_lowBit]
  by_cases hk : k = w
  · simp [hk, hw]
  · by_cases hlt : k < w
    · simp [hk, show w - k ≠ 0 by omega]
    · simp [hk, hlt]

/-- A step multiplies, and takes the divisor away when it fits in. -/
theorem poly_shift (p v : BitVec w) :
    poly (shift p v) = X * poly v - C (coefficient (v.getLsbD 0)) * divisor p := by
  ext k
  rw [coeff_sub, coeff_C_mul, divisor, coeff_add, coeff_X_pow, coeff_X_mul_poly, coeff_poly,
    coeff_poly, BitVec.getMsbD_eq_getLsbD, BitVec.getMsbD_eq_getLsbD, getLsbD_shift]
  rcases Nat.lt_trichotomy k w with hlt | rfl | hgt
  · rw [if_neg hlt.ne, if_neg hlt.ne, decide_eq_true hlt, Bool.true_and, Bool.true_and,
      Bool.true_and, zero_add, show w - 1 - k + 1 = w - k by omega, coefficient_xor_and]
  · simp
  · rw [if_neg hgt.ne', if_neg hgt.ne', decide_eq_false (by omega)]
    simp

/-- What is taken out of a message is a multiple of the divisor. -/
theorem exists_mul_divisor (hw : 0 < w) (p v : BitVec w) (bits : List Bool) :
    ∃ q, poly (crc p v bits) + divisor p * q =
      X ^ bits.length * poly v + X ^ w * message bits := by
  induction bits generalizing v with
  | nil => exact ⟨0, by simp [crc, message]⟩
  | cons b bits ih =>
    obtain ⟨q, hq⟩ := ih (shift p (v ^^^ lowBit w b))
    refine ⟨q + X ^ bits.length * C (coefficient ((v ^^^ lowBit w b).getLsbD 0)), ?_⟩
    rw [crc, mul_add, ← add_assoc, hq, poly_shift, poly_xor, mul_add X, X_mul_poly_lowBit hw,
      List.length_cons, message]
    ring

/-- What is left in the register is the remainder of the division. -/
theorem poly_crc (hw : 0 < w) (p v : BitVec w) (bits : List Bool) :
    poly (crc p v bits) = (X ^ bits.length * poly v + X ^ w * message bits) %ₘ divisor p := by
  obtain ⟨q, hq⟩ := exists_mul_divisor hw p v bits
  refine (div_modByMonic_unique q _ (divisor_monic p) ⟨hq, ?_⟩).2.symm
  rw [degree_divisor]
  exact degree_poly_lt _

/-! ## The number of ones -/

/-- At 1 a register has the sum of its bits. -/
theorem eval_poly (hw : 0 < w) (v : BitVec w) :
    (poly v).eval 1 = ∑ i ∈ Finset.range w, coefficient (v.getMsbD i) := by
  have hdegree : (poly v).natDegree < w := ofFn_natDegree_lt hw _
  rw [eval_eq_sum_range' hdegree]
  simp [coeff_poly]

/-- At 1 a message has the parity of its bits. -/
theorem eval_message (bits : List Bool) : (message bits).eval 1 = (bits.count true : ZMod 2) := by
  induction bits with
  | nil => simp [message]
  | cons b bits ih => cases b <;> simp [message, ih, add_comm]

/-- When the divisor has an even number of ones, the register keeps count of whether the message
does. -/
theorem eval_crc (hw : 0 < w) (hp : (divisor p).eval 1 = 0) (v : BitVec w) (bits : List Bool) :
    (poly (crc p v bits)).eval 1 = (poly v).eval 1 + (bits.count true : ZMod 2) := by
  obtain ⟨q, hq⟩ := exists_mul_divisor hw p v bits
  have heval := congrArg (eval 1) hq
  simpa [hp, eval_message] using heval

/-- A divisor that is zero at 1 finds every odd number of changed bits. -/
theorem crc_ne_of_count (hw : 0 < w) (hp : (divisor p).eval 1 = 0) (v : BitVec w)
    {xs ys : List Bool} (hne : xs.count true % 2 ≠ ys.count true % 2) :
    crc p v xs ≠ crc p v ys := by
  intro h
  have heval := eval_crc hw hp v xs
  rw [h, eval_crc hw hp, add_right_inj, ZMod.natCast_eq_natCast_iff'] at heval
  exact hne heval.symm

end Liigboot.Crc
