import Liigboot.Boot.IntGrammar
import Liigboot.Comcore.FormatInt

/-!
# Numbers that are read again

The digits of a number that `format_int` prints have its value. With no padding, no tick marks and
no plus sign, the whole text is a number in the syntax of `parseint`, which reads it back.
-/

namespace Liigboot.Comcore

open Liigboot.Boot

variable {base val skip i m : Nat} {value : UInt64} {flags : Flags} {width prec : Int}
  {digits : List UInt8}

/-! ## Digits -/

/-- The digits that are counted are enough for the value. -/
theorem lt_pow_countDigits (hbase : 1 < base) (val : Nat) :
    val < base ^ countDigits base val := by
  induction val using Nat.strong_induction_on with
  | _ val ih =>
    rw [countDigits]
    by_cases hval : 0 < val
    · have hlt := ih (val / base) (Nat.div_lt_self hval hbase)
      rw [dif_pos ⟨hbase, hval⟩, Nat.pow_succ]
      exact (Nat.div_lt_iff_lt_mul (Nat.zero_lt_of_lt hbase)).mp hlt
    · rw [dif_neg fun h => hval h.2, Nat.pow_zero]
      omega

/-- The first digit that is counted is not zero. -/
theorem pow_countDigits_le (hbase : 1 < base) (hval : 0 < val) :
    base ^ (countDigits base val - 1) ≤ val := by
  induction val using Nat.strong_induction_on with
  | _ val ih =>
    rw [countDigits, dif_pos ⟨hbase, hval⟩, Nat.add_sub_cancel]
    by_cases hrest : 0 < val / base
    · have hpos := countDigits_pos hbase hrest
      have hle := ih (val / base) (Nat.div_lt_self hval hbase) hrest
      calc base ^ countDigits base (val / base)
          = base ^ (countDigits base (val / base) - 1) * base := by
            rw [← Nat.pow_succ, Nat.succ_eq_add_one, Nat.sub_add_cancel hpos]
        _ ≤ val / base * base := Nat.mul_le_mul_right base hle
        _ ≤ val := Nat.div_mul_le_self val base
    · have hzero : countDigits base (val / base) = 0 := by
        rw [countDigits, dif_neg fun h => hrest h.2]
      rw [hzero, Nat.pow_zero]
      exact hval

/-- Both tables have the digits up to 15. -/
theorem digits_table (hdigits : digits = lcdigits ∨ digits = ucdigits) {d : Nat} (hd : d < 16) :
    digitOf (digits.getD d 0) = d := by
  have hall : ∀ d < 16, digitOf (lcdigits.getD d 0) = d ∧ digitOf (ucdigits.getD d 0) = d := by
    decide +kernel
  rcases hdigits with rfl | rfl
  · exact (hall d hd).1
  · exact (hall d hd).2

/-- The character of a digit reads back as the digit. -/
theorem digitOf_digitAt (hdigits : digits = lcdigits ∨ digits = ucdigits) (hbase : 1 < base)
    (hle : base ≤ 16) : digitOf (digitAt digits base val i) = val / base ^ i % base := by
  have hlt := Nat.mod_lt (val / base ^ i) (Nat.zero_lt_of_lt hbase)
  exact digits_table hdigits (by omega)

/-- Some digits, from right to left, with the value of the number above them. -/
theorem digitsValue_reverse (hdigits : digits = lcdigits ∨ digits = ucdigits) (hbase : 1 < base)
    (hle : base ≤ 16) (hval : val < base ^ (i + m)) :
    digitsValue base 0 (((List.range' i m).map (digitAt digits base val)).reverse) =
      val / base ^ i := by
  induction m generalizing i with
  | zero => simpa [digitsValue] using (Nat.div_eq_of_lt hval).symm
  | succ m ih =>
    have hrest := @ih (i + 1) (by rwa [Nat.add_right_comm])
    rw [List.range'_succ, List.map_cons, List.reverse_cons, digitsValue, List.foldl_append]
    rw [digitsValue] at hrest
    rw [hrest, List.foldl_cons, List.foldl_nil, digitOf_digitAt hdigits hbase hle, Nat.pow_succ,
      ← Nat.div_div_eq_div_mul]
    exact Nat.div_add_mod' _ _

theorem countDigits_zero : countDigits base 0 = 0 := by
  rw [countDigits, dif_neg fun h => absurd h.2 (Nat.lt_irrefl 0)]

/-- The adjusted count leaves no digit out. -/
theorem count_ge :
    countDigits base val ≤ adjustDigits (countDigits base val) val flags base prec := by
  simp only [adjustDigits]
  by_cases hval : val = 0
  · rw [hval, countDigits_zero]
    exact Nat.zero_le _
  · split_ifs <;> omega

/-- One of the two tables is used. -/
theorem digits_cases (upper : Bool) : (if upper then ucdigits else lcdigits) = lcdigits ∨
    (if upper then ucdigits else lcdigits) = ucdigits := by
  cases upper
  · exact Or.inl rfl
  · exact Or.inr rfl

/-! ## Plain numbers -/

/-- A number with no tick marks, no plus sign and no padding, and with the mark of its base. -/
structure Plain (flags : Flags) (base : Nat) : Prop where
  base : base = 10 ∨ (base = 8 ∨ base = 16) ∧ flags.hash = true
  tick : flags.tick = false
  plus : flags.plus = false
  space : flags.space = false

/-- Too few digits for a mark. -/
theorem marked_of_le {digit : Nat → UInt8} (h : i + m ≤ skip) :
    marked skip digit i m = (List.range' i m).map digit := by
  induction m generalizing i with
  | zero => rfl
  | succ m ih =>
    have hmark : ¬(i ≠ 0 ∧ i % skip = 0) := by
      rintro ⟨hi, hmod⟩
      rw [Nat.mod_eq_of_lt (by omega)] at hmod
      exact hi hmod
    rw [marked_succ, if_neg hmark, ih (by omega), List.range'_succ, List.map_cons]
    rfl

/-- The digits of a number with no tick marks, from right to left. -/
theorem number_plain (htick : flags.tick = false) :
    (intShape value flags base prec).number flags base =
      ((List.range' 0 (intShape value flags base prec).count).map (digitAt (if flags.upper then
        ucdigits else lcdigits) base (intShape value flags base prec).val)).reverse := by
  have hskip : (intShape value flags base prec).tickskip = (intShape value flags base prec).count := by
    change (if flags.tick then if base = 16 then 4 else 3 else _) = _
    rw [htick]
    rfl
  rw [IntShape.number, hskip, marked_of_le (Nat.zero_add _).le]

/-- Without ticks the number has only digits. -/
theorem isDigit_number {d : UInt8} (hbase : 1 < base) (hle : base ≤ 16) (htick : flags.tick = false)
    (hd : d ∈ (intShape value flags base prec).number flags base) : isDigit base d = true := by
  rw [number_plain htick, List.mem_reverse] at hd
  obtain ⟨j, -, rfl⟩ := List.mem_map.mp hd
  rw [isDigit, digitOf_digitAt (digits_cases _) hbase hle, decide_eq_true_eq]
  exact Nat.mod_lt _ (Nat.zero_lt_of_lt hbase)

/-- The first digit, and the others. -/
theorem number_cons {k : Nat} (htick : flags.tick = false)
    (hcount : (intShape value flags base prec).count = k + 1) :
    (intShape value flags base prec).number flags base =
      digitAt (if flags.upper then ucdigits else lcdigits) base
        (intShape value flags base prec).val k ::
      ((List.range' 0 k).map (digitAt (if flags.upper then ucdigits else lcdigits) base
        (intShape value flags base prec).val)).reverse := by
  rw [number_plain htick, hcount, List.range'_1_concat, List.map_append, List.reverse_append]
  simp

/-- The digits read back as the value. -/
theorem plain_value (hbase : 1 < base) (hle : base ≤ 16) (htick : flags.tick = false) :
    digitsValue base 0 ((intShape value flags base prec).number flags base) =
      (intShape value flags base prec).val := by
  have hval : (intShape value flags base prec).val <
      base ^ (0 + (intShape value flags base prec).count) := by
    rw [Nat.zero_add]
    exact Nat.lt_of_lt_of_le (lt_pow_countDigits hbase _)
      (Nat.pow_le_pow_right (Nat.zero_lt_of_lt hbase) count_ge)
  rw [number_plain htick, digitsValue_reverse (digits_cases _) hbase hle hval, Nat.pow_zero,
    Nat.div_one]

/-- Without a precision there are as many digits as it takes, and one for zero. -/
theorem adjustDigits_plain (h : (flags.hash && decide (base = 8)) = false) {ndigits : Nat} :
    adjustDigits ndigits val flags base (-1) = if val = 0 then 1 else ndigits := by
  have hneg : ¬(ndigits : Int) < -1 := by omega
  simp [adjustDigits, h, hneg]

/-- With the mark for octal, there is a zero in front. -/
theorem adjustDigits_octal (h : flags.hash = true) {ndigits : Nat} :
    adjustDigits ndigits val flags 8 (-1) = ndigits + 1 := by
  have hlt : (-1 : Int) < ndigits + 1 := by omega
  have hless : (ndigits : Int) < ndigits + 1 := by omega
  simp only [adjustDigits, h, decide_true, Bool.and_self, hlt, if_true, hless]
  omega

/-- The digits above a number are zeros. -/
theorem digitAt_above (hdigits : digits = lcdigits ∨ digits = ucdigits) {k : Nat}
    (h : val < base ^ k) : digitAt digits base val k = 0x30 := by
  have hzero : lcdigits.getD 0 0 = 0x30 ∧ ucdigits.getD 0 0 = 0x30 := by decide +kernel
  rw [digitAt, Nat.div_eq_of_lt h, Nat.zero_mod]
  rcases hdigits with rfl | rfl
  · exact hzero.1
  · exact hzero.2

/-- The digit in front of a decimal number is not zero. -/
theorem digitAt_first {k : Nat} (hdigits : digits = lcdigits ∨ digits = ucdigits)
    (hval : 0 < val) (hk : countDigits 10 val = k + 1) : digitAt digits 10 val k ≠ 0x30 := by
  intro hzero
  have hdigit := @digitOf_digitAt 10 val k digits hdigits (by decide) (by decide)
  have hlow := @pow_countDigits_le 10 val (by decide) hval
  have hhigh := @lt_pow_countDigits 10 (by decide) val
  have hdigitZero : digitOf 0x30 = 0 := by decide
  rw [hk, Nat.add_sub_cancel] at hlow
  rw [hk, Nat.pow_succ, Nat.mul_comm] at hhigh
  have hquot : val / 10 ^ k < 10 := Nat.div_lt_of_lt_mul (Nat.mul_comm 10 _ ▸ hhigh)
  have hpos : 0 < val / 10 ^ k := Nat.div_pos hlow (Nat.pow_pos (by decide))
  rw [hzero, hdigitZero, Nat.mod_eq_of_lt hquot] at hdigit
  omega

/-- The number and the mark of its base are a number in the syntax of `parseint`. -/
theorem plain_numeral (h : Plain flags base) :
    Numeral ((if flags.hash && base = 16 then [0x30, if flags.upper then 0x58 else 0x78] else []) ++
      (intShape value flags base (-1)).number flags base) (intShape value flags base (-1)).val := by
  have hcount : (intShape value flags base (-1)).count =
    adjustDigits (countDigits base (intShape value flags base (-1)).val)
      (intShape value flags base (-1)).val flags base (-1) := rfl
  rcases h.base with rfl | ⟨rfl | rfl, hhash⟩
  · -- decimal: the first digit is not zero, or the number is
    have hvalue : _ = (intShape value flags 10 (-1)).val :=
      plain_value (by decide) (by decide) h.tick
    rw [adjustDigits_plain (by simp)] at hcount
    simp only [Nat.reduceEqDiff, decide_false, Bool.and_false, Bool.false_eq_true, if_false,
      List.nil_append]
    by_cases hzero : (intShape value flags 10 (-1)).val = 0
    · rw [if_pos hzero] at hcount
      have hone : digitAt (if flags.upper then ucdigits else lcdigits) 10 0 0 = 0x30 := by
        cases flags.upper <;> decide +kernel
      have hcons := number_cons h.tick hcount
      rw [hzero, hone] at hcons
      rw [hcons, hzero]
      exact .octal (List.forall_mem_nil _)
    · rw [if_neg hzero] at hcount
      have hpos := Nat.pos_of_ne_zero hzero
      obtain ⟨k, hk⟩ := Nat.exists_eq_add_of_lt (@countDigits_pos 10 _ (by decide) hpos)
      rw [Nat.zero_add] at hk
      rw [hk] at hcount
      have hcons := number_cons h.tick hcount
      have hdec : ∀ d ∈ (intShape value flags 10 (-1)).number flags 10, isDigit 10 d = true :=
        fun d hd => isDigit_number (by decide) (by decide) h.tick hd
      rw [← hvalue]
      rw [hcons] at hdec ⊢
      exact .decimal (digitAt_first (digits_cases _) hpos hk) hdec
  · -- octal: the precision asks for a zero in front
    rw [adjustDigits_octal hhash] at hcount
    have hoct : ∀ d ∈ (intShape value flags 8 (-1)).number flags 8, isDigit 8 d = true :=
      fun d hd => isDigit_number (by decide) (by decide) h.tick hd
    have hlt := @lt_pow_countDigits 8 (by decide) (intShape value flags 8 (-1)).val
    have hvalue := @digitsValue_reverse 8 _ 0 _ _ (digits_cases flags.upper) (by decide) (by decide)
      ((Nat.zero_add (countDigits 8 (intShape value flags 8 (-1)).val)).symm ▸ hlt)
    rw [Nat.pow_zero, Nat.div_one] at hvalue
    rw [number_cons h.tick hcount, digitAt_above (digits_cases _) hlt] at hoct ⊢
    simp only [Nat.reduceEqDiff, decide_false, Bool.and_false, Bool.false_eq_true, if_false,
      List.nil_append]
    conv => rhs; rw [← hvalue]
    exact .octal (List.forall_mem_cons.mp hoct).2
  · -- hexadecimal: there is a digit behind the mark
    have hcountPos : 0 < (intShape value flags 16 (-1)).count := intShape_count_pos (by decide)
    have hvalue : _ = (intShape value flags 16 (-1)).val :=
      plain_value (by decide) le_rfl h.tick
    rw [← hvalue]
    simp only [hhash, decide_true, Bool.and_self, if_true]
    refine .hex ?_ ?_ fun d hd => isDigit_number (by decide) le_rfl h.tick hd
    · cases flags.upper <;> decide
    · rw [number_plain h.tick]
      simp
      omega

/-- The sign is that of the value. -/
theorem intShape_val : (if (intShape value flags base prec).minus then
    -((intShape value flags base prec).val : Int) else (intShape value flags base prec).val) =
      if flags.signed then value.toInt64.toInt else value.toNat := by
  have hminus : (intShape value flags base prec).minus =
    (flags.signed && decide (value.toInt64 < 0)) := rfl
  have hval : (intShape value flags base prec).val =
    (if flags.signed && decide (value.toInt64 < 0) then (-value.toInt64).toUInt64 else
      value).toNat := rfl
  have hlt := value.toNat_lt
  have hint : value.toInt64.toInt =
      if 2 * value.toNat < 2 ^ 64 then (value.toNat : Int) else value.toNat - 2 ^ 64 := by
    rw [← Int64.toInt_toBitVec, UInt64.toBitVec_toInt64, BitVec.toInt_eq_toNat_cond]
    rfl
  have hneg : value.toInt64 < 0 ↔ ¬2 * value.toNat < 2 ^ 64 := by
    rw [Int64.lt_iff_toInt_lt, hint, Int64.toInt_zero]
    split <;> omega
  have hnegate : (-value.toInt64).toUInt64.toNat = (2 ^ 64 - value.toNat) % 2 ^ 64 := by
    have heq : (-value.toInt64).toUInt64 = -value := rfl
    rw [heq, UInt64.toNat_neg]
    rfl
  rw [hminus, hval, hint]
  cases flags.signed with
  | false => simp
  | true =>
    by_cases h : value.toInt64 < 0
    · have hge := hneg.mp h
      rw [if_neg hge]
      simp only [h, decide_true, Bool.and_self, if_true, hnegate]
      rw [Nat.mod_eq_of_lt (by omega)]
      omega
    · have hsmall : 2 * value.toNat < 2 ^ 64 := not_not.mp (mt hneg.mpr h)
      rw [if_pos hsmall]
      simp [h]

/-- The text of a plain number. -/
theorem intText_plain (h : Plain flags base) : intText value flags base 0 (-1) =
    (if (intShape value flags base (-1)).minus then [0x2D] else []) ++
      ((if flags.hash && base = 16 then [0x30, if flags.upper then 0x58 else 0x78] else []) ++
        (intShape value flags base (-1)).number flags base) := by
  have hpad : ∀ k : Nat, ((0 : Int) - k).toNat = 0 := fun k => by omega
  simp only [intText, nondigits, hpad, List.replicate_zero, List.append_nil, List.nil_append,
    h.plus, h.space, Bool.false_eq_true, if_false]
  split_ifs <;> simp

/-- A plain number is a number in the syntax of `parseint`. -/
theorem intText_syntax (h : Plain flags base) : IntText (intText value flags base 0 (-1))
    (if flags.signed then value.toInt64.toInt else value.toNat) := by
  have hnumber := IntText.number (@plain_numeral base value flags h) .none
  rw [List.append_nil, Nat.mul_one] at hnumber
  rw [intText_plain h, ← @intShape_val base value flags (-1)]
  cases (intShape value flags base (-1)).minus with
  | true => exact .minus hnumber
  | false => exact hnumber

/-- No zero of a number alone is stuck. -/
theorem not_zeroStuck {ds : List UInt8} {n : Nat} (h : Numeral ds n) : ¬ZeroStuck ds := by
  cases h with
  | @decimal c ds hne hds =>
    have hminus : c ≠ 0x2D := by
      rintro rfl
      exact absurd (hds 0x2D List.mem_cons_self) (by decide)
    rw [ZeroStuck, if_neg hminus]
    exact fun h => hne h.1
  | @octal ds hds =>
    rw [ZeroStuck, if_neg (by decide)]
    rintro ⟨-, x, r, rfl, hhigh, -⟩
    have hdigit := hds x List.mem_cons_self
    rw [((digit_branches x).2.2.mp hhigh).2] at hdigit
    cases hdigit
  | @hex x ds hx hne hds =>
    rw [ZeroStuck, if_neg (by decide)]
    rintro ⟨-, x', r, heq, -, hhex⟩
    cases heq
    obtain ⟨d, r', rfl⟩ := List.exists_cons_of_ne_nil hne
    exact hhex ⟨hx, d, r', rfl, hds d List.mem_cons_self⟩

/-- What `%d`, `%u`, `%#o`, `%#x` and `%#X` print, `parseint` reads back, and it stops behind it. -/
theorem formatInt_parseint (value : UInt64) (flags : Flags) (base : Nat) (h : Plain flags base)
    (tail : List UInt8) :
    parseint false (intText value flags base 0 (-1) ++ 0 :: tail) =
      some (some (UInt32.ofInt (if flags.signed then value.toInt64.toInt else value.toNat)),
        0 :: tail) := by
  have hlongest : LongestInt (intText value flags base 0 (-1))
      (if flags.signed then value.toInt64.toInt else value.toNat) [] :=
    ⟨_, (List.append_nil _).symm, intText_syntax h, fun text' _ _ hle => hle.length_le⟩
  have hstuck : ¬ZeroStuck (intText value flags base 0 (-1)) := by
    rw [intText_plain h]
    cases (intShape value flags base (-1)).minus with
    | true =>
      rw [if_pos rfl, List.singleton_append, ZeroStuck, if_pos rfl]
      exact not_zeroStuck (plain_numeral h)
    | false => exact not_zeroStuck (plain_numeral h)
  have hread := ((readsInt_iff _ tail false).mpr hstuck).1 _ _ hlongest
  exact hread

/-- -12 in hexadecimal, read back by the loader. -/
theorem formatInt_parseint_sample :
    parseint false (intText 0xFFFFFFFFFFFFFFF4 ⟨false, false, false, false, false, true, true,
      false⟩ 16 0 (-1) ++ 0 :: []) = some (some 0xFFFFFFF4, [0]) :=
  formatInt_parseint 0xFFFFFFFFFFFFFFF4 ⟨false, false, false, false, false, true, true, false⟩ 16
    ⟨by decide, rfl, rfl, rfl⟩ []

end Liigboot.Comcore
