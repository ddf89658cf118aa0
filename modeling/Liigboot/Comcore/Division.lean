import Liigboot.Lib.Loop
import Liigboot.Lib.Restoring

/-!
# 64-bit division

`__udivmoddi4` moves the denominator up as far as it goes and divides by shifts and subtractions.
The signed functions put the signs in. `__divdi3` rounds to zero as the language does; the
remainder of `__moddi3` takes the sign of the quotient, where the language takes that of the
numerator.
-/

namespace Liigboot.Comcore

/-! ## The source -/

/-- `den` and `qbit` of `__udivmoddi4`. -/
structure Justify where
  den : UInt64
  qbit : UInt64

/-- Left-justify denominator and count shift. -/
def Justify.step (s : Justify) : Step Justify Justify :=
  if 0 ≤ s.den.toInt64 then .next ⟨s.den <<< 1, s.qbit <<< 1⟩ else .stop s

/-- The variables of `__udivmoddi4`. -/
structure Divmod extends Justify where
  num : UInt64
  quot : UInt64

/-- The second loop. It leaves the quotient and the remainder. -/
def Divmod.step (s : Divmod) : Step Divmod (UInt64 × UInt64) :=
  if s.qbit = 0 then .stop (s.quot, s.num)
  else
    let s := if s.den ≤ s.num then { s with num := s.num - s.den, quot := s.quot + s.qbit } else s
    .next { s with den := s.den >>> 1, qbit := s.qbit >>> 1 }

/-- What `__udivmoddi4` does. -/
inductive Divided where
  | divideError
  | value (quot rem : UInt64)
  deriving DecidableEq, Repr

/-- `__udivmoddi4`, with a number of iterations for each loop. -/
def udivmoddi4 (n : Nat) (num den : UInt64) : Option Divided :=
  if den = 0 then some .divideError
  else do
    let s ← runLoop Justify.step n ⟨den, 1⟩
    let r ← runLoop Divmod.step n ⟨s, num, 0⟩
    return .value r.1 r.2

/-- The signs of `__divdi3` and `__moddi3`: the absolute values, and `minus`. -/
def unsign (num den : Int64) : UInt64 × UInt64 × Bool :=
  let (num, minus) := if num < 0 then (-num, true) else (num, false)
  let (den, minus) := if den < 0 then (-den, !minus) else (den, minus)
  (num.toUInt64, den.toUInt64, minus)

/-- `if (minus) v = -v`. -/
def sign (minus : Bool) (v : UInt64) : Int64 := if minus then -v.toInt64 else v.toInt64

/-- `__divdi3`. -/
def divdi3 (n : Nat) (num den : Int64) : Option Int64 :=
  let (num, den, minus) := unsign num den
  match udivmoddi4 n num den with
  | some (.value quot _) => some (sign minus quot)
  | _ => none

/-- `__moddi3`. -/
def moddi3 (n : Nat) (num den : Int64) : Option Int64 :=
  let (num, den, minus) := unsign num den
  match udivmoddi4 n num den with
  | some (.value _ rem) => some (sign minus rem)
  | _ => none

/-! ## The loops -/

variable {num den : UInt64} {d k n : Nat}

/-- A denominator is not negative when its highest bit is not set. -/
theorem toInt64_nonneg_iff : 0 ≤ den.toInt64 ↔ den.toNat < 2 ^ 63 := by
  have hlt := den.toNat_lt
  rw [Int64.le_iff_toInt_le, ← Int64.toInt_toBitVec den.toInt64, UInt64.toBitVec_toInt64,
    BitVec.toInt_eq_toNat_cond, UInt64.toNat_toBitVec, Int64.toInt_zero]
  split <;> omega

/-- The denominator is doubled while its highest bit is not set. -/
theorem Justify.step_next {s : Justify} (h : s.den.toNat < 2 ^ 63) :
    s.step = .next ⟨s.den <<< 1, s.qbit <<< 1⟩ :=
  if_pos (toInt64_nonneg_iff.mpr h)

/-- It is left when the bit is set. -/
theorem Justify.step_stop {s : Justify} (h : 2 ^ 63 ≤ s.den.toNat) : s.step = .stop s :=
  if_neg (mt toInt64_nonneg_iff.mp (Nat.not_lt.mpr h))

/-- The denominator `d` and the quotient bit are moved up by `k` places. -/
structure Justify.At (d k : Nat) (s : Justify) : Prop where
  den : s.den.toNat = d * 2 ^ k
  qbit : s.qbit.toNat = 2 ^ k

theorem toNat_double {x : UInt64} (h : x.toNat < 2 ^ 63) : (x <<< 1).toNat = x.toNat * 2 := by
  have hone : (1 : UInt64).toNat % 64 = 1 := rfl
  rw [UInt64.toNat_shiftLeft, hone, Nat.shiftLeft_eq, Nat.pow_one]
  omega

theorem toNat_half (x : UInt64) : (x >>> 1).toNat = x.toNat / 2 := by
  have hone : (1 : UInt64).toNat % 64 = 1 := rfl
  rw [UInt64.toNat_shiftRight, hone, Nat.shiftRight_eq_div_pow, Nat.pow_one]

/-- Not moved up so far that its top bit is set, the denominator goes up once more. -/
theorem Justify.At.shift {s : Justify} (h : s.At d k) (hd : 0 < d)
    (hlt : s.den.toNat < 2 ^ 63) : Justify.At d (k + 1) ⟨s.den <<< 1, s.qbit <<< 1⟩ := by
  have hq : s.qbit.toNat ≤ s.den.toNat := by
    rw [h.den, h.qbit]
    exact Nat.le_mul_of_pos_left _ hd
  constructor
  · rw [toNat_double hlt, h.den, Nat.pow_succ, Nat.mul_assoc]
  · rw [toNat_double (Nat.lt_of_le_of_lt hq hlt), h.qbit, Nat.pow_succ]

/-- The first loop ends with the top bit set. -/
theorem runLoop_justify {s : Justify} (h : s.At d k) (hd : 0 < d)
    (hn : k + n = 64) : ∃ k' s', runLoop Justify.step n s = some s' ∧ s'.At d k' ∧ k' < 64 ∧
      2 ^ 63 ≤ s'.den.toNat := by
  induction n generalizing k s with
  | zero =>
    have hlt := s.den.toNat_lt
    have hle : 2 ^ k ≤ d * 2 ^ k := Nat.le_mul_of_pos_left _ hd
    rw [h.den, show k = 64 from hn] at hlt
    rw [show k = 64 from hn] at hle
    exact absurd hlt (Nat.not_lt.mpr hle)
  | succ n ih =>
    by_cases hlt : s.den.toNat < 2 ^ 63
    · obtain ⟨k', s', hrun, hrest⟩ := ih (h.shift hd hlt) (by omega)
      exact ⟨k', s', runLoop_next (Justify.step_next hlt) hrun, hrest⟩
    · have hge : 2 ^ 63 ≤ s.den.toNat := Nat.not_lt.mp hlt
      have hrun := runLoop_add (runLoop_stop (Justify.step_stop hge)) n
      rw [Nat.add_comm] at hrun
      exact ⟨k, s, hrun, h, by omega, hge⟩

theorem toNat_qbit_ne_zero {s : Justify} (h : s.At d k) : s.qbit ≠ 0 := by
  intro hzero
  have hqbit := h.qbit
  rw [hzero] at hqbit
  exact absurd hqbit (Nat.two_pow_pos k).ne

/-- The bit and the denominator go down together. -/
theorem Justify.At.down {s : Justify} (h : s.At d (k + 1)) :
    Justify.At d k ⟨s.den >>> 1, s.qbit >>> 1⟩ := by
  constructor
  · rw [toNat_half, h.den, Nat.pow_succ, ← Nat.mul_assoc, Nat.mul_div_cancel _ Nat.two_pos]
  · rw [toNat_half, h.qbit, Nat.pow_succ, Nat.mul_div_cancel _ Nat.two_pos]

/-- Behind the last bit, the quotient bit is gone. -/
theorem Justify.At.last {s : Justify} (h : s.At d 0) : s.qbit >>> 1 = 0 := by
  apply UInt64.toNat_inj.mp
  rw [toNat_half, h.qbit]
  rfl

/-- A subtraction or none, and what it does to the numbers. -/
structure Subtracted (d k : Nat) (s t : Divmod) : Prop where
  step : Divmod.step s = .next { t with den := s.den >>> 1, qbit := s.qbit >>> 1 }
  restore : restore d (k + 1) (s.quot.toNat, s.num.toNat) =
    Liigboot.restore d k (t.quot.toNat, t.num.toNat)
  total : t.quot.toNat + t.num.toNat / d = s.quot.toNat + s.num.toNat / d

/-- A step subtracts the denominator if it goes in. -/
theorem Divmod.step_subtracted {s : Divmod} (h : s.toJustify.At d k) (hd : 0 < d)
    (hquot : s.quot.toNat + s.num.toNat / d < 2 ^ 64) : ∃ t, Subtracted d k s t := by
  have hden : s.den.toNat = d * 2 ^ k := h.den
  by_cases hle : s.den ≤ s.num
  · have hle' := UInt64.le_iff_toNat_le.mp hle
    rw [hden] at hle'
    have hnum : (s.num - s.den).toNat = s.num.toNat - d * 2 ^ k := by
      rw [UInt64.toNat_sub_of_le _ _ hle, hden]
    have hdiv : s.num.toNat / d = (s.num.toNat - d * 2 ^ k) / d + 2 ^ k := by
      rw [← Nat.add_mul_div_left _ _ hd, Nat.sub_add_cancel hle']
    have hadd : (s.quot + s.qbit).toNat = s.quot.toNat + 2 ^ k := by
      rw [UInt64.toNat_add, show s.qbit.toNat = 2 ^ k from h.qbit]
      rw [hdiv] at hquot
      exact Nat.mod_eq_of_lt (Nat.lt_of_le_of_lt
        (Nat.add_le_add_left (Nat.le_add_left _ _) _) hquot)
    refine ⟨{ s with num := s.num - s.den, quot := s.quot + s.qbit }, ?_, ?_, ?_⟩
    · simp [Divmod.step, toNat_qbit_ne_zero h, hle]
    · rw [restore_sub hle', hnum, hadd]
    · rw [hnum, hadd, hdiv, Nat.add_assoc, Nat.add_comm (2 ^ k)]
  · have hlt : s.num.toNat < d * 2 ^ k := hden ▸ UInt64.lt_iff_toNat_lt.mp (UInt64.not_le.mp hle)
    refine ⟨s, ?_, restore_skip hlt, rfl⟩
    simp [Divmod.step, toNat_qbit_ne_zero h, hle]

/-- The second loop is a restoring division, and ends behind the bit for no shift. -/
theorem runLoop_divmod {s : Divmod} (h : s.toJustify.At d k) (hd : 0 < d)
    (hquot : s.quot.toNat + s.num.toNat / d < 2 ^ 64) :
    ∃ r, runLoop Divmod.step (k + 2) s = some r ∧
      (r.1.toNat, r.2.toNat) = restore d (k + 1) (s.quot.toNat, s.num.toNat) := by
  induction k generalizing s with
  | zero =>
    obtain ⟨t, ht⟩ := Divmod.step_subtracted h hd hquot
    refine ⟨(t.quot, t.num), runLoop_next ht.step (runLoop_stop ?_), ht.restore.symm⟩
    simp [Divmod.step, h.last]
  | succ k ih =>
    obtain ⟨t, ht⟩ := Divmod.step_subtracted h hd hquot
    rw [← ht.total] at hquot
    obtain ⟨r, hrun, hr⟩ := @ih { t with den := s.den >>> 1, qbit := s.qbit >>> 1 } h.down hquot
    exact ⟨r, runLoop_next ht.step hrun, hr.trans ht.restore.symm⟩

/-- `__udivmoddi4` for a denominator that is not zero: each loop ends within 65 iterations, with
the quotient and the remainder. -/
theorem udivmoddi4_eq (hden : den ≠ 0) (hn : 65 ≤ n) :
    udivmoddi4 n num den = some (.value (num / den) (num % den)) := by
  have hd : 0 < den.toNat := Nat.pos_of_ne_zero fun h => hden (UInt64.toNat_inj.mp h)
  have hstart : Justify.At den.toNat 0 ⟨den, 1⟩ := ⟨(Nat.mul_one _).symm, rfl⟩
  obtain ⟨k, s, hjustify, hs, hk, htop⟩ := runLoop_justify hstart hd (Nat.zero_add 64)
  have hquot : (0 : UInt64).toNat + num.toNat / den.toNat < 2 ^ 64 := by
    rw [UInt64.toNat_zero, Nat.zero_add]
    exact Nat.lt_of_le_of_lt (Nat.div_le_self _ _) num.toNat_lt
  obtain ⟨r, hrun, hr⟩ := @runLoop_divmod _ _ ⟨s, num, 0⟩ hs hd hquot
  have hfits : num.toNat < den.toNat * 2 ^ (k + 1) := by
    have hlt := num.toNat_lt
    rw [hs.den] at htop
    rw [Nat.pow_succ, ← Nat.mul_assoc]
    omega
  rw [restore_eq hfits, Prod.mk.injEq, UInt64.toNat_zero, Nat.zero_add, ← UInt64.toNat_div,
    ← UInt64.toNat_mod, UInt64.toNat_inj, UInt64.toNat_inj] at hr
  have hfirst := runLoop_add hjustify (n - 64)
  have hsecond := runLoop_add hrun (n - (k + 2))
  rw [Nat.add_sub_cancel' (by omega)] at hfirst hsecond
  rw [udivmoddi4, if_neg hden, hfirst, Option.bind_eq_bind, Option.bind_some, hsecond]
  simp [hr]

/-! ## The signs -/

section Signs

variable {num den : Int64} {n : Nat}

/-- The absolute value, as an unsigned number. -/
def magnitude (x : Int64) : UInt64 := if x < 0 then (-x).toUInt64 else x.toUInt64

/-- The magnitudes, and whether the signs differ. -/
theorem unsign_eq (num den : Int64) :
    unsign num den = (magnitude num, magnitude den, decide (num < 0) ^^ decide (den < 0)) := by
  by_cases hnum : num < 0 <;> by_cases hden : den < 0 <;> simp [unsign, magnitude, hnum, hden]

theorem magnitude_ne_zero (h : den ≠ 0) : magnitude den ≠ 0 := by
  intro hzero
  apply h
  rw [magnitude] at hzero
  split at hzero
  · have hneg : -den = 0 := congrArg UInt64.toInt64 hzero
    rw [← @Int64.neg_neg den, hneg]
    rfl
  · exact congrArg UInt64.toInt64 hzero

/-- The highest bit is the sign. -/
theorem msb_eq (x : Int64) : x.toBitVec.msb = decide (x < 0) := by
  rw [← BitVec.slt_zero_eq_msb]
  exact Bool.decide_eq_true.symm

/-- The quotient gets the sign of both numbers. -/
theorem sign_div (num den : Int64) :
    sign (decide (num < 0) ^^ decide (den < 0)) (magnitude num / magnitude den) = num / den := by
  apply Int64.toBitVec_inj.mp
  rw [Int64.toBitVec_div, BitVec.sdiv_eq, msb_eq, msb_eq]
  by_cases hnum : num < 0 <;> by_cases hden : den < 0 <;> simp [sign, magnitude, hnum, hden]

/-- The remainder gets the same sign, which is wrong with a negative denominator. -/
theorem sign_mod (num den : Int64) :
    sign (decide (num < 0) ^^ decide (den < 0)) (magnitude num % magnitude den) =
      if den < 0 then -(num % den) else num % den := by
  apply Int64.toBitVec_inj.mp
  rw [apply_ite Int64.toBitVec, Int64.toBitVec_neg, Int64.toBitVec_mod, BitVec.srem_eq, msb_eq, msb_eq]
  by_cases hnum : num < 0 <;> by_cases hden : den < 0 <;> simp [sign, magnitude, hnum, hden]

/-- The quotient, with steps enough. -/
theorem divdi3_eq (hden : den ≠ 0) (hn : 65 ≤ n) : divdi3 n num den = some (num / den) := by
  simp only [divdi3, unsign_eq, udivmoddi4_eq (magnitude_ne_zero hden) hn, sign_div]

/-- The remainder, with steps enough. -/
theorem moddi3_eq (hden : den ≠ 0) (hn : 65 ≤ n) :
    moddi3 n num den = some (if den < 0 then -(num % den) else num % den) := by
  simp only [moddi3, unsign_eq, udivmoddi4_eq (magnitude_ne_zero hden) hn, sign_mod]

/-- A remainder is no fixed point of the sign other than 0. -/
theorem neg_mod_eq_iff (hden : den ≠ 0) : -(num % den) = num % den ↔ num % den = 0 := by
  constructor
  · intro h
    have hsmall : (num % den).toInt.natAbs < 2 ^ 63 := by
      have hpos : 0 < den.toInt.natAbs :=
        Int.natAbs_pos.mpr fun hzero => hden (Int64.toInt_inj.mp hzero)
      have hlow := den.le_toInt
      have hhigh := den.toInt_lt
      rw [Int64.toInt_mod, Int.natAbs_tmod]
      exact Nat.lt_of_lt_of_le (Nat.mod_lt _ hpos) (by omega)
    have hint := congrArg Int64.toInt h
    rw [Int64.toInt_neg, Int.bmod_eq_of_le (by omega) (by omega)] at hint
    apply Int64.toInt_inj.mp
    rw [Int64.toInt_zero]
    omega
  · intro h
    rw [h, Int64.neg_zero]

/-- Division in 64 bits ends for every denominator other than 0. The quotient is that of the
language; the remainder is, unless the denominator is negative and does not divide. -/
theorem signed_division_iff (num den : Int64) (hden : den ≠ 0) (n : Nat) (hn : 65 ≤ n) :
    divdi3 n num den = some (num / den) ∧
      (moddi3 n num den = some (num % den) ↔ 0 ≤ den ∨ num % den = 0) := by
  refine ⟨divdi3_eq hden hn, ?_⟩
  rw [moddi3_eq hden hn, Option.some.injEq]
  by_cases hneg : den < 0
  · have hnot : ¬0 ≤ den := Int64.not_le.mpr hneg
    rw [if_pos hneg, neg_mod_eq_iff hden, or_iff_right hnot]
  · have hnonneg : 0 ≤ den := Int64.not_lt.mp hneg
    simp [hneg, hnonneg]

/-- 7 by -2: the quotient is right, the remainder is not. -/
theorem signed_division_iff_sample :
    divdi3 65 7 (-2) = some (-3) ∧ moddi3 65 7 (-2) ≠ some (7 % -2) := by
  obtain ⟨hdiv, hmod⟩ := signed_division_iff 7 (-2) (by decide) 65 le_rfl
  exact ⟨hdiv, fun h => absurd (hmod.mp h) (by decide)⟩

end Signs

end Liigboot.Comcore
