import Mathlib.Data.Nat.ModEq
import Mathlib.Tactic.Ring

/-!
# Checksums of two running sums

Such a checksum keeps the sum of the bytes and the sum of those sums, both by some modulus. The
sums of a string are linear in the sums that they start from, so the checksum of a concatenation
is made of the checksums of its parts and the length of the second.
-/

namespace Liigboot

/-- The sum of the bytes and the sum of the sums. -/
structure Sums where
  a : Nat
  b : Nat
  deriving DecidableEq, Repr

/-- The sums of the empty string. -/
def Sums.start : Sums := ⟨1, 0⟩

/-- One more byte. -/
def Sums.add (m : Nat) (s : Sums) (d : UInt8) : Sums where
  a := (s.a + d.toNat) % m
  b := (s.b + (s.a + d.toNat) % m) % m

/-- All bytes of a string. -/
def Sums.addAll (m : Nat) (s : Sums) (data : List UInt8) : Sums := data.foldl (Sums.add m) s

/-- Both sums are below the modulus. -/
structure Sums.Reduced (m : Nat) (s : Sums) : Prop where
  a_lt : s.a < m
  b_lt : s.b < m

/-- The sum of the bytes. -/
def byteSum : List UInt8 → Nat
  | [] => 0
  | d :: data => d.toNat + byteSum data

/-- The sum of the sums of the bytes. -/
def prefixSums : List UInt8 → Nat
  | [] => 0
  | d :: data => (data.length + 1) * d.toNat + prefixSums data

variable {m : Nat} {s : Sums} {data : List UInt8}

theorem Sums.addAll_append (m : Nat) (s : Sums) (data more : List UInt8) :
    s.addAll m (data ++ more) = (s.addAll m data).addAll m more := by
  rw [addAll, addAll, addAll, List.foldl_append]

theorem Sums.Reduced.add (h : s.Reduced m) (d : UInt8) : (s.add m d).Reduced m :=
  ⟨Nat.mod_lt _ (Nat.zero_lt_of_lt h.a_lt), Nat.mod_lt _ (Nat.zero_lt_of_lt h.a_lt)⟩

theorem Sums.Reduced.addAll (h : s.Reduced m) (data : List UInt8) : (s.addAll m data).Reduced m := by
  induction data generalizing s with
  | nil => exact h
  | cons d data ih => exact ih (h.add d)

/-- The sum that a string is started from is in each of its sums. -/
theorem Sums.addAll_modEq (m : Nat) (s : Sums) (data : List UInt8) :
    (s.addAll m data).a ≡ s.a + byteSum data [MOD m] ∧
      (s.addAll m data).b ≡ s.b + data.length * s.a + prefixSums data [MOD m] := by
  induction data generalizing s with
  | nil =>
    refine ⟨Nat.ModEq.refl _, ?_⟩
    rw [List.length_nil, Nat.zero_mul, prefixSums]
    exact Nat.ModEq.refl _
  | cons d data ih =>
    obtain ⟨ha, hb⟩ := ih (s.add m d)
    have hstep : (s.add m d).a ≡ s.a + d.toNat [MOD m] := Nat.mod_modEq _ _
    have hstep' : (s.add m d).b ≡ s.b + (s.a + d.toNat) [MOD m] :=
      (Nat.mod_modEq _ _).trans ((Nat.ModEq.refl _).add (Nat.mod_modEq _ _))
    constructor
    · calc (s.addAll m (d :: data)).a
          ≡ (s.add m d).a + byteSum data [MOD m] := ha
        _ ≡ s.a + d.toNat + byteSum data [MOD m] := hstep.add_right _
        _ = s.a + byteSum (d :: data) := by rw [byteSum, Nat.add_assoc]
    · calc (s.addAll m (d :: data)).b
          ≡ (s.add m d).b + data.length * (s.add m d).a + prefixSums data [MOD m] := hb
        _ ≡ s.b + (s.a + d.toNat) + data.length * (s.a + d.toNat) + prefixSums data [MOD m] :=
          (hstep'.add (hstep.mul_left _)).add_right _
        _ = s.b + (d :: data).length * s.a + prefixSums (d :: data) := by
          rw [prefixSums, List.length_cons]
          ring

/-- The sums of a string that is started from other sums, made of its own sums. -/
theorem Sums.addAll_combine (hm : 0 < m) (s : Sums) (data : List UInt8) :
    (s.addAll m data).a ≡ s.a + (start.addAll m data).a + (m - 1) [MOD m] ∧
      (s.addAll m data).b ≡ data.length % m * s.a + s.b + (start.addAll m data).b +
        (m - data.length % m) [MOD m] := by
  obtain ⟨ha, hb⟩ := addAll_modEq m s data
  obtain ⟨ha', hb'⟩ := addAll_modEq m start data
  have hlen : data.length + (m - data.length % m) ≡ 0 [MOD m] := by
    have hlt := Nat.mod_lt data.length hm
    calc data.length + (m - data.length % m)
        ≡ data.length % m + (m - data.length % m) [MOD m] := (Nat.mod_modEq _ _).symm.add_right _
      _ = m := by omega
      _ ≡ 0 [MOD m] := (Nat.modEq_zero_iff_dvd).mpr dvd_rfl
  constructor
  · calc (s.addAll m data).a
        ≡ s.a + byteSum data [MOD m] := ha
      _ ≡ s.a + byteSum data + m [MOD m] := Nat.add_modEq_right.symm
      _ = s.a + (1 + byteSum data) + (m - 1) := by omega
      _ ≡ s.a + (start.addAll m data).a + (m - 1) [MOD m] := (ha'.symm.add_left _).add_right _
  · calc (s.addAll m data).b
        ≡ s.b + data.length * s.a + prefixSums data [MOD m] := hb
      _ ≡ s.b + data.length * s.a + prefixSums data + (data.length + (m - data.length % m)) [MOD m] :=
        hlen.symm.add_left _
      _ = data.length * s.a + s.b + (0 + data.length * 1 + prefixSums data) +
          (m - data.length % m) := by ring
      _ ≡ data.length % m * s.a + s.b + (start.addAll m data).b + (m - data.length % m) [MOD m] :=
        ((((Nat.mod_modEq _ _).symm.mul_right _).add_right _).add hb'.symm).add_right _

end Liigboot
