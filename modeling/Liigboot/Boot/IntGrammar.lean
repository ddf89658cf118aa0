import Liigboot.Boot.ParseInt
import Mathlib.Data.Nat.Find
import Mathlib.Algebra.Order.Ring.Int

/-!
# The syntax of numbers

What `parseint` documents: minus signs, a number in one of three bases, and a suffix. A string is
to be read as the longest number that it begins with. A zero in front of a character that is not
below `8` is the exception: there `parseint` expects an octal or a hexadecimal digit.
-/

namespace Liigboot.Boot

/-! ## The syntax -/

/-- The value of a digit, and 16 for any other character. -/
def digitOf (c : UInt8) : Nat :=
  if 0x30 ≤ c ∧ c ≤ 0x39 then c.toNat - 0x30
  else if 0x61 ≤ c ∧ c ≤ 0x66 then c.toNat - 0x61 + 10
  else if 0x41 ≤ c ∧ c ≤ 0x46 then c.toNat - 0x41 + 10
  else 16

def isDigit (base : Nat) (c : UInt8) : Bool := digitOf c < base

/-- The value of some digits behind others. -/
def digitsValue (base value : Nat) (ds : List UInt8) : Nat :=
  ds.foldl (fun v d => v * base + digitOf d) value

/-- A number without its sign and its suffix. -/
inductive Numeral : List UInt8 → Nat → Prop where
  | decimal {c : UInt8} {ds : List UInt8} (hne : c ≠ 0x30)
      (hds : ∀ d ∈ c :: ds, isDigit 10 d = true) : Numeral (c :: ds) (digitsValue 10 0 (c :: ds))
  | octal {ds : List UInt8} (hds : ∀ d ∈ ds, isDigit 8 d = true) :
      Numeral (0x30 :: ds) (digitsValue 8 0 ds)
  | hex {x : UInt8} {ds : List UInt8} (hx : x = 0x78 ∨ x = 0x58) (hne : ds ≠ [])
      (hds : ∀ d ∈ ds, isDigit 16 d = true) : Numeral (0x30 :: x :: ds) (digitsValue 16 0 ds)

/-- A suffix, and what it stands for. -/
inductive Suffix : List UInt8 → Nat → Prop where
  | none : Suffix [] 1
  | kilo {c : UInt8} (hc : c = 0x6B ∨ c = 0x4B) : Suffix [c] (2 ^ 10)
  | mega {c : UInt8} (hc : c = 0x6D ∨ c = 0x4D) : Suffix [c] (2 ^ 20)
  | giga {c : UInt8} (hc : c = 0x67 ∨ c = 0x47) : Suffix [c] (2 ^ 30)

/-- A number. -/
inductive IntText : List UInt8 → Int → Prop where
  | number {ds sfx : List UInt8} {n k : Nat} (hds : Numeral ds n) (hsfx : Suffix sfx k) :
      IntText (ds ++ sfx) (n * k : Nat)
  | minus {text : List UInt8} {value : Int} (h : IntText text value) :
      IntText (0x2D :: text) (-value)

/-- The longest number at the start of a string, and what is behind it. -/
def LongestInt (s : List UInt8) (value : Int) (rest : List UInt8) : Prop :=
  ∃ text, s = text ++ rest ∧ IntText text value ∧
    ∀ text' value', IntText text' value' → text' <+: s → text'.length ≤ text.length

/-- Behind the minus signs there is a zero, and a character above `7` behind it with which no
hexadecimal number goes on. -/
def ZeroStuck : List UInt8 → Prop
  | [] => False
  | c :: s =>
    if c = 0x2D then ZeroStuck s
    else c = 0x30 ∧ ∃ x r, s = x :: r ∧ 0x37 < x ∧
      ¬((x = 0x78 ∨ x = 0x58) ∧ ∃ d r', r = d :: r' ∧ isDigit 16 d = true)

/-- `parseint` reads a string as the number at its start, with the sign from in front of it. There
is some memory behind the NUL. -/
def ReadsInt (negative : Bool) (s tail : List UInt8) : Prop :=
  (∀ value rest, LongestInt s value rest → parseint negative (s ++ 0 :: tail) =
    some (some (UInt32.ofInt (if negative then -value else value)), rest ++ 0 :: tail)) ∧
  ((¬∃ value rest, LongestInt s value rest) →
    ∃ rest, parseint negative (s ++ 0 :: tail) = some (none, rest))

/-! ## Characters -/

/-- `unhexchar` takes the sixteen digits, in either case. -/
theorem unhexchar_eq (c : UInt8) :
    unhexchar c = if digitOf c < 16 then some (UInt8.ofNat (digitOf c)) else none := by
  have hall : ∀ n < 256, unhexchar (UInt8.ofNat n) =
      if digitOf (UInt8.ofNat n) < 16 then some (UInt8.ofNat (digitOf (UInt8.ofNat n)))
      else none := by
    decide +kernel
  have hc := hall c.toNat c.toNat_lt
  rwa [UInt8.ofNat_toNat] at hc

/-- Letters in either case. -/
theorem or_space_eq_iff (c : UInt8) :
    (c ||| 0x20 = 0x6B ↔ c = 0x6B ∨ c = 0x4B) ∧ (c ||| 0x20 = 0x6D ↔ c = 0x6D ∨ c = 0x4D) ∧
      (c ||| 0x20 = 0x67 ↔ c = 0x67 ∨ c = 0x47) ∧ (c ||| 0x20 = 0x78 ↔ c = 0x78 ∨ c = 0x58) := by
  have hall : ∀ n < 256,
      (UInt8.ofNat n ||| 0x20 = 0x6B ↔ UInt8.ofNat n = 0x6B ∨ UInt8.ofNat n = 0x4B) ∧
      (UInt8.ofNat n ||| 0x20 = 0x6D ↔ UInt8.ofNat n = 0x6D ∨ UInt8.ofNat n = 0x4D) ∧
      (UInt8.ofNat n ||| 0x20 = 0x67 ↔ UInt8.ofNat n = 0x67 ∨ UInt8.ofNat n = 0x47) ∧
      (UInt8.ofNat n ||| 0x20 = 0x78 ↔ UInt8.ofNat n = 0x78 ∨ UInt8.ofNat n = 0x58) := by
    decide +kernel
  have hc := hall c.toNat c.toNat_lt
  rwa [UInt8.ofNat_toNat] at hc

/-- The branches of `parseint` at a character. -/
theorem digit_branches (c : UInt8) :
    (isDigit 10 c = true ↔ ¬c < 0x30 ∧ ¬0x39 < c) ∧
      (isDigit 8 c = true ↔ ¬c < 0x30 ∧ c ||| 0x20 ≠ 0x78 ∧ ¬0x37 < c ||| 0x20) ∧
      (0x37 < c ↔ ¬c < 0x30 ∧ isDigit 8 c = false) := by
  have hall : ∀ n < 256,
      (isDigit 10 (UInt8.ofNat n) = true ↔ ¬UInt8.ofNat n < 0x30 ∧ ¬0x39 < UInt8.ofNat n) ∧
      (isDigit 8 (UInt8.ofNat n) = true ↔ ¬UInt8.ofNat n < 0x30 ∧
        UInt8.ofNat n ||| 0x20 ≠ 0x78 ∧ ¬0x37 < UInt8.ofNat n ||| 0x20) ∧
      (0x37 < UInt8.ofNat n ↔ ¬UInt8.ofNat n < 0x30 ∧ isDigit 8 (UInt8.ofNat n) = false) := by
    decide +kernel
  have hc := hall c.toNat c.toNat_lt
  rwa [UInt8.ofNat_toNat] at hc

/-- A suffix is no digit. -/
theorem Suffix.not_digit {c : UInt8} {k : Nat} (h : Suffix [c] k) : isDigit 16 c = false := by
  cases h with
  | kilo hc => rcases hc with rfl | rfl <;> decide
  | mega hc => rcases hc with rfl | rfl <;> decide
  | giga hc => rcases hc with rfl | rfl <;> decide

/-- A digit of a base is one of every larger base. -/
theorem isDigit_mono {a b : Nat} {c : UInt8} (h : a ≤ b) (hc : isDigit a c = true) :
    isDigit b c = true :=
  decide_eq_true ((of_decide_eq_true hc).trans_le h)

/-! ## Digits and suffixes -/

variable {s tail rest ds sfx raw : List UInt8} {value : Int} {n k base v : Nat} {negative : Bool}

theorem toNat_small (h : n ≤ 16) : (UInt8.ofNat n).toNat = n :=
  UInt8.toNat_ofNat_of_lt' (h.trans_lt (by decide))

/-- A shift by ten is a product with 1024. -/
theorem shiftLeft_ten (x : UInt32) : x <<< 10 = x * UInt32.ofNat (2 ^ 10) := by
  apply UInt32.toNat_inj.mp
  rw [UInt32.toNat_shiftLeft, UInt32.toNat_mul, Nat.shiftLeft_eq]
  rfl

/-- Digits are read up to the first character that is none. -/
theorem parseDigits_eq {e : UInt8} (hbase : base ≤ 16) (hds : ∀ d ∈ ds, isDigit base d = true)
    (he : isDigit base e = false) (v : Nat) :
    parseDigits (UInt8.ofNat base) (UInt32.ofNat v) (ds ++ e :: raw) =
      parseSuffix (UInt32.ofNat (digitsValue base v ds)) (e :: raw) := by
  induction ds generalizing v with
  | nil =>
    rw [List.nil_append, parseDigits, unhexchar_eq]
    have hge : base ≤ digitOf e := Nat.le_of_not_lt (of_decide_eq_false he)
    split_ifs with hlt
    · have hle : UInt8.ofNat base ≤ UInt8.ofNat (digitOf e) := by
        rw [UInt8.le_iff_toNat_le, toNat_small hbase, toNat_small hlt.le]
        exact hge
      dsimp only
      rw [if_pos hle]
      rfl
    · rfl
  | cons d ds ih =>
    obtain ⟨hd, hds⟩ := List.forall_mem_cons.mp hds
    have hlt : digitOf d < base := of_decide_eq_true hd
    have hnle : ¬UInt8.ofNat base ≤ UInt8.ofNat (digitOf d) := by
      rw [UInt8.le_iff_toNat_le, toNat_small hbase, toNat_small (by omega)]
      omega
    have hnext : UInt32.ofNat v * (UInt8.ofNat base).toUInt32 +
        (UInt8.ofNat (digitOf d)).toUInt32 = UInt32.ofNat (v * base + digitOf d) := by
      rw [UInt32.ofNat_add, UInt32.ofNat_mul, UInt8.toUInt32_ofNat' (hbase.trans_lt (by decide)),
        UInt8.toUInt32_ofNat' ((hlt.le.trans hbase).trans_lt (by decide))]
    rw [List.cons_append, parseDigits, unhexchar_eq, if_pos (by omega)]
    dsimp only
    rw [if_neg hnle, hnext, ih hds]
    rfl

/-- A suffix is read, and nothing if there is none. -/
theorem parseSuffix_eq (hsfx : Suffix sfx k)
    (hnone : sfx = [] → ∃ e r, raw = e :: r ∧ ∀ j, ¬Suffix [e] j) (ebx : UInt32) :
    parseSuffix ebx (sfx ++ raw) = some (ebx * UInt32.ofNat k, raw) := by
  cases hsfx with
  | none =>
    obtain ⟨e, r, rfl, he⟩ := hnone rfl
    obtain ⟨hk, hm, hg, -⟩ := or_space_eq_iff e
    rw [List.nil_append, parseSuffix, if_neg (fun h => he _ (.kilo (hk.mp h))),
      if_neg (fun h => he _ (.mega (hm.mp h))), if_neg (fun h => he _ (.giga (hg.mp h)))]
    exact congrArg (fun b => some (b, e :: r)) (UInt32.mul_one ebx).symm
  | kilo hc =>
    rw [List.singleton_append, parseSuffix, if_pos ((or_space_eq_iff _).1.mpr hc), shiftLeft_ten]
  | @mega c hc =>
    have hne : c ||| 0x20 ≠ 0x6B := by rcases hc with rfl | rfl <;> decide
    rw [List.singleton_append, parseSuffix, if_neg hne, if_pos ((or_space_eq_iff c).2.1.mpr hc),
      shiftLeft_ten, shiftLeft_ten, UInt32.mul_assoc]
    rfl
  | @giga c hc =>
    have hk : c ||| 0x20 ≠ 0x6B := by rcases hc with rfl | rfl <;> decide
    have hm : c ||| 0x20 ≠ 0x6D := by rcases hc with rfl | rfl <;> decide
    rw [List.singleton_append, parseSuffix, if_neg hk, if_neg hm,
      if_pos ((or_space_eq_iff c).2.2.1.mpr hc), shiftLeft_ten, shiftLeft_ten, shiftLeft_ten,
      UInt32.mul_assoc, UInt32.mul_assoc]
    rfl

/-! ## The longest number -/

/-- A numeral starts with a decimal digit. -/
theorem Numeral.head (h : Numeral ds n) : ∃ c ds', ds = c :: ds' ∧ isDigit 10 c = true := by
  cases h with
  | decimal _ hds => exact ⟨_, _, rfl, hds _ List.mem_cons_self⟩
  | octal => exact ⟨_, _, rfl, by decide⟩
  | hex => exact ⟨_, _, rfl, by decide⟩

theorem IntText.ne_nil {text : List UInt8} (h : IntText text value) : text ≠ [] := by
  cases h with
  | number hds =>
    obtain ⟨c, ds', rfl, -⟩ := hds.head
    exact List.cons_ne_nil _ _
  | minus => exact List.cons_ne_nil _ _

/-- Where a number starts, there is a longest one. -/
theorem exists_longestInt {text : List UInt8} (h : IntText text value) (hs : text <+: s) :
    ∃ value rest, LongestInt s value rest := by
  classical
  let P := fun m => ∃ text value, IntText text value ∧ text <+: s ∧ text.length = m
  have htext : P text.length := ⟨text, value, h, hs, rfl⟩
  have hgreatest : P (Nat.findGreatest P s.length) :=
    Nat.findGreatest_spec (List.IsPrefix.length_le hs) htext
  obtain ⟨longest, v, hv, ⟨rest, hrest⟩, hlength⟩ := hgreatest
  refine ⟨v, rest, longest, hrest.symm, hv, fun text' value' h' hs' => ?_⟩
  rw [hlength]
  exact Nat.le_findGreatest (List.IsPrefix.length_le hs') ⟨text', value', h', hs', rfl⟩

/-- A minus sign belongs to the number. -/
theorem longestInt_minus_iff :
    LongestInt (0x2D :: s) value rest ↔ LongestInt s (-value) rest := by
  constructor
  · rintro ⟨text, hs, htext, hlongest⟩
    cases htext with
    | number hds =>
      obtain ⟨c, ds', rfl, hc⟩ := hds.head
      obtain rfl := (List.cons.inj hs).1
      exact absurd hc (by decide)
    | @minus text value h =>
      rw [Int.neg_neg]
      refine ⟨text, (List.cons.inj hs).2, h, fun text' value' h' hs' => ?_⟩
      exact Nat.le_of_succ_le_succ (hlongest _ _ h'.minus (List.cons_prefix_cons.mpr ⟨rfl, hs'⟩))
  · rintro ⟨text, hs, htext, hlongest⟩
    have hminus := htext.minus
    rw [Int.neg_neg] at hminus
    refine ⟨0x2D :: text, congrArg _ hs, hminus, fun text' value' h' hs' => ?_⟩
    cases h' with
    | number hds =>
      obtain ⟨c, ds', rfl, hc⟩ := hds.head
      obtain rfl := (List.cons_prefix_cons.mp hs').1
      exact absurd hc (by decide)
    | minus h =>
      exact Nat.succ_le_succ (hlongest _ _ h (List.cons_prefix_cons.mp hs').2)

/-- The longest number at the start of a string, taken apart. -/
structure Longest (ds sfx rest : List UInt8) (n k : Nat) : Prop where
  numeral : Numeral ds n
  suffix : Suffix sfx k
  longest : ∀ text value, IntText text value → text <+: ds ++ (sfx ++ rest) →
    text.length ≤ ds.length + sfx.length

/-- Without a minus sign the longest number is a numeral with a suffix. -/
theorem LongestInt.number {c : UInt8} (hc : c ≠ 0x2D) (h : LongestInt (c :: s) value rest) :
    ∃ ds sfx n k, c :: s = ds ++ (sfx ++ rest) ∧ value = (n * k : Nat) ∧
      Longest ds sfx rest n k := by
  obtain ⟨text, hs, htext, hlongest⟩ := h
  cases htext with
  | @number ds sfx n k hds hsfx =>
    rw [List.append_assoc] at hs
    refine ⟨ds, sfx, n, k, hs, rfl, hds, hsfx, fun text' value' h' hs' => ?_⟩
    rw [← hs] at hs'
    have hle := hlongest text' value' h' hs'
    rwa [List.length_append] at hle
  | minus => exact absurd (List.cons.inj hs).1 hc

/-- Behind the digits there is no other one. -/
theorem Longest.no_digit (h : Longest ds sfx rest n k) (hbase : base ≤ 16)
    (hmore : ∀ e, isDigit base e = true → ∃ m, Numeral (ds ++ [e]) m) :
    ∃ e r, sfx ++ (rest ++ 0 :: tail) = e :: r ∧ isDigit base e = false := by
  obtain ⟨-, hsfx, hlongest⟩ := h
  have hletter : ∀ c j, Suffix [c] j → isDigit base c = false := fun c j hc =>
    Bool.eq_false_iff.mpr fun hd => Bool.eq_false_iff.mp hc.not_digit (isDigit_mono hbase hd)
  cases hsfx with
  | none =>
    cases rest with
    | nil => exact ⟨0, tail, rfl, decide_eq_false (Nat.not_lt.mpr hbase)⟩
    | cons e r =>
      refine ⟨e, r ++ 0 :: tail, rfl, Bool.eq_false_iff.mpr fun hd => ?_⟩
      obtain ⟨m, hm⟩ := hmore e hd
      have hle := hlongest _ _ (.number hm .none) ⟨r, by simp⟩
      rw [List.append_nil, List.length_append] at hle
      exact Nat.not_succ_le_self _ hle
  | kilo hc => exact ⟨_, rest ++ 0 :: tail, rfl, hletter _ _ (.kilo hc)⟩
  | mega hc => exact ⟨_, rest ++ 0 :: tail, rfl, hletter _ _ (.mega hc)⟩
  | giga hc => exact ⟨_, rest ++ 0 :: tail, rfl, hletter _ _ (.giga hc)⟩

/-- Where there is no suffix, no letter for one follows. -/
theorem Longest.no_suffix (h : Longest ds sfx rest n k) (hnil : sfx = []) :
    ∃ e r, rest ++ 0 :: tail = e :: r ∧ ∀ j, ¬Suffix [e] j := by
  obtain ⟨hds, -, hlongest⟩ := h
  subst hnil
  cases rest with
  | nil =>
    refine ⟨0, tail, rfl, fun j hj => ?_⟩
    rcases hj with _ | hc | hc | hc <;> rcases hc with hc | hc <;> cases hc
  | cons e r =>
    refine ⟨e, r ++ 0 :: tail, rfl, fun j hj => ?_⟩
    have hle := hlongest _ _ (.number hds hj) ⟨r, by simp⟩
    rw [List.length_append] at hle
    exact Nat.not_succ_le_self _ hle

/-- The digits of the longest number and its suffix are read. -/
theorem Longest.parseDigits (h : Longest ds sfx rest n k) (hbase : base ≤ 16)
    (hmore : ∀ e, isDigit base e = true → ∃ m, Numeral (ds ++ [e]) m) {digits : List UInt8}
    (hdigits : ∀ d ∈ digits, isDigit base d = true) :
    parseDigits (UInt8.ofNat base) 0 (digits ++ (sfx ++ (rest ++ 0 :: tail))) =
      some (UInt32.ofNat (digitsValue base 0 digits * k), rest ++ 0 :: tail) := by
  obtain ⟨e, r, hraw, he⟩ := @Longest.no_digit tail _ _ _ _ _ _ h hbase hmore
  have hparse := @parseDigits_eq digits r base e hbase hdigits he 0
  rw [← hraw, parseSuffix_eq h.suffix h.no_suffix, ← UInt32.ofNat_mul] at hparse
  exact hparse

/-! ## What is read -/

/-- When a leading zero gets the parser stuck. -/
theorem zeroStuck_zero_iff {x : UInt8} : ZeroStuck (0x30 :: x :: s) ↔
    0x37 < x ∧ ¬((x = 0x78 ∨ x = 0x58) ∧ ∃ d r, s = d :: r ∧ isDigit 16 d = true) := by
  rw [ZeroStuck, if_neg (by decide)]
  constructor
  · rintro ⟨-, y, r, heq, h⟩
    obtain ⟨rfl, rfl⟩ := List.cons.inj heq
    exact h
  · exact fun h => ⟨rfl, x, s, rfl, h⟩

/-- A suffix is one character at most. -/
theorem Suffix.length_le (h : Suffix sfx k) : sfx.length ≤ 1 := by
  cases h with
  | none => exact Nat.zero_le 1
  | kilo => exact le_rfl
  | mega => exact le_rfl
  | giga => exact le_rfl

/-- An octal number is read, unless a zero is stuck. -/
theorem parseOcthex_octal (hds : ∀ d ∈ ds, isDigit 8 d = true)
    (h : Longest (0x30 :: ds) sfx rest n k)
    (hstuck : ¬ZeroStuck (0x30 :: (ds ++ (sfx ++ rest)))) :
    parseOcthex (ds ++ (sfx ++ (rest ++ 0 :: tail))) =
      some (some (UInt32.ofNat (digitsValue 8 0 ds * k)), rest ++ 0 :: tail) := by
  have hmore : ∀ e, isDigit 8 e = true → ∃ m, Numeral (0x30 :: ds ++ [e]) m := fun e he =>
    ⟨_, .octal (List.forall_mem_append.mpr ⟨hds, List.forall_mem_singleton.mpr he⟩)⟩
  cases ds with
  | nil =>
    obtain ⟨f, r, hraw, hf⟩ := @Longest.no_digit tail _ _ _ _ _ _ h (by decide) hmore
    have hsuffix := @parseSuffix_eq sfx (rest ++ 0 :: tail) k h.suffix h.no_suffix 0
    rw [List.nil_append]
    by_cases hlow : f < 0x30
    · rw [hraw] at hsuffix ⊢
      rw [parseOcthex, if_pos hlow, hsuffix, UInt32.zero_mul, digitsValue, List.foldl_nil,
        Nat.zero_mul]
      rfl
    · -- a character above `7`: only a hexadecimal number would go on with it
      exfalso
      have hhigh : 0x37 < f := (digit_branches f).2.2.mpr ⟨hlow, hf⟩
      rw [← List.append_assoc] at hraw
      rw [List.nil_append] at hstuck
      cases hbehind : sfx ++ rest with
      | nil =>
        rw [hbehind] at hraw
        rw [← (List.cons.inj hraw).1] at hlow
        exact hlow (by decide)
      | cons x s =>
        rw [hbehind] at hraw hstuck
        obtain rfl := (List.cons.inj hraw).1
        rw [zeroStuck_zero_iff, not_and, not_not] at hstuck
        obtain ⟨hx, d, r', rfl, hd⟩ := hstuck hhigh
        have hhex : IntText (0x30 :: x :: [d] ++ []) _ := .number (.hex hx (List.cons_ne_nil d [])
          (List.forall_mem_singleton.mpr hd)) .none
        have hle := h.longest _ _ hhex ⟨r', by rw [hbehind]; rfl⟩
        have hone := h.suffix.length_le
        simp only [List.length_append, List.length_cons, List.length_nil] at hle
        omega
  | cons d ds =>
    obtain ⟨hd, -⟩ := List.forall_mem_cons.mp hds
    obtain ⟨hlow, hx, hhigh⟩ := (digit_branches d).2.1.mp hd
    have hparse := @Longest.parseDigits tail _ _ _ _ _ 8 h (by decide) hmore _ hds
    rw [List.cons_append] at hparse ⊢
    rw [parseOcthex, if_neg hlow]
    dsimp only
    rw [if_neg hx, if_neg hhigh]
    have hbase : UInt8.ofNat 8 = 8 := rfl
    rw [← hbase, hparse]
    rfl

/-- A natural number is stored modulo 2^32. -/
theorem ofInt_natCast (m : Nat) : UInt32.ofInt m = UInt32.ofNat m := by
  have hmod : ((m : Int) % 2 ^ 32).toNat = m % 2 ^ 32 := by omega
  apply UInt32.toNat_inj.mp
  rw [UInt32.ofInt, hmod, UInt32.toNat_ofNat', UInt32.toNat_ofNat', Nat.mod_mod]

/-- Numbers that do not start with a minus sign are read, unless a zero is stuck. -/
theorem parseint_longest {c : UInt8} (hc : c ≠ 0x2D) (hstuck : ¬ZeroStuck (c :: s))
    (h : LongestInt (c :: s) value rest) :
    parseint negative (c :: s ++ 0 :: tail) =
      some (some (UInt32.ofInt (if negative then -value else value)), rest ++ 0 :: tail) := by
  obtain ⟨ds, sfx, n, k, hs, rfl, hlongest⟩ := h.number hc
  have hsign : ∀ m : Nat, (if negative then -UInt32.ofNat m else UInt32.ofNat m) =
      UInt32.ofInt (if negative then -(m : Int) else m) := by
    intro m
    rw [← ofInt_natCast]
    split_ifs
    · exact (UInt32.ofInt_neg m).symm
    · rfl
  have hraw : c :: s ++ 0 :: tail = ds ++ (sfx ++ (rest ++ 0 :: tail)) := by
    rw [hs, List.append_assoc, List.append_assoc]
  rw [hraw]
  rw [hs] at hstuck
  have hnumeral := hlongest.numeral
  cases hnumeral with
  | @decimal c' ds hne hds =>
    obtain rfl := (List.cons.inj hs).1
    obtain ⟨hlow, hhigh⟩ := (digit_branches c).1.mp (hds c List.mem_cons_self)
    have hmore : ∀ e, isDigit 10 e = true → ∃ m, Numeral (c :: ds ++ [e]) m := fun e he =>
      ⟨_, .decimal hne (List.forall_mem_append.mpr ⟨hds, List.forall_mem_singleton.mpr he⟩)⟩
    have hparse := @Longest.parseDigits tail _ _ _ _ _ 10 hlongest (by decide) hmore _ hds
    have hbase : UInt8.ofNat 10 = 10 := rfl
    rw [hbase, List.cons_append] at hparse
    rw [List.cons_append, parseint]
    dsimp only
    rw [if_neg hc, if_neg hlow, if_neg hne, if_neg hhigh, hparse, Option.map_some, hsign]
  | octal hds =>
    rw [List.cons_append] at hstuck
    have hparse := @parseOcthex_octal tail _ _ _ _ _ hds hlongest hstuck
    rw [List.cons_append, parseint]
    dsimp only
    rw [if_neg (by decide), if_neg (by decide), if_pos rfl, hparse, Option.map_some,
      Option.map_some, hsign]
  | @hex x ds hx hne hds =>
    have hmore : ∀ e, isDigit 16 e = true → ∃ m, Numeral (0x30 :: x :: ds ++ [e]) m := fun e he =>
      ⟨_, .hex hx (List.append_ne_nil_of_left_ne_nil hne _)
        (List.forall_mem_append.mpr ⟨hds, List.forall_mem_singleton.mpr he⟩)⟩
    have hparse := @Longest.parseDigits tail _ _ _ _ _ 16 hlongest (by decide) hmore
      (0x30 :: ds) (List.forall_mem_cons.mpr ⟨by decide, hds⟩)
    have hbase : UInt8.ofNat 16 = 16 := rfl
    rw [hbase, List.cons_append] at hparse
    have hlow : ¬x < 0x30 := by rcases hx with rfl | rfl <;> decide
    rw [List.cons_append, List.cons_append, parseint]
    dsimp only
    rw [if_neg (by decide), if_neg (by decide), if_pos rfl, parseOcthex, if_neg hlow]
    dsimp only
    rw [if_pos ((or_space_eq_iff x).2.2.2.mpr hx), hparse, Option.map_some, Option.map_some,
      Option.map_some, hsign]
    rfl

/-- A character that is no digit starts no number. -/
theorem parseint_error {c : UInt8} (hc : c ≠ 0x2D) (hdigit : isDigit 10 c = false) :
    parseint negative (c :: raw) = some (none, raw) := by
  have hbranch := (digit_branches c).1.not.mp (Bool.eq_false_iff.mp hdigit)
  rw [parseint]
  dsimp only
  rw [if_neg hc]
  by_cases hlow : c < 0x30
  · rw [if_pos hlow]
  · have hhigh : 0x39 < c := by
      by_contra hle
      exact hbranch ⟨hlow, hle⟩
    have hzero : c ≠ 0x30 := by
      rintro rfl
      exact absurd hhigh (by decide)
    rw [if_neg hlow, if_neg hzero, if_pos hhigh]

/-- A number starts with a digit, and a digit is a number. -/
theorem exists_longestInt_iff {c : UInt8} (hc : c ≠ 0x2D) :
    (∃ value rest, LongestInt (c :: s) value rest) ↔ isDigit 10 c = true := by
  constructor
  · rintro ⟨value, rest, h⟩
    obtain ⟨ds, sfx, n, k, hs, -, hlongest⟩ := h.number hc
    obtain ⟨c', ds', rfl, hd⟩ := hlongest.numeral.head
    obtain rfl := (List.cons.inj hs).1
    exact hd
  · intro hd
    have hprefix : [c] ++ [] <+: c :: s := List.cons_prefix_cons.mpr ⟨rfl, List.nil_prefix⟩
    by_cases hzero : c = 0x30
    · rw [hzero] at hprefix ⊢
      exact exists_longestInt (.number (.octal (List.forall_mem_nil _)) .none) hprefix
    · exact exists_longestInt
        (.number (.decimal hzero (List.forall_mem_singleton.mpr hd)) .none) hprefix

/-- Reading the suffix never gives characters back. -/
theorem parseSuffix_length_le {ebx ebx' : UInt32} (h : parseSuffix ebx raw = some (ebx', rest)) :
    rest.length ≤ raw.length := by
  cases raw with
  | nil => cases h
  | cons c raw =>
    rw [parseSuffix] at h
    split_ifs at h
    · obtain rfl := (Prod.mk.inj (Option.some.inj h)).2
      exact Nat.le_succ _
    · obtain rfl := (Prod.mk.inj (Option.some.inj h)).2
      exact Nat.le_succ _
    · obtain rfl := (Prod.mk.inj (Option.some.inj h)).2
      exact Nat.le_succ _
    · obtain rfl := (Prod.mk.inj (Option.some.inj h)).2
      exact le_rfl

/-- In front of an `x` with no hexadecimal digit behind it the number is a single zero. -/
theorem Longest.rest_of_stuck {x : UInt8} {r : List UInt8} (h : Longest ds sfx rest n k)
    (hs : 0x30 :: x :: r = ds ++ (sfx ++ rest)) (hx : x = 0x78 ∨ x = 0x58)
    (hhex : ¬∃ d r', r = d :: r' ∧ isDigit 16 d = true) : rest = x :: r := by
  have hoctal : isDigit 8 x = false := by rcases hx with rfl | rfl <;> decide
  have hletter : ∀ j, ¬Suffix [x] j := by
    intro j hj
    rcases hx with rfl | rfl <;> rcases hj with _ | hc | hc | hc <;> revert hc <;> decide
  obtain ⟨hds, hsfx, -⟩ := h
  cases hds with
  | decimal hne => exact absurd (List.cons.inj hs).1.symm hne
  | @octal ds hds =>
    cases ds with
    | nil =>
      have hbehind := (List.cons.inj hs).2
      cases hsfx with
      | none => exact hbehind.symm
      | kilo hc => exact absurd (.kilo ((List.cons.inj hbehind).1 ▸ hc)) (hletter _)
      | mega hc => exact absurd (.mega ((List.cons.inj hbehind).1 ▸ hc)) (hletter _)
      | giga hc => exact absurd (.giga ((List.cons.inj hbehind).1 ▸ hc)) (hletter _)
    | cons d ds =>
      obtain rfl := (List.cons.inj (List.cons.inj hs).2).1
      exact absurd (hds x List.mem_cons_self) (Bool.eq_false_iff.mp hoctal)
  | @hex x' ds hx' hne hds =>
    obtain ⟨d, ds, rfl⟩ := List.exists_cons_of_ne_nil hne
    exact absurd ⟨d, _, (List.cons.inj (List.cons.inj hs).2).2, hds d List.mem_cons_self⟩ hhex

/-- A stuck zero is not read right: there is an error, or the pointer goes on behind an `x`. -/
theorem not_readsInt_of_stuck (hstuck : ZeroStuck (0x30 :: s)) :
    ¬ReadsInt negative (0x30 :: s) tail := by
  rintro ⟨hread, -⟩
  obtain ⟨value, rest, h⟩ := (@exists_longestInt_iff s 0x30 (by decide)).mpr (by decide)
  have hresult := hread value rest h
  rw [ZeroStuck, if_neg (by decide)] at hstuck
  obtain ⟨-, x, r, rfl, hhigh, hhex⟩ := hstuck
  obtain ⟨hlow, hoctal⟩ := (digit_branches x).2.2.mp hhigh
  rw [List.cons_append, List.cons_append, parseint] at hresult
  dsimp only at hresult
  rw [if_neg (by decide), if_neg (by decide), if_pos rfl, parseOcthex, if_neg hlow] at hresult
  dsimp only at hresult
  by_cases hx : x ||| 0x20 = 0x78
  · rw [if_pos hx] at hresult
    have hletter := (or_space_eq_iff x).2.2.2.mp hx
    have hnone : ¬∃ d r', r = d :: r' ∧ isDigit 16 d = true := fun hd => hhex ⟨hletter, hd⟩
    obtain ⟨ds, sfx, n, k, hs, -, hlongest⟩ := h.number (by decide)
    obtain rfl := hlongest.rest_of_stuck hs hletter hnone
    obtain ⟨e, r', hraw, he⟩ : ∃ e r', r ++ 0 :: tail = e :: r' ∧ isDigit 16 e = false := by
      cases r with
      | nil => exact ⟨0, tail, rfl, by decide⟩
      | cons d r => exact ⟨d, r ++ 0 :: tail, rfl, Bool.eq_false_iff.mpr fun hd =>
          hnone ⟨d, r, rfl, hd⟩⟩
    have hparse := @parseDigits_eq [0x30] r' 16 e le_rfl
      (List.forall_mem_singleton.mpr (by decide)) he 0
    rw [List.singleton_append, ← hraw] at hparse
    change parseDigits 16 0 (0x30 :: (r ++ 0 :: tail)) = _ at hparse
    rw [hparse, Option.map_map] at hresult
    obtain ⟨⟨ebx, left⟩, hsuffix, heq⟩ := Option.map_eq_some_iff.mp hresult
    obtain rfl := (Prod.mk.inj heq).2
    have hle := parseSuffix_length_le hsuffix
    rw [List.cons_append, List.length_cons] at hle
    exact Nat.not_succ_le_self _ hle
  · have hal : 0x37 < x ||| 0x20 := by
      by_contra hle
      exact Bool.eq_false_iff.mp hoctal ((digit_branches x).2.1.mpr ⟨hlow, hx, hle⟩)
    rw [if_neg hx, if_pos hal] at hresult
    cases hresult

/-- A minus sign turns the sign of the rest. -/
theorem readsInt_minus_iff :
    ReadsInt negative (0x2D :: s) tail ↔ ReadsInt (!negative) s tail := by
  have hparse : parseint negative (0x2D :: s ++ 0 :: tail) =
      parseint (!negative) (s ++ 0 :: tail) := by
    rw [List.cons_append, parseint]
    exact if_pos rfl
  have hsign : ∀ value : Int, (if !negative then -value else value) =
      if negative then value else -value := by
    intro value
    cases negative
    · rfl
    · rfl
  rw [ReadsInt, ReadsInt, hparse]
  constructor
  · rintro ⟨hread, herror⟩
    refine ⟨fun value rest h => ?_, fun hnone => herror ?_⟩
    · have hminus := hread (-value) rest
        (longestInt_minus_iff.mpr ((Int.neg_neg value).symm ▸ h))
      rw [hsign]
      simp only [Int.neg_neg] at hminus
      exact hminus
    · rintro ⟨value, rest, h⟩
      exact hnone ⟨-value, rest, longestInt_minus_iff.mp h⟩
  · rintro ⟨hread, herror⟩
    refine ⟨fun value rest h => ?_, fun hnone => herror ?_⟩
    · have hplus := hread (-value) rest (longestInt_minus_iff.mp h)
      rw [Int.neg_neg] at hplus
      cases negative
      · exact hplus
      · exact hplus
    · rintro ⟨value, rest, h⟩
      exact hnone ⟨-value, rest, longestInt_minus_iff.mpr ((Int.neg_neg value).symm ▸ h)⟩

/-- A number is read from every text that does not get stuck on its leading zero. -/
theorem readsInt_iff (s tail : List UInt8) (negative : Bool) :
    ReadsInt negative s tail ↔ ¬ZeroStuck s := by
  induction s generalizing negative with
  | nil =>
    refine iff_of_true ⟨?_, fun _ => ⟨tail, parseint_error (by decide) (by decide)⟩⟩ id
    rintro value rest ⟨text, hs, htext, -⟩
    exact absurd (List.append_eq_nil_iff.mp hs.symm).1 htext.ne_nil
  | cons c s ih =>
    by_cases hc : c = 0x2D
    · rw [hc, readsInt_minus_iff, ih, ZeroStuck, if_pos rfl]
    by_cases hdigit : isDigit 10 c = true
    · constructor
      · intro h hstuck
        have hzero := hstuck
        rw [ZeroStuck, if_neg hc] at hzero
        obtain rfl := hzero.1
        exact not_readsInt_of_stuck hstuck h
      · exact fun hstuck => ⟨fun value rest h => parseint_longest hc hstuck h,
          fun hnone => absurd ((exists_longestInt_iff hc).mpr hdigit) hnone⟩
    · refine iff_of_true ⟨fun value rest h => ?_, fun _ => ⟨s ++ 0 :: tail, ?_⟩⟩ fun hstuck => ?_
      · exact absurd ((exists_longestInt_iff hc).mp ⟨value, rest, h⟩) hdigit
      · exact parseint_error hc (Bool.eq_false_iff.mpr hdigit)
      · rw [ZeroStuck, if_neg hc] at hstuck
        rw [hstuck.1] at hdigit
        exact hdigit (by decide)

/-- `parseint` reads a string as the longest number at its start, modulo 2^32, and leaves the
pointer behind it, and reports an error where there is none, exactly when no zero is stuck. -/
theorem parseint_reads_iff (s tail : List UInt8) : ReadsInt false s tail ↔ ¬ZeroStuck s :=
  readsInt_iff s tail false

/-- `0K` is an error. -/
theorem parseint_zero_suffix : ¬∀ s tail, ReadsInt false s tail := by
  intro h
  refine not_readsInt_of_stuck ?_ (h [0x30, 0x4B] [])
  exact zeroStuck_zero_iff.mpr ⟨by decide, fun hx => absurd hx.1 (by decide)⟩

end Liigboot.Boot
