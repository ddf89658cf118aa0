import Liigboot.Lib.Window

/-!
# Formatted numbers

`format_int` of `vsnprintf.c` counts the characters of a number, puts what belongs in front of it,
and stores its digits and tick marks from right to left. What does not fit in the buffer is only
counted.
-/

namespace Liigboot.Comcore

/-! ## The source -/

/-- `enum flags`. -/
structure Flags where
  zero : Bool
  minus : Bool
  plus : Bool
  tick : Bool
  space : Bool
  hash : Bool
  signed : Bool
  upper : Bool
  deriving DecidableEq, Repr

/-- Memory, and the variables `q` and `o`. -/
structure Out where
  mem : Nat → UInt8
  q : Nat
  o : UInt32

/-- `EMIT`. -/
def Out.emit (n : UInt32) (x : UInt8) (out : Out) : Out :=
  if out.o < n then ⟨put out.mem out.q x, out.q + 1, out.o + 1⟩ else { out with o := out.o + 1 }

/-- `EMIT` of some characters. -/
def Out.emitAll (n : UInt32) (xs : List UInt8) (out : Out) : Out :=
  xs.foldl (fun out x => out.emit n x) out

/-- `while (width > nchars)`, with `EMIT` of a character. -/
def Out.pad (n : UInt32) (x : UInt8) (width nchars : Int) (out : Out) : Out :=
  out.emitAll n (List.replicate (width - nchars).toNat x)

def lcdigits : List UInt8 := "0123456789abcdef".toUTF8.data.toList

def ucdigits : List UInt8 := "0123456789ABCDEF".toUTF8.data.toList

/-- Count the number of digits needed. This returns zero for 0. -/
def countDigits (base tmpval : Nat) : Nat :=
  if h : 1 < base ∧ 0 < tmpval then countDigits base (tmpval / base) + 1 else 0
termination_by tmpval
decreasing_by exact Nat.div_lt_self h.2 h.1

/-- What `format_int` finds out about a number before it emits anything. Its `int`s do not overflow
as long as the text is shorter than 2 GB. -/
structure IntShape where
  minus : Bool
  val : Nat
  -- `ndigits` without the tick marks
  count : Nat
  tickskip : Nat
  ndigits : Nat
  nchars : Nat

/-- Adjust ndigits for size of output. -/
def adjustDigits (ndigits val : Nat) (flags : Flags) (base : Nat) (prec : Int) : Nat :=
  let prec := if flags.hash && base = 8 && prec < ndigits + 1 then (ndigits + 1 : Int) else prec
  if ndigits < prec then
    prec.toNat -- Mandatory number padding
  else if val = 0 then
    1 -- Zero still requires space
  else ndigits

/-- The first part of `format_int`. -/
def intShape (val : UInt64) (flags : Flags) (base : Nat) (prec : Int) : IntShape :=
  -- If signed, separate out the minus
  let minus := flags.signed && decide (val.toInt64 < 0)
  let val := (if minus then (-val.toInt64).toUInt64 else val).toNat
  let count := adjustDigits (countDigits base val) val flags base prec
  -- For ', figure out what the skip should be
  let tickskip := if flags.tick then if base = 16 then 4 else 3 else count
  let ndigits := count + (count - 1) / tickskip
  -- Now compute the number of nondigits
  let nchars := ndigits
  let nchars := if minus || (flags.plus || flags.space) then nchars + 1 else nchars
  let nchars := if flags.hash && base = 16 then nchars + 2 else nchars
  ⟨minus, val, count, tickskip, ndigits, nchars⟩

/-- The nondigits in front of a number. -/
def nondigits (minus : Bool) (flags : Flags) (base : Nat) : List UInt8 :=
  (if minus then [0x2D] else if flags.plus then [0x2B] else if flags.space then [0x20] else []) ++
    if flags.hash && base = 16 then [0x30, if flags.upper then 0x58 else 0x78] else []

/-- Memory, and the variables `qq` and `oo`. -/
structure Back where
  mem : Nat → UInt8
  qq : Nat
  oo : UInt32

/-- A character in front of the last one. -/
def Back.emit (n : UInt32) (x : UInt8) (b : Back) : Back where
  mem := if b.oo - 1 < n then put b.mem (b.qq - 1) x else b.mem
  qq := b.qq - 1
  oo := b.oo - 1

/-- Generate the number. This is done from right to left. -/
def generate (n : UInt32) (digits : List UInt8) (base tickskip ndigits b4tick val : Nat)
    (b : Back) : Back :=
  if 0 < ndigits then
    let digit := digits.getD (val % base) 0
    if b4tick = 0 then
      generate n digits base tickskip (ndigits - 2) (tickskip - 1) (val / base)
        ((b.emit n 0x5F).emit n digit)
    else
      generate n digits base tickskip (ndigits - 1) (b4tick - 1) (val / base) (b.emit n digit)
  else b
termination_by ndigits

/-- `format_int`. The pointer is at `q` of memory. -/
def formatInt (q : Nat) (n : UInt32) (val : UInt64) (flags : Flags) (base : Nat)
    (width prec : Int) (mem : Nat → UInt8) : Out :=
  let digits := if flags.upper then ucdigits else lcdigits
  let s := intShape val flags base prec
  let out : Out := ⟨mem, q, 0⟩
  -- Emit early space padding
  let early := !(flags.minus || flags.zero) && decide (width > s.nchars)
  let out := if early then out.pad n 0x20 width s.nchars else out
  let width := if early then (s.nchars : Int) else width
  -- Emit nondigits
  let out := out.emitAll n (nondigits s.minus flags base)
  -- Emit zero padding
  let zeros := flags.zero && !flags.minus && decide (width > s.ndigits)
  let out := if zeros then out.pad n 0x30 width s.nchars else out
  let width := if zeros then min width s.nchars else width
  -- Advance the pointer to end of number
  let out : Out := { out with q := out.q + s.ndigits, o := out.o + UInt32.ofNat s.ndigits }
  let b := generate n digits base s.tickskip s.ndigits s.tickskip s.val ⟨out.mem, out.q, out.o⟩
  let out := { out with mem := b.mem }
  -- Emit late space padding
  if flags.minus then out.pad n 0x20 width s.nchars else out

/-! ## What a number looks like -/

/-- Some digits from the right, with a mark in front of each one that has a multiple of `skip`
digits behind it. -/
def marked (skip : Nat) (digit : Nat → UInt8) (i m : Nat) : List UInt8 :=
  (List.range' i m).flatMap fun j =>
    if j ≠ 0 ∧ j % skip = 0 then [0x5F, digit j] else [digit j]

/-- A digit of a number, counted from the right. -/
def digitAt (digits : List UInt8) (base val j : Nat) : UInt8 :=
  digits.getD (val / base ^ j % base) 0

/-- The digits of a number with their marks. -/
def IntShape.number (s : IntShape) (flags : Flags) (base : Nat) : List UInt8 :=
  (marked s.tickskip (digitAt (if flags.upper then ucdigits else lcdigits) base s.val) 0
    s.count).reverse

/-- A number as it is to be printed: the padding is on the right, between the nondigits and the
number, or on the left. -/
def intText (val : UInt64) (flags : Flags) (base : Nat) (width prec : Int) : List UInt8 :=
  let s := intShape val flags base prec
  let front := nondigits s.minus flags base
  let number := s.number flags base
  let padding := fun x : UInt8 => List.replicate (width - (front ++ number).length).toNat x
  if flags.minus then front ++ number ++ padding 0x20
  else if flags.zero then front ++ padding 0x30 ++ number
  else padding 0x20 ++ front ++ number

variable {skip base val i m : Nat} {digit : Nat → UInt8} {digits : List UInt8} {n : UInt32}

@[simp] theorem marked_zero : marked skip digit i 0 = [] := rfl

/-- A mark stands in front of each group of digits but the first. -/
theorem marked_succ : marked skip digit i (m + 1) =
    (if i ≠ 0 ∧ i % skip = 0 then [0x5F, digit i] else [digit i]) ++
      marked skip digit (i + 1) m := by
  simp [marked, List.range'_succ]

/-- The number of marks. -/
theorem length_marked :
    (marked skip digit 0 (m + 1)).length = m + 1 + m / skip := by
  induction m with
  | zero => simp [marked]
  | succ m ih =>
    have hlast : marked skip digit 0 (m + 1 + 1) = marked skip digit 0 (m + 1) ++
        if m + 1 ≠ 0 ∧ (m + 1) % skip = 0 then [0x5F, digit (m + 1)] else [digit (m + 1)] := by
      simp [marked, List.range'_concat]
    rw [hlast, List.length_append, ih, Nat.succ_div]
    by_cases hmark : (m + 1) % skip = 0
    · rw [if_pos ⟨Nat.succ_ne_zero m, hmark⟩, if_pos (Nat.dvd_of_mod_eq_zero hmark)]
      simp only [List.length_cons, List.length_nil]
      omega
    · rw [if_neg fun h => hmark h.2, if_neg fun h => hmark (Nat.mod_eq_zero_of_dvd h)]
      simp only [List.length_cons, List.length_nil]
      omega

/-- Some characters, from right to left. -/
def Back.emitAll (n : UInt32) (xs : List UInt8) (b : Back) : Back :=
  xs.foldl (fun b x => b.emit n x) b

/-- How many digits there are to the next mark. -/
def beforeTick (skip i : Nat) : Nat := if i ≠ 0 ∧ i % skip = 0 then 0 else skip - i % skip

/-- The count down to the next mark starts over behind one. -/
theorem beforeTick_succ (hskip : 0 < skip) :
    beforeTick skip (i + 1) =
      if beforeTick skip i = 0 then skip - 1 else beforeTick skip i - 1 := by
  have hlt := Nat.mod_lt i hskip
  have hzero : i = 0 → i % skip = 0 := fun h => h ▸ Nat.zero_mod skip
  have hmod : (i + 1) % skip = if i % skip + 1 = skip then 0 else i % skip + 1 := by
    rw [← Nat.mod_add_mod]
    split
    next h => rw [h, Nat.mod_self]
    next h => exact Nat.mod_eq_of_lt (by omega)
  unfold beforeTick
  rw [hmod]
  grind

/-- It is at zero where a mark stands. -/
theorem beforeTick_eq_zero_iff (hskip : 0 < skip) :
    beforeTick skip i = 0 ↔ i ≠ 0 ∧ i % skip = 0 := by
  have hlt := Nat.mod_lt i hskip
  unfold beforeTick
  split
  next h => simp [h]
  next h => 
    simp only [h, iff_false]
    omega

/-- The number is generated digit by digit, with its marks. -/
theorem generate_eq (hskip : 0 < skip) (b : Back) :
    generate n digits base skip (marked skip (digitAt digits base val) i m).length
      (beforeTick skip i) (val / base ^ i) b =
      b.emitAll n (marked skip (digitAt digits base val) i m) := by
  induction m generalizing i b with
  | zero => simp [generate, Back.emitAll]
  | succ m ih =>
    have hnext : val / base ^ i / base = val / base ^ (i + 1) := by
      rw [Nat.div_div_eq_div_mul, Nat.pow_succ]
    have hbefore := @beforeTick_succ skip i hskip
    rw [generate, marked_succ, hnext]
    by_cases htick : beforeTick skip i = 0
    · rw [if_pos htick] at hbefore
      rw [if_pos ((beforeTick_eq_zero_iff hskip).mp htick)]
      simp [htick, ← hbefore, ih, Back.emitAll, digitAt]
    · rw [if_neg htick] at hbefore
      rw [if_neg (mt (beforeTick_eq_zero_iff hskip).mpr htick)]
      simp [htick, ← hbefore, ih, Back.emitAll, digitAt]

/-! ## Characters in the buffer -/

variable {mem : Nat → UInt8} {q : Nat} {text : List UInt8} {out : Out}

/-- Characters from right to left fill the window from its end. -/
theorem Back.emitAll_mem {xs : List UInt8} {b : Back} (hoo : xs.length ≤ b.oo.toNat)
    (hqq : xs.length ≤ b.qq) : (b.emitAll n xs).mem =
      window b.mem (b.qq - xs.length) (n.toNat - (b.oo.toNat - xs.length)) xs.reverse := by
  induction xs generalizing b with
  | nil => simp [Back.emitAll]
  | cons x xs ih =>
    rw [List.length_cons] at hoo hqq
    have hone : (1 : UInt32) ≤ b.oo := by
      rw [UInt32.le_iff_toNat_le, UInt32.toNat_one]
      omega
    have hoo' : (b.oo - 1).toNat = b.oo.toNat - 1 := UInt32.toNat_sub_of_le _ _ hone
    have hmem := @ih (b.emit n x) (by simp only [Back.emit, hoo']; omega)
      (by simp only [Back.emit]; omega)
    have hroom : b.oo - 1 < n ↔ xs.reverse.length < n.toNat - (b.oo.toNat - (xs.length + 1)) := by
      rw [UInt32.lt_iff_toNat_lt, hoo', List.length_reverse]
      omega
    have hplace : b.qq - (xs.length + 1) + xs.reverse.length = b.qq - 1 := by
      rw [List.length_reverse]
      omega
    have hqq' : b.qq - 1 - xs.length = b.qq - (xs.length + 1) := by omega
    have hoo'' : b.oo.toNat - 1 - xs.length = b.oo.toNat - (xs.length + 1) := by omega
    rw [List.length_cons, List.reverse_cons, window_put, hplace, ← if_congr hroom rfl rfl]
    simp only [Back.emit, hoo', hqq', hoo''] at hmem
    exact hmem

/-- What has been emitted is in the buffer as far as that goes. The pointer follows up to there. -/
structure Printed (mem : Nat → UInt8) (q : Nat) (n : UInt32) (text : List UInt8) (out : Out) :
    Prop where
  count : out.o.toNat = text.length
  place : text.length ≤ n.toNat → out.q = q + text.length
  mem : out.mem = window mem q n.toNat text

theorem printed_nil : Printed mem q n [] ⟨mem, q, 0⟩ := by
  constructor <;> simp

/-- A character is printed behind the text. -/
theorem Printed.emit {x : UInt8} (h : Printed mem q n text out)
    (hlen : text.length + 1 < 2 ^ 32) : Printed mem q n (text ++ [x]) (out.emit n x) := by
  have ho : (out.o + 1).toNat = text.length + 1 := by
    rw [UInt32.toNat_add, h.count, UInt32.toNat_one, Nat.mod_eq_of_lt hlen]
  have hroom : out.o < n ↔ text.length < n.toNat := by rw [UInt32.lt_iff_toNat_lt, h.count]
  unfold Out.emit
  split
  next hlt =>
    have hplace := h.place (hroom.mp hlt).le
    constructor
    · simp [ho]
    · simp [hplace, Nat.add_assoc]
    · rw [window_concat, if_pos (hroom.mp hlt), ← h.mem, hplace]
  next hge =>
    constructor
    · simp [ho]
    · intro hle
      rw [List.length_append, List.length_singleton] at hle
      exact absurd (hroom.mpr hle) hge
    · rw [window_concat, if_neg (mt hroom.mpr hge)]
      exact h.mem

/-- So are several. -/
theorem Printed.emitAll {xs : List UInt8} (h : Printed mem q n text out)
    (hlen : text.length + xs.length < 2 ^ 32) :
    Printed mem q n (text ++ xs) (out.emitAll n xs) := by
  induction xs generalizing text out with
  | nil => simpa [Out.emitAll] using h
  | cons x xs ih =>
    rw [List.length_cons] at hlen
    have hone : Printed mem q n (text ++ [x]) (out.emit n x) := h.emit (by omega)
    have hnext := @ih (text ++ [x]) _ hone (by
      rw [List.length_append, List.length_singleton]
      omega)
    rwa [List.append_assoc] at hnext

/-- A number from right to left takes its place in the output. -/
theorem Printed.number {xs : List UInt8} (h : Printed mem q n text out)
    (hlen : text.length + xs.length < 2 ^ 32) :
    Printed mem q n (text ++ xs.reverse)
      { mem := (Back.emitAll n xs ⟨out.mem, out.q + xs.length,
          out.o + UInt32.ofNat xs.length⟩).mem
        q := out.q + xs.length
        o := out.o + UInt32.ofNat xs.length } := by
  have ho : (out.o + UInt32.ofNat xs.length).toNat = text.length + xs.length := by
    rw [UInt32.toNat_add, h.count, UInt32.toNat_ofNat', Nat.add_mod_mod, Nat.mod_eq_of_lt hlen]
  constructor
  · simp [ho]
  · intro hle
    rw [List.length_append] at hle
    have hplace := h.place (by omega)
    simp [hplace, Nat.add_assoc]
  · rw [Back.emitAll_mem (by simp [ho]) (by simp), window_append]
    simp only [ho, Nat.add_sub_cancel, h.mem]
    by_cases hle : text.length ≤ n.toNat
    · rw [h.place hle]
    · rw [Nat.sub_eq_zero_of_le (Nat.le_of_not_le hle), window_zero, window_zero]

/-! ## The whole number -/

section Whole

variable {value : UInt64} {flags : Flags} {width prec : Int}

theorem countDigits_pos (hbase : 1 < base) (hval : 0 < val) : 0 < countDigits base val := by
  rw [countDigits, dif_pos ⟨hbase, hval⟩]
  exact Nat.succ_pos _

theorem adjustDigits_pos (hbase : 1 < base) :
    0 < adjustDigits (countDigits base val) val flags base prec := by
  simp only [adjustDigits]
  generalize (if flags.hash && base = 8 && prec < countDigits base val + 1 then
    (countDigits base val + 1 : Int) else prec) = prec'
  split
  next h => omega
  next =>
    split
    next => exact Nat.one_pos
    next hval => exact countDigits_pos hbase (Nat.pos_of_ne_zero hval)

theorem intShape_count_pos (hbase : 1 < base) : 0 < (intShape value flags base prec).count :=
  adjustDigits_pos hbase

theorem intShape_tickskip_pos (hbase : 1 < base) :
    0 < (intShape value flags base prec).tickskip := by
  have hcount : 0 < (intShape value flags base prec).count := intShape_count_pos hbase
  change 0 < if flags.tick then if base = 16 then 4 else 3 else
    (intShape value flags base prec).count
  split_ifs <;> omega

theorem intShape_number_length (hbase : 1 < base) :
    ((intShape value flags base prec).number flags base).length =
      (intShape value flags base prec).ndigits := by
  have hcount : 0 < (intShape value flags base prec).count := intShape_count_pos hbase
  have hndigits : (intShape value flags base prec).ndigits =
      (intShape value flags base prec).count + ((intShape value flags base prec).count - 1) /
        (intShape value flags base prec).tickskip := rfl
  rw [IntShape.number, List.length_reverse, hndigits]
  obtain ⟨m, hm⟩ := Nat.exists_eq_add_of_lt hcount
  rw [Nat.zero_add] at hm
  rw [hm, length_marked, Nat.add_sub_cancel]

/-- So are the sign and the mark of the base. -/
theorem intShape_nchars (hbase : 1 < base) : (intShape value flags base prec).nchars =
    (nondigits (intShape value flags base prec).minus flags base ++
      (intShape value flags base prec).number flags base).length := by
  have hdef : (intShape value flags base prec).nchars =
      let nchars := (intShape value flags base prec).ndigits
      let nchars := if (intShape value flags base prec).minus || (flags.plus || flags.space) then
        nchars + 1 else nchars
      if flags.hash && base = 16 then nchars + 2 else nchars := rfl
  rw [hdef, List.length_append, intShape_number_length hbase]
  unfold nondigits
  cases (intShape value flags base prec).minus <;> cases flags.plus <;> cases flags.space <;>
    cases flags.hash && decide (base = 16) <;> simp <;> omega

/-- The digits are stored over the characters that were counted for them. -/
theorem Printed.generate {s : IntShape} (hs : 0 < s.tickskip)
    (hnumber : (s.number flags base).length = s.ndigits) (h : Printed mem q n text out)
    (hlen : text.length + s.ndigits < 2 ^ 32) :
    Printed mem q n (text ++ s.number flags base)
      { mem := (generate n (if flags.upper then ucdigits else lcdigits) base s.tickskip s.ndigits
          s.tickskip s.val ⟨out.mem, out.q + s.ndigits, out.o + UInt32.ofNat s.ndigits⟩).mem
        q := out.q + s.ndigits
        o := out.o + UInt32.ofNat s.ndigits } := by
  rw [← hnumber] at hlen ⊢
  have hgen := fun b => @generate_eq s.tickskip base s.val 0 s.count
    (if flags.upper then ucdigits else lcdigits) n hs b
  have hbefore : beforeTick s.tickskip 0 = s.tickskip := by simp [beforeTick]
  rw [hbefore, Nat.pow_zero, Nat.div_one] at hgen
  rw [IntShape.number, List.length_reverse, hgen]
  rw [IntShape.number, List.length_reverse] at hlen
  exact h.number hlen

/-- Where there is nothing to pad, the loop does nothing. -/
theorem Out.pad_of_gt {x : UInt8} {k nchars : Nat} (hle : k ≤ nchars) (out : Out) :
    (if decide (width > k) then out.pad n x width nchars else out) =
      out.pad n x width nchars := by
  split
  next => rfl
  next h =>
    rw [decide_eq_true_eq] at h
    rw [Out.pad, Int.toNat_eq_zero.mpr (by omega)]
    rfl

/-- The padding fills up to the width. -/
theorem Printed.pad {x : UInt8} {nchars : Nat} (h : Printed mem q n text out)
    (hlen : text.length + (width - nchars).toNat < 2 ^ 32) :
    Printed mem q n (text ++ List.replicate (width - nchars).toNat x)
      (out.pad n x width nchars) :=
  h.emitAll (by rwa [List.length_replicate])

/-- `format_int` prints the number. -/
theorem formatInt_printed (hbase : 1 < base)
    (hlen : (intText value flags base width prec).length < 2 ^ 32) :
    Printed mem q n (intText value flags base width prec)
      (formatInt q n value flags base width prec mem) := by
  have hnchars : (intShape value flags base prec).nchars = _ := intShape_nchars hbase
  have hnumber : _ = (intShape value flags base prec).ndigits := intShape_number_length hbase
  have htick : 0 < (intShape value flags base prec).tickskip := intShape_tickskip_pos hbase
  simp only [intText] at hlen ⊢
  simp only [formatInt]
  generalize intShape value flags base prec = s at *
  rw [← hnchars] at hlen ⊢
  rw [List.length_append, hnumber] at hnchars
  generalize nondigits s.minus flags base = front at *
  have hstart : Printed mem q n [] ⟨mem, q, 0⟩ := printed_nil
  cases hminus : flags.minus with
  | true =>
    simp only [hminus, Bool.true_or, Bool.not_true, Bool.false_and, Bool.and_false,
      Bool.false_eq_true, if_false, if_true, List.length_append, List.length_replicate,
      hnumber] at hlen ⊢
    have hfront : Printed mem q n front _ := hstart.emitAll (by rw [List.length_nil]; omega)
    have hdigits := hfront.generate htick hnumber (by omega)
    exact hdigits.pad (by rw [List.length_append, hnumber]; omega)
  | false =>
    cases hzero : flags.zero with
    | true =>
      simp only [hminus, hzero, Bool.or_true, Bool.not_true, Bool.not_false, Bool.false_and,
        Bool.true_and, Bool.false_eq_true, if_false, if_true, List.length_append,
        List.length_replicate, hnumber] at hlen ⊢
      have hfront : Printed mem q n front _ := hstart.emitAll (by rw [List.length_nil]; omega)
      have hzeros : Printed mem q n _ (Out.pad n 0x30 width s.nchars _) := hfront.pad (by omega)
      rw [Out.pad_of_gt (by omega)]
      exact hzeros.generate htick hnumber (by
        rw [List.length_append, List.length_replicate]
        omega)
    | false =>
      simp only [hminus, hzero, Bool.or_false, Bool.not_false, Bool.false_and, Bool.true_and,
        Bool.false_eq_true, if_false, List.length_append, List.length_replicate,
        hnumber] at hlen ⊢
      have hpad : Printed mem q n _ (Out.pad n 0x20 width s.nchars _) :=
        hstart.pad (by rw [List.length_nil]; omega)
      have hfront : Printed mem q n (_ ++ front) _ :=
        hpad.emitAll (by rw [List.nil_append, List.length_replicate]; omega)
      rw [Out.pad_of_gt (by omega)]
      exact hfront.generate htick hnumber (by
        rw [List.length_append, List.length_replicate]
        omega)

end Whole

end Liigboot.Comcore
