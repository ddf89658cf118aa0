import Mathlib.Algebra.Group.Nat.Defs
import Mathlib.Data.List.Basic
import Mathlib.Order.Nat

/-!
# The run-length codec of the label store

`rllpack` reads a record forwards and writes its packed form backwards, below
the end pointer; `rllunpack` reads it back from that pointer down. The packed
object is the list of its bytes from the highest address down, so that byte `k`
lies at `edi - 1 - k`. The record and the packed form are two objects, as in the
source. The packed form is a list of tokens followed by a zero byte; the pending
verbatim group, whose count is patched in place, is always the last token.
-/

namespace Liigboot.Config

/-! ## Packing -/

/-- The locals of `rllpack` at the head of `while (cnt)`. -/
structure Pack where
  /-- The input pointer. -/
  i : UInt32
  /-- The output pointer. -/
  o : UInt32
  /-- The bytes from `edi - 1` down to `o`. -/
  out : List UInt8
  /-- Where `hdr` points, as an index into `out`. -/
  hdr : Nat
  /-- `(size_t)-1` outside a verbatim group. -/
  vrun : Nat
  deriving DecidableEq, Repr

/-- `*--o = c`. -/
def Pack.push (s : Pack) (c : UInt8) : Pack := { s with o := s.o - 1, out := s.out ++ [c] }

/-- `while (run < tcnt && i[run] == c) run++`, over the bytes behind `i[run]`. -/
def runFrom (c : UInt8) (tcnt : Nat) : Nat → List UInt8 → Nat
  | run, [] => run
  | run, x :: xs => if run < tcnt ∧ x = c then runFrom c tcnt (run + 1) xs else run

/-- The branch `run < 3`: one verbatim byte. A new group starts with a byte reserved for
its count, which every byte of the group patches. -/
def packVerbatim (s : Pack) (c : UInt8) : Pack :=
  let s := if s.vrun ≥ 128 then { s.push 0 with hdr := s.out.length, vrun := 0 } else s
  let s := s.push c
  let vrun := s.vrun + 1
  { s with out := s.out.set s.hdr (UInt8.ofNat vrun), vrun := vrun, i := s.i + 1 }

/-- The branch `run >= 3`: one run token. The two-byte header is stored as the 16-bit number
`run + (224 << 8)`, high byte at the higher address. -/
def packRun (s : Pack) (c : UInt8) (run : Nat) : Pack :=
  let s :=
    if run < 224 - 126 then s.push (UInt8.ofNat (run + 126))
    else (s.push (UInt8.ofNat ((run + 224 * 256) / 256))).push (UInt8.ofNat (run + 224 * 256))
  { s.push c with vrun := 2 ^ 32 - 1, i := s.i + UInt32.ofNat run }

/-- `while (cnt)`, with `cnt` the length of the remaining input. -/
def packLoop : Nat → List UInt8 → Pack → Pack
  | 0, _, s => s
  | _ + 1, [], s => s
  | fuel + 1, c :: rest, s =>
    let cnt := rest.length + 1
    let tcnt := if cnt > 8191 then 8191 else cnt
    let run := runFrom c tcnt 1 rest
    if run < 3 then packLoop fuel rest (packVerbatim s c)
    else packLoop fuel (rest.drop (run - 1)) (packRun s c run)

/-- `rllpack` on the bytes at `esi`, towards the end pointer `edi`. -/
def rllpack (esi edi : UInt32) (input : List UInt8) : Pack :=
  (packLoop input.length input ⟨esi, edi, [], 0, 2 ^ 32 - 1⟩).push 0

/-! ## Unpacking -/

/-- The locals of `rllunpack`: the bytes still below `i`, and the bytes stored so far. -/
structure Unpack where
  i : UInt32
  input : List UInt8
  o : UInt32
  out : List UInt8
  deriving DecidableEq, Repr

/-- `*--i`; no byte is known below the object. -/
def Unpack.pop (s : Unpack) : Option (UInt8 × Unpack) :=
  match s.input with
  | [] => none
  | c :: rest => some (c, { s with i := s.i - 1, input := rest })

/-- `*o++ = c`. -/
def Unpack.store (s : Unpack) (c : UInt8) : Unpack := { s with o := s.o + 1, out := s.out ++ [c] }

/-- `while (c--) *o++ = *--i`. -/
def copyDown : Nat → Unpack → Option Unpack
  | 0, s => some s
  | c + 1, s =>
    match s.pop with
    | none => none
    | some (x, s) => copyDown c (s.store x)

/-- `while (n--) *o++ = c`. -/
def fillUp (c : UInt8) : Nat → Unpack → Unpack
  | 0, s => s
  | n + 1, s => fillUp c n (s.store c)

/-- One token, behind its leading byte `c`. -/
def unpackToken (c : UInt8) (s : Unpack) : Option Unpack :=
  if c.toNat ≤ 128 then copyDown c.toNat s
  else if c.toNat < 224 then
    match s.pop with
    | none => none
    | some (v, s) => some (fillUp v (c.toNat - 126) s)
  else
    match s.pop with
    | none => none
    | some (lo, s) =>
      match s.pop with
      | none => none
      | some (v, s) => some (fillUp v ((c.toNat - 224) * 256 + lo.toNat) s)

/-- `while ((c = *--i))`. -/
def unpackLoop : Nat → Unpack → Option Unpack
  | 0, _ => none
  | fuel + 1, s =>
    match s.pop with
    | none => none
    | some (c, s) =>
      if c = 0 then some s
      else match unpackToken c s with
        | none => none
        | some s => unpackLoop fuel s

/-- What `rllunpack` leaves in the registers, with the stored bytes and the unread rest. -/
structure Unpacked where
  esi : UInt32
  ecx : UInt32
  edi : UInt32
  out : List UInt8
  rest : List UInt8
  deriving DecidableEq, Repr

/-- `rllunpack` from the end pointer `esi`, storing at `edi`; `input` lists the bytes
below `esi` downwards. -/
def rllunpack (esi edi : UInt32) (input : List UInt8) : Option Unpacked :=
  (unpackLoop (input.length + 1) ⟨esi, input, edi, []⟩).map fun s =>
    ⟨s.i, s.o - edi, s.o, s.out, s.input⟩

/-! ## Tokens -/

/-- One token of the packed form, within the ranges of the leading byte. -/
inductive Token
  | verbatim (bytes : List UInt8) (h : 1 ≤ bytes.length ∧ bytes.length ≤ 128)
  | short (n : Nat) (c : UInt8) (h : 3 ≤ n ∧ n < 98)
  | long (n : Nat) (c : UInt8) (h : n < 8192)

/-- The bytes a token stands for. -/
def Token.expand : Token → List UInt8
  | .verbatim bytes _ => bytes
  | .short n c _ => List.replicate n c
  | .long n c _ => List.replicate n c

/-- The bytes of a token, from the leading byte down. -/
def Token.encode : Token → List UInt8
  | .verbatim bytes _ => UInt8.ofNat bytes.length :: bytes
  | .short n c _ => [UInt8.ofNat (n + 126), c]
  | .long n c _ => [UInt8.ofNat (224 + n / 256), UInt8.ofNat n, c]

/-- The packed bytes of a token list, without the terminator. -/
def encodes (ts : List Token) : List UInt8 := ts.flatMap Token.encode

/-- The bytes a token list stands for. -/
def expands (ts : List Token) : List UInt8 := ts.flatMap Token.expand

@[simp] theorem encodes_nil : encodes [] = [] := rfl
@[simp] theorem expands_nil : expands [] = [] := rfl

/-- The code of a token comes in front of the others. -/
@[simp] theorem encodes_cons (t : Token) (ts : List Token) :
    encodes (t :: ts) = t.encode ++ encodes ts := List.flatMap_cons

/-- What a token stands for comes in front of the others. -/
@[simp] theorem expands_cons (t : Token) (ts : List Token) :
    expands (t :: ts) = t.expand ++ expands ts := List.flatMap_cons

/-- Codes are put one behind the other. -/
@[simp] theorem encodes_append (ts us : List Token) :
    encodes (ts ++ us) = encodes ts ++ encodes us := List.flatMap_append

/-- Expansions are put one behind the other. -/
@[simp] theorem expands_append (ts us : List Token) :
    expands (ts ++ us) = expands ts ++ expands us := List.flatMap_append

/-- A pointer moved up by `n` bytes. -/
private theorem ofNat_succ (p : UInt32) (n : Nat) :
    p + 1 + UInt32.ofNat n = p + UInt32.ofNat (n + 1) := by
  rw [UInt32.ofNat_add]
  grind

/-! ## The decoder inverts token lists -/

/-- The copy loop takes the literal bytes and goes on behind them. -/
theorem copyDown_append (bytes tail out : List UInt8) (i o : UInt32) :
    copyDown bytes.length ⟨i, bytes ++ tail, o, out⟩ =
      some ⟨i - UInt32.ofNat bytes.length, tail, o + UInt32.ofNat bytes.length, out ++ bytes⟩ := by
  induction bytes generalizing i o out with
  | nil => simp [copyDown]
  | cons b bytes ih =>
    simp only [List.length_cons, copyDown, List.cons_append, Unpack.pop, Unpack.store, ih,
      ofNat_succ, List.append_assoc]
    congr 2
    rw [UInt32.ofNat_add]
    grind

/-- The fill loop writes the byte as often as it is told. -/
theorem fillUp_eq (c : UInt8) (n : Nat) (i o : UInt32) (input out : List UInt8) :
    fillUp c n ⟨i, input, o, out⟩ =
      ⟨i, input, o + UInt32.ofNat n, out ++ List.replicate n c⟩ := by
  induction n generalizing o out with
  | zero => simp [fillUp]
  | succ n ih =>
    simp only [fillUp, Unpack.store, ih, ofNat_succ, List.append_assoc, List.singleton_append,
      List.replicate_succ]

private theorem toNat_ofNat {n : Nat} (h : n < 256) : (UInt8.ofNat n).toNat = n :=
  UInt8.toNat_ofNat_of_lt' h

/-- Behind its leading byte, a token stores exactly the bytes it stands for. -/
theorem unpackToken_encode (t : Token) (tail out : List UInt8) (i o : UInt32) :
    ∃ c rest, t.encode = c :: rest ∧ c ≠ 0 ∧
      unpackToken c ⟨i, rest ++ tail, o, out⟩ =
        some ⟨i - UInt32.ofNat rest.length, tail, o + UInt32.ofNat t.expand.length,
          out ++ t.expand⟩ := by
  cases t with
  | verbatim bytes h =>
    have hc := toNat_ofNat (show bytes.length < 256 by omega)
    refine ⟨_, _, rfl, fun h0 => ?_, ?_⟩
    · have := congrArg UInt8.toNat h0
      rw [hc, UInt8.toNat_zero] at this
      omega
    · rw [unpackToken, hc, if_pos h.2, copyDown_append]
      rfl
  | short n c h =>
    have hc := toNat_ofNat (show n + 126 < 256 by omega)
    refine ⟨_, _, rfl, fun h0 => ?_, ?_⟩
    · have := congrArg UInt8.toNat h0
      rw [hc, UInt8.toNat_zero] at this
      omega
    · rw [unpackToken, hc, if_neg (by omega), if_pos (by omega)]
      simp only [List.cons_append, List.nil_append, Unpack.pop, fillUp_eq, Nat.add_sub_cancel,
        Token.expand, List.length_replicate]
      rfl
  | long n c h =>
    have hc := toNat_ofNat (show 224 + n / 256 < 256 by omega)
    have hlo : (UInt8.ofNat n).toNat = n % 256 := UInt8.toNat_ofNat'
    refine ⟨_, _, rfl, fun h0 => ?_, ?_⟩
    · have := congrArg UInt8.toNat h0
      rw [hc, UInt8.toNat_zero] at this
      omega
    · rw [unpackToken, hc, if_neg (by omega), if_neg (by omega)]
      have hn : (224 + n / 256 - 224) * 256 + n % 256 = n := by omega
      simp only [List.cons_append, List.nil_append, Unpack.pop, fillUp_eq, hlo, hn,
        Token.expand, List.length_replicate]
      have hi : i - 1 - 1 = i - UInt32.ofNat 2 := by grind
      simp only [hi]
      rfl

/-- One round of the decoder loop reads one token. -/
theorem unpackLoop_token (t : Token) (tail out : List UInt8) (i o : UInt32) (fuel : Nat) :
    unpackLoop (fuel + 1) ⟨i, t.encode ++ tail, o, out⟩ =
      unpackLoop fuel ⟨i - UInt32.ofNat t.encode.length, tail,
        o + UInt32.ofNat t.expand.length, out ++ t.expand⟩ := by
  obtain ⟨c, rest, he, hc, ht⟩ := unpackToken_encode t tail out (i - 1) o
  have hi : i - 1 - UInt32.ofNat rest.length = i - UInt32.ofNat (rest.length + 1) := by
    rw [UInt32.ofNat_add]
    grind
  simp only [unpackLoop, he, List.cons_append, Unpack.pop, hc, if_false, ht, List.length_cons, hi]

/-- The decoder reads a terminated token list back and stops right behind the terminator. -/
theorem unpackLoop_encodes (ts : List Token) (tail out : List UInt8) (i o : UInt32) (fuel : Nat)
    (hfuel : ts.length < fuel) :
    unpackLoop fuel ⟨i, encodes ts ++ 0 :: tail, o, out⟩ =
      some ⟨i - UInt32.ofNat ((encodes ts).length + 1), tail,
        o + UInt32.ofNat (expands ts).length, out ++ expands ts⟩ := by
  induction ts generalizing i o out fuel with
  | nil =>
    obtain ⟨fuel, rfl⟩ := Nat.exists_eq_succ_of_ne_zero (Nat.ne_of_gt hfuel)
    simp [unpackLoop, Unpack.pop]
  | cons t ts ih =>
    obtain ⟨fuel, rfl⟩ := Nat.exists_eq_succ_of_ne_zero (Nat.ne_of_gt (Nat.zero_lt_of_lt hfuel))
    rw [encodes_cons, List.append_assoc, unpackLoop_token,
      ih _ _ _ _ (Nat.lt_of_succ_lt_succ hfuel)]
    simp only [expands_cons, List.length_append, List.append_assoc, UInt32.ofNat_add]
    congr 2 <;> grind

theorem length_le_encodes (ts : List Token) : ts.length ≤ (encodes ts).length := by
  induction ts with
  | nil => exact Nat.zero_le _
  | cons t ts ih =>
    have ht : 1 ≤ t.encode.length := by cases t <;> simp [Token.encode]
    simp only [encodes_cons, List.length_append, List.length_cons]
    omega

/-! ## The encoder builds token lists -/

/-- `runFrom` counts bytes equal to `c`, and stays within the cap. -/
theorem runFrom_spec (c : UInt8) (tcnt : Nat) (run : Nat) (xs : List UInt8) :
    ∃ k, runFrom c tcnt run xs = run + k ∧ k ≤ xs.length ∧ xs.take k = List.replicate k c ∧
      (run ≤ tcnt → run + k ≤ tcnt) := by
  induction xs generalizing run with
  | nil => exact ⟨0, rfl, le_rfl, rfl, id⟩
  | cons x xs ih =>
    by_cases h : run < tcnt ∧ x = c
    · obtain ⟨k, hk, hle, htake, hcap⟩ := ih (run + 1)
      refine ⟨k + 1, ?_, Nat.succ_le_succ hle, ?_, fun _ => ?_⟩
      · rw [runFrom, if_pos h, hk]
        omega
      · rw [List.take_succ_cons, htake, h.2, List.replicate_succ]
      · have := hcap h.1
        omega
    · exact ⟨0, by rw [runFrom, if_neg h, Nat.add_zero], Nat.zero_le _, rfl, id⟩

/-- The packed bytes are a token list for the input consumed so far. Inside a verbatim group
the last token is that group and `hdr` points at its count. -/
structure PackInv (esi edi : UInt32) (done : List UInt8) (s : Pack) (ts : List Token) : Prop where
  i_eq : s.i = esi + UInt32.ofNat done.length
  o_eq : s.o = edi - UInt32.ofNat s.out.length
  out_eq : s.out = encodes ts
  done_eq : done = expands ts
  group : s.vrun < 128 → ∃ ts' bytes h, ts = ts' ++ [.verbatim bytes h] ∧
    bytes.length = s.vrun ∧ s.hdr = (encodes ts').length

/-- Patching the count of a group after one more byte. -/
private theorem set_group (before bytes : List UInt8) (n m c : UInt8) :
    (before ++ n :: bytes ++ [c]).set before.length m = before ++ m :: (bytes ++ [c]) := by
  rw [List.append_assoc, List.set_append_right _ _ le_rfl, Nat.sub_self, List.cons_append,
    List.set_cons_zero]

/-- A verbatim byte opens a group or joins the open one. -/
theorem PackInv.verbatim {esi edi : UInt32} {done : List UInt8} {s : Pack} {ts : List Token}
    (h : PackInv esi edi done s ts) (c : UInt8) :
    ∃ ts', PackInv esi edi (done ++ [c]) (packVerbatim s c) ts' := by
  have hi : s.i + 1 = esi + UInt32.ofNat (done ++ [c]).length := by
    rw [h.i_eq, List.length_append, List.length_singleton, UInt32.ofNat_add]
    grind
  by_cases hv : s.vrun ≥ 128
  · -- a fresh group behind the tokens so far
    have hout : (packVerbatim s c).out = encodes (ts ++ [.verbatim [c] ⟨by simp, by simp⟩]) := by
      have hset := set_group (encodes ts) [] 0 (UInt8.ofNat 1) c
      rw [List.nil_append] at hset
      simp only [packVerbatim, if_pos hv, Pack.push, Nat.zero_add, hset, encodes_append, h.out_eq,
        encodes_cons, encodes_nil, Token.encode, List.append_nil, List.length_singleton]
    refine ⟨_, ⟨?_, ?_, hout, ?_, fun _ => ⟨ts, [c], _, rfl, ?_, ?_⟩⟩⟩
    · simpa only [packVerbatim, if_pos hv, Pack.push] using hi
    · simp only [packVerbatim, if_pos hv, Pack.push, List.length_set, List.length_append,
        List.length_singleton, h.o_eq, UInt32.ofNat_add]
      grind
    · simp [h.done_eq, Token.expand]
    · simp only [packVerbatim, if_pos hv, Pack.push, List.length_singleton]
    · simp only [packVerbatim, if_pos hv, Pack.push, h.out_eq]
  · obtain ⟨ts', bytes, hb, rfl, hlen, hhdr⟩ := h.group (by omega)
    have hb' : 1 ≤ (bytes ++ [c]).length ∧ (bytes ++ [c]).length ≤ 128 := by
      rw [List.length_append, List.length_singleton]
      omega
    have hold : s.out = encodes ts' ++ UInt8.ofNat s.vrun :: bytes := by
      simpa [Token.encode, hlen] using h.out_eq
    have hout : (packVerbatim s c).out = encodes (ts' ++ [.verbatim (bytes ++ [c]) hb']) := by
      have hset := set_group (encodes ts') bytes (UInt8.ofNat s.vrun)
        (UInt8.ofNat (s.vrun + 1)) c
      simp only [packVerbatim, if_neg hv, Pack.push, hhdr, hold, hset, encodes_append,
        encodes_cons, encodes_nil, Token.encode, List.append_nil, List.length_append,
        List.length_singleton, hlen]
    refine ⟨_, ⟨?_, ?_, hout, ?_, fun _ => ⟨ts', bytes ++ [c], hb', rfl, ?_, ?_⟩⟩⟩
    · simpa only [packVerbatim, if_neg hv, Pack.push] using hi
    · simp only [packVerbatim, if_neg hv, Pack.push, List.length_set, List.length_append,
        List.length_singleton, h.o_eq, UInt32.ofNat_add]
      grind
    · simp [h.done_eq, Token.expand]
    · simp only [packVerbatim, if_neg hv, Pack.push, List.length_append, List.length_singleton, hlen]
    · simp only [packVerbatim, if_neg hv, Pack.push, hhdr]

/-- A run becomes one token, in the form its length calls for. -/
theorem PackInv.run {esi edi : UInt32} {done : List UInt8} {s : Pack} {ts : List Token}
    (h : PackInv esi edi done s ts) (c : UInt8) {n : Nat} (h3 : 3 ≤ n) (hn : n < 8192) :
    ∃ ts', PackInv esi edi (done ++ List.replicate n c) (packRun s c n) ts' := by
  have hi : s.i + UInt32.ofNat n = esi + UInt32.ofNat (done ++ List.replicate n c).length := by
    rw [h.i_eq, List.length_append, List.length_replicate, UInt32.ofNat_add]
    grind
  by_cases hshort : n < 224 - 126
  · refine ⟨ts ++ [.short n c ⟨h3, hshort⟩], ⟨?_, ?_, ?_, ?_, fun hv => ?_⟩⟩
    · simpa only [packRun, if_pos hshort, Pack.push] using hi
    · simp only [packRun, if_pos hshort, Pack.push, List.length_append, List.length_singleton,
        h.o_eq, UInt32.ofNat_add]
      grind
    · simp [packRun, hshort, Pack.push, h.out_eq, Token.encode]
    · simp [h.done_eq, Token.expand]
    · simp only [packRun] at hv
      omega
  · have hhi : (n + 224 * 256) / 256 = 224 + n / 256 := by omega
    have hlo : UInt8.ofNat (n + 224 * 256) = UInt8.ofNat n := by
      apply UInt8.toNat_inj.mp
      rw [UInt8.toNat_ofNat', UInt8.toNat_ofNat']
      omega
    refine ⟨ts ++ [.long n c hn], ⟨?_, ?_, ?_, ?_, fun hv => ?_⟩⟩
    · simpa only [packRun, if_neg hshort, Pack.push] using hi
    · simp only [packRun, if_neg hshort, Pack.push, List.length_append, List.length_singleton,
        h.o_eq, UInt32.ofNat_add]
      grind
    · simp only [packRun, if_neg hshort, Pack.push, hhi, hlo, h.out_eq, encodes_append,
        encodes_cons, encodes_nil, Token.encode, List.append_assoc, List.append_nil,
        List.cons_append, List.nil_append]
    · simp [h.done_eq, Token.expand]
    · simp only [packRun] at hv
      omega

/-- The whole loop packs the remaining input behind the tokens so far. -/
theorem packLoop_inv {esi edi : UInt32} (fuel : Nat) {done input : List UInt8} {s : Pack}
    {ts : List Token} (hfuel : input.length ≤ fuel) (h : PackInv esi edi done s ts) :
    ∃ ts', PackInv esi edi (done ++ input) (packLoop fuel input s) ts' := by
  induction fuel generalizing done input s ts with
  | zero =>
    obtain rfl := List.length_eq_zero_iff.mp (Nat.le_zero.mp hfuel)
    exact ⟨ts, by rw [List.append_nil]; exact h⟩
  | succ fuel ih =>
    cases input with
    | nil => exact ⟨ts, by rw [List.append_nil]; exact h⟩
    | cons c rest =>
      have hrest : rest.length ≤ fuel := Nat.le_of_succ_le_succ hfuel
      simp only [packLoop]
      generalize htcnt : (if rest.length + 1 > 8191 then 8191 else rest.length + 1) = tcnt
      obtain ⟨k, hk, hle, htake, hcap⟩ := runFrom_spec c tcnt 1 rest
      have hlow : 1 + k ≤ tcnt := hcap (by split at htcnt <;> omega)
      have hmax : tcnt ≤ 8191 := by split at htcnt <;> omega
      rw [hk]
      by_cases h3 : 1 + k < 3
      · rw [if_pos h3]
        obtain ⟨ts', h'⟩ := h.verbatim c
        obtain ⟨ts'', h''⟩ := ih hrest h'
        exact ⟨ts'', by rwa [List.append_assoc] at h''⟩
      · rw [if_neg h3, Nat.add_sub_cancel_left]
        obtain ⟨ts', h'⟩ := h.run c (show 3 ≤ 1 + k by omega) (by omega)
        have hdrop : (rest.drop k).length ≤ fuel := by
          rw [List.length_drop]
          omega
        obtain ⟨ts'', h''⟩ := ih hdrop h'
        have hsplit : List.replicate (1 + k) c ++ rest.drop k = c :: rest := by
          rw [Nat.add_comm, List.replicate_succ, List.cons_append, ← htake,
            List.take_append_drop]
        exact ⟨ts'', by rwa [List.append_assoc, hsplit] at h''⟩

/-- What `rllpack` leaves: a terminated token list for its input, and pointers that moved by
the number of bytes read and written. -/
theorem rllpack_spec (esi edi : UInt32) (d : List UInt8) :
    ∃ ts, expands ts = d ∧ (rllpack esi edi d).out = encodes ts ++ [0] ∧
      (rllpack esi edi d).i = esi + UInt32.ofNat d.length ∧
      (rllpack esi edi d).o = edi - UInt32.ofNat (rllpack esi edi d).out.length := by
  have h0 : PackInv esi edi [] ⟨esi, edi, [], 0, 2 ^ 32 - 1⟩ [] :=
    ⟨by simp, by simp, rfl, rfl, fun hv => absurd hv (show ¬ 2 ^ 32 - 1 < 128 by decide)⟩
  obtain ⟨ts, h⟩ := packLoop_inv d.length le_rfl h0
  refine ⟨ts, h.done_eq.symm, ?_, h.i_eq, ?_⟩
  · simp only [rllpack, Pack.push, h.out_eq]
  · simp only [rllpack, Pack.push, h.o_eq, List.length_append, List.length_singleton,
      UInt32.ofNat_add]
    grind

/-- Unpacking a terminated token list, with anything below it in memory, stops right behind the
terminator. -/
theorem rllunpack_encodes (ts : List Token) (tail : List UInt8) (edi dst : UInt32) :
    rllunpack edi dst (encodes ts ++ [0] ++ tail) =
      some ⟨edi - UInt32.ofNat (encodes ts ++ [0]).length, UInt32.ofNat (expands ts).length,
        dst + UInt32.ofNat (expands ts).length, expands ts, tail⟩ := by
  have hfuel : ts.length < (encodes ts ++ 0 :: tail).length + 1 := by
    have := length_le_encodes ts
    rw [List.length_append]
    omega
  rw [rllunpack, List.append_assoc, List.singleton_append,
    unpackLoop_encodes ts tail [] edi dst _ hfuel]
  simp only [Option.map_some, List.nil_append, List.length_append, List.length_singleton,
    Option.some.injEq, Unpacked.mk.injEq, and_true, true_and]
  grind

/-- Unpacking what `rllpack` emitted, with anything below it in memory, restores the record,
stops right behind the terminator and returns pointers that agree with both lengths. -/
theorem rllunpack_rllpack (d tail : List UInt8) (esi edi dst : UInt32) (hd : d.length < 2 ^ 32) :
    (rllpack esi edi d).i = esi + UInt32.ofNat d.length ∧
      (rllpack esi edi d).o = edi - UInt32.ofNat (rllpack esi edi d).out.length ∧
      ∃ u, rllunpack edi dst ((rllpack esi edi d).out ++ tail) = some u ∧ u.out = d ∧
        u.rest = tail ∧ u.esi = (rllpack esi edi d).o ∧ u.ecx.toNat = d.length ∧
        u.edi = dst + UInt32.ofNat d.length := by
  obtain ⟨ts, rfl, hout, hi, ho⟩ := rllpack_spec esi edi d
  rw [hout] at ho ⊢
  exact ⟨hi, ho, _, rllunpack_encodes ts tail edi dst, rfl, rfl, ho.symm,
    UInt32.toNat_ofNat_of_lt' hd, rfl⟩

/-- The round trip on a record with a run between two literals. -/
theorem rllunpack_rllpack_run :
    ∃ u, rllunpack 0x100000 0x8000 ((rllpack 0x8000 0x100000 [7, 0, 0, 0, 0, 0, 9]).out ++ []) =
      some u ∧ u.out = [7, 0, 0, 0, 0, 0, 9] ∧ u.edi = 0x8007 := by
  obtain ⟨-, -, u, hu, hout, -, -, -, hedi⟩ :=
    rllunpack_rllpack [7, 0, 0, 0, 0, 0, 9] [] 0x8000 0x100000 0x8000 (by decide)
  exact ⟨u, hu, hout, hedi⟩

end Liigboot.Config
