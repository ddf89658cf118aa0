import Mathlib.Data.List.Basic
import Mathlib.Tactic.Common

/-!
# Reading a number

`parseint` reads a number from some memory, which is the list of its bytes from the current place
on. There is no result when it reads a byte that is not there. Behind a number it backs up to the
byte that ended it; when there is no number, that byte has been read and is left behind.
-/

namespace Liigboot.Boot

/-! ## The source -/

/-- `unhexchar`. -/
def unhexchar (al : UInt8) : Option UInt8 :=
  if al < 0x30 then none
  else if al ≤ 0x39 then some (al - 0x30)
  else
    -- upper case to lower case
    let al := al ||| 0x20
    if al < 0x61 then none
    else if 0x66 < al then none
    else some (al - (0x61 - 10))

/-- `parseint` from `.km` on: a suffix, or the last byte that was read is backed up to. -/
def parseSuffix (ebx : UInt32) : List UInt8 → Option (UInt32 × List UInt8)
  | [] => none
  | c :: raw =>
    let al := c ||| 0x20
    if al = 0x6B then some (ebx <<< 10, raw)
    else if al = 0x6D then some (ebx <<< 10 <<< 10, raw)
    else if al = 0x67 then some (ebx <<< 10 <<< 10 <<< 10, raw)
    else some (ebx, c :: raw)

/-- `parseint` from `.foundbase` on. The first byte is the one in AL. -/
def parseDigits (base : UInt8) (ebx : UInt32) : List UInt8 → Option (UInt32 × List UInt8)
  | [] => none
  | al :: raw =>
    match unhexchar al with
    | none => parseSuffix ebx (al :: raw)
    | some digit =>
      if base ≤ digit then parseSuffix ebx (al :: raw)
      else parseDigits base (ebx * base.toUInt32 + digit.toUInt32) raw

/-- `parseint` from `.octhex` on. -/
def parseOcthex : List UInt8 → Option (Option UInt32 × List UInt8)
  | [] => none
  | c :: raw =>
    if c < 0x30 then (parseSuffix 0 (c :: raw)).map fun (ebx, raw) => (some ebx, raw)
    else
      let al := c ||| 0x20
      -- a hexadecimal number goes on as if a zero had been read
      if al = 0x78 then (parseDigits 16 0 (0x30 :: raw)).map fun (ebx, raw) => (some ebx, raw)
      else if 0x37 < al then some (none, raw)
      else (parseDigits 8 0 (c :: raw)).map fun (ebx, raw) => (some ebx, raw)

/-- `parseint`: the number, or none for an error, and the memory behind what was read. -/
def parseint (negative : Bool) : List UInt8 → Option (Option UInt32 × List UInt8)
  | [] => none
  | c :: raw =>
    let sign := fun ebx : UInt32 => if negative then -ebx else ebx
    if c = 0x2D then parseint (!negative) raw
    else if c < 0x30 then some (none, raw)
    else if c = 0x30 then (parseOcthex raw).map fun (ebx, raw) => (ebx.map sign, raw)
    else if 0x39 < c then some (none, raw)
    else (parseDigits 10 0 (c :: raw)).map fun (ebx, raw) => (some (sign ebx), raw)

/-! ## The bytes that are read -/

/-- What is left of a word: an end of it, and all that is behind it. -/
def LeavesWord (word : List UInt8) (e : UInt8) (tail rest : List UInt8) : Prop :=
  ∃ word', word' <:+ word ∧ rest = word' ++ e :: tail

variable {word tail : List UInt8} {e c : UInt8} {base : UInt8}

theorem LeavesWord.cons {rest : List UInt8} (h : LeavesWord word e tail rest) :
    LeavesWord (c :: word) e tail rest := by
  obtain ⟨word', hsuffix, rfl⟩ := h
  exact ⟨word', hsuffix.trans (List.suffix_cons c word), rfl⟩

/-- A byte that ends a word is not a letter. -/
theorem or_space_le (he : e ≤ 0x20) : e ||| 0x20 ≤ 0x3F := by
  have hle : e.toNat ≤ 32 := UInt8.le_iff_toNat_le.mp he
  rw [UInt8.le_iff_toNat_le, UInt8.toNat_or]
  have hlt : e.toNat ||| (0x20 : UInt8).toNat < 2 ^ 6 := Nat.or_lt_two_pow (by omega) (by decide)
  exact Nat.le_of_lt_succ hlt

theorem unhexchar_end (he : e ≤ 0x20) : unhexchar e = none := by
  rw [unhexchar, if_pos (by grind)]

/-- A suffix is part of the word. -/
theorem parseSuffix_word (he : e ≤ 0x20) (ebx : UInt32) (word : List UInt8) :
    ∃ value rest, parseSuffix ebx (word ++ e :: tail) = some (value, rest) ∧
      LeavesWord word e tail rest := by
  cases word with
  | nil =>
    have hor := or_space_le he
    rw [List.nil_append, parseSuffix, if_neg (by grind), if_neg (by grind), if_neg (by grind)]
    exact ⟨ebx, e :: tail, rfl, [], List.suffix_rfl, rfl⟩
  | cons c word =>
    rw [List.cons_append, parseSuffix]
    split_ifs
    · exact ⟨_, _, rfl, word, List.suffix_cons c word, rfl⟩
    · exact ⟨_, _, rfl, word, List.suffix_cons c word, rfl⟩
    · exact ⟨_, _, rfl, word, List.suffix_cons c word, rfl⟩
    · exact ⟨_, _, rfl, c :: word, List.suffix_rfl, rfl⟩

theorem parseDigits_word (he : e ≤ 0x20) (ebx : UInt32) (word : List UInt8) :
    ∃ value rest, parseDigits base ebx (word ++ e :: tail) = some (value, rest) ∧
      LeavesWord word e tail rest := by
  induction word generalizing ebx with
  | nil =>
    rw [List.nil_append, parseDigits, unhexchar_end he]
    exact parseSuffix_word he ebx []
  | cons c word ih =>
    rw [List.cons_append, parseDigits]
    rcases unhexchar c with _ | digit
    · exact parseSuffix_word he ebx (c :: word)
    · dsimp only
      split_ifs
      · exact parseSuffix_word he ebx (c :: word)
      · obtain ⟨value, rest, hparse, hleaves⟩ := ih (ebx * base.toUInt32 + digit.toUInt32)
        exact ⟨value, rest, hparse, hleaves.cons⟩

theorem parseOcthex_word (he : e ≤ 0x20) (word : List UInt8) :
    ∃ ebx rest, parseOcthex (word ++ e :: tail) = some (ebx, rest) ∧
      LeavesWord word e tail rest := by
  cases word with
  | nil =>
    obtain ⟨value, rest, hparse, hleaves⟩ := @parseSuffix_word tail e he 0 []
    rw [List.nil_append] at hparse ⊢
    rw [parseOcthex, if_pos (by grind), hparse]
    exact ⟨some value, rest, rfl, hleaves⟩
  | cons c word =>
    rw [List.cons_append, parseOcthex]
    dsimp only
    split_ifs
    · obtain ⟨value, rest, hparse, hleaves⟩ := @parseSuffix_word tail e he 0 (c :: word)
      rw [List.cons_append] at hparse
      rw [hparse]
      exact ⟨some value, rest, rfl, hleaves⟩
    · obtain ⟨value, rest, hparse, hleaves⟩ := @parseDigits_word tail e 16 he 0 word
      have hzero : parseDigits 16 0 (0x30 :: (word ++ e :: tail)) =
          parseDigits 16 0 (word ++ e :: tail) := rfl
      rw [hzero, hparse]
      exact ⟨some value, rest, rfl, hleaves.cons⟩
    · exact ⟨none, _, rfl, word, List.suffix_cons c word, rfl⟩
    · obtain ⟨value, rest, hparse, hleaves⟩ := @parseDigits_word tail e 8 he 0 (c :: word)
      rw [List.cons_append] at hparse
      rw [hparse]
      exact ⟨some value, rest, rfl, hleaves⟩

/-- The rest of a word of an option is read as a number. Only a rest of minus signs is left behind
together with the byte that ends the word. -/
theorem parseint_word (he : e ≤ 0x20) (negative : Bool) (word : List UInt8) :
    ∃ ebx rest, parseint negative (word ++ e :: tail) = some (ebx, rest) ∧
      ((∀ c ∈ word, c = 0x2D) ∧ ebx = none ∧ rest = tail ∨
        (¬∀ c ∈ word, c = 0x2D) ∧ LeavesWord word e tail rest) := by
  induction word generalizing negative with
  | nil =>
    rw [List.nil_append, parseint]
    dsimp only
    rw [if_neg (by grind), if_pos (by grind)]
    exact ⟨none, tail, rfl, Or.inl ⟨fun _ hc => (nomatch hc), rfl, rfl⟩⟩
  | cons c word ih =>
    rw [List.cons_append, parseint]
    dsimp only
    by_cases hminus : c = 0x2D
    · rw [if_pos hminus]
      obtain ⟨ebx, rest, hparse, hcase⟩ := ih !negative
      refine ⟨ebx, rest, hparse, ?_⟩
      rw [List.forall_mem_cons]
      rcases hcase with ⟨hall, hcase⟩ | ⟨hnot, hleaves⟩
      · exact Or.inl ⟨⟨hminus, hall⟩, hcase⟩
      · exact Or.inr ⟨fun h => hnot h.2, hleaves.cons⟩
    · rw [if_neg hminus]
      have hnot : ¬∀ b ∈ c :: word, b = 0x2D := fun h => hminus (h c List.mem_cons_self)
      by_cases hlow : c < 0x30
      · rw [if_pos hlow]
        exact ⟨_, _, rfl, Or.inr ⟨hnot, word, List.suffix_cons c word, rfl⟩⟩
      · rw [if_neg hlow]
        by_cases hzero : c = 0x30
        · obtain ⟨ebx, rest, hparse, hleaves⟩ := @parseOcthex_word tail e he word
          rw [if_pos hzero, hparse]
          exact ⟨_, rest, rfl, Or.inr ⟨hnot, hleaves.cons⟩⟩
        · rw [if_neg hzero]
          by_cases hhigh : 0x39 < c
          · rw [if_pos hhigh]
            exact ⟨_, _, rfl, Or.inr ⟨hnot, word, List.suffix_cons c word, rfl⟩⟩
          · obtain ⟨value, rest, hparse, hleaves⟩ := @parseDigits_word tail e 10 he 0 (c :: word)
            rw [List.cons_append] at hparse
            rw [if_neg hhigh, hparse]
            exact ⟨_, rest, rfl, Or.inr ⟨hnot, hleaves⟩⟩

end Liigboot.Boot
