import Mathlib.Data.List.Chain
import Mathlib.Data.List.TakeWhile
import Liigboot.Lib.Bytes

/-!
# Mangled names

`mangle_name` copies a file name up to the first whitespace, leaves out redundant slashes and pads
the buffer with zeros. The generic version and the one for FAT are two copies of one loop. Here a
run of them yields the bytes that are stored from `dst` on.
-/

namespace Liigboot.Fs

/-! ## The model -/

def filenameMax : Nat := 256

/-- `not_whitespace`. -/
def notWhitespace (c : UInt8) : Bool := 0x20 < c

def slash : UInt8 := 0x2f

def backslash : UInt8 := 0x5c

/-- The copy loop, with the bytes stored so far and `i`. The end of the list is the terminating
null of the string. -/
def mangleCopy (isSep : UInt8 → Bool) : List UInt8 → List UInt8 → Int → List UInt8 × Int
  | [], out, i => (out, i)
  | c :: src, out, i =>
    if notWhitespace c then
      if isSep c && src.head?.any isSep then mangleCopy isSep src out (i - 1)
      else mangleCopy isSep src (out ++ [c]) (i - 1)
    else (out, i)

/-- The loop that steps back over trailing slashes, with the position of `dst`. -/
def mangleBack (out : List UInt8) : Nat → Int → Nat × Int
  | 0, i => (0, i)
  | d + 1, i =>
    if out.getD d 0 ≠ slash then (d + 1, i)
    else if d = 0 then (d + 1, i)
    else mangleBack out d (i + 1)

/-- `*dst = c` -/
def storeByte (out : List UInt8) (d : Nat) (c : UInt8) : List UInt8 :=
  if d < out.length then out.set d c else out ++ [c]

/-- The loop that pads. -/
def manglePad : Nat → List UInt8 → Nat → List UInt8
  | 0, out, _ => out
  | n + 1, out, d => manglePad n (storeByte out d 0) (d + 1)

/-- Both functions: they differ in the characters that they take for a separator. -/
def mangleWith (isSep : UInt8 → Bool) (src : List UInt8) : List UInt8 :=
  let (out, i) := mangleCopy isSep src [] (filenameMax - 1)
  let (d, i) := mangleBack out out.length i
  manglePad (i + 1).toNat out d

/-- `generic_mangle_name`. -/
def genericMangleName (src : List UInt8) : List UInt8 := mangleWith (· = slash) src

/-- `c == '/'` in `vfat_mangle_name`, where a backslash has been converted. -/
def isVfatSep (c : UInt8) : Bool := c = slash || c = backslash

/-- `vfat_mangle_name`. A backslash is converted in the variable `c` only: the character that is
stored is `*src`. -/
def vfatMangleName (src : List UInt8) : List UInt8 := mangleWith isVfatSep src

/-! ## The copy -/

variable {isSep : UInt8 → Bool} {src out w : List UInt8}

/-- The part of a string that is a name. -/
def wordOf (src : List UInt8) : List UInt8 := src.takeWhile notWhitespace

/-- A name without its redundant separators: the last one of each run is left. -/
def collapse (isSep : UInt8 → Bool) : List UInt8 → List UInt8
  | [] => []
  | c :: w => if isSep c && w.head?.any isSep then collapse isSep w else c :: collapse isSep w

/-- A separator is no whitespace, so the character behind it is looked at in the name only. -/
theorem head_wordOf (hsep : ∀ c, isSep c = true → notWhitespace c = true) :
    (wordOf src).head?.any isSep = src.head?.any isSep := by
  cases src with
  | nil => rfl
  | cons c src =>
    rw [wordOf, List.takeWhile_cons]
    cases hc : notWhitespace c with
    | true => rfl
    | false =>
      have hno : isSep c = false := by
        by_contra hyes
        rw [hsep c (by simpa using hyes)] at hc
        cases hc
      exact hno.symm

/-- The copy has the word without doubled separators, and the counter has gone down by its
length. -/
theorem mangleCopy_eq (hsep : ∀ c, isSep c = true → notWhitespace c = true) (i : Int) :
    mangleCopy isSep src out i =
      (out ++ collapse isSep (wordOf src), i - (wordOf src).length) := by
  induction src generalizing out i with
  | nil =>
    rw [mangleCopy, wordOf, List.takeWhile_nil, collapse, List.append_nil, List.length_nil]
    simp
  | cons c src ih =>
    rw [mangleCopy]
    by_cases hc : notWhitespace c = true
    · have hword : wordOf (c :: src) = c :: wordOf src := by
        rw [wordOf, List.takeWhile_cons, if_pos hc]
        rfl
      have hlen : i - 1 - ((wordOf src).length : Int) = i - ((c :: wordOf src).length : Int) := by
        rw [List.length_cons]
        omega
      rw [if_pos hc, hword, collapse, head_wordOf hsep]
      split_ifs
      · rw [ih, hlen]
      · rw [ih, hlen, List.append_assoc, List.singleton_append]
    · have hword : wordOf (c :: src) = [] := by rw [wordOf, List.takeWhile_cons, if_neg hc]
      rw [if_neg hc, hword, collapse, List.append_nil, List.length_nil]
      simp

/-- No two separators follow each other. -/
def NoDouble (isSep : UInt8 → Bool) (w : List UInt8) : Prop :=
  w.IsChain fun a b => ¬(isSep a = true ∧ isSep b = true)

/-- A word without doubled separators begins as the word does. -/
theorem collapse_head (w : List UInt8) : (collapse isSep w).head?.any isSep = w.head?.any isSep := by
  induction w with
  | nil => rfl
  | cons c w ih =>
    rw [collapse]
    split_ifs with h
    · obtain ⟨hc, hw⟩ := Bool.and_eq_true_iff.mp h
      rw [ih, hw, List.head?_cons, Option.any_some, hc]
    · rfl

/-- A first character and the word behind it. -/
theorem noDouble_cons {c : UInt8} :
    NoDouble isSep (c :: w) ↔ (isSep c && w.head?.any isSep) = false ∧ NoDouble isSep w := by
  rw [NoDouble, NoDouble]
  cases w with
  | nil => simp
  | cons d w => simp [List.isChain_cons_cons]

/-- No doubled separator is left. -/
theorem noDouble_collapse (w : List UInt8) : NoDouble isSep (collapse isSep w) := by
  induction w with
  | nil => exact .nil
  | cons c w ih =>
    rw [collapse]
    split_ifs with h
    · exact ih
    · rw [noDouble_cons, collapse_head]
      exact ⟨by simpa using h, ih⟩

/-- What is left out shortens the name. -/
theorem length_collapse_le (w : List UInt8) : (collapse isSep w).length ≤ w.length := by
  induction w with
  | nil => exact Nat.le_refl _
  | cons c w ih =>
    rw [collapse]
    split_ifs
    · exact ih.trans (Nat.le_succ _)
    · exact Nat.succ_le_succ ih

theorem collapse_eq_self (h : NoDouble isSep w) : collapse isSep w = w := by
  induction w with
  | nil => rfl
  | cons c w ih =>
    obtain ⟨hc, hw⟩ := noDouble_cons.mp h
    rw [collapse, hc, if_neg Bool.false_ne_true, ih hw]

/-- A name that is copied whole has no redundant separator. -/
theorem noDouble_iff : NoDouble isSep w ↔ (collapse isSep w).length = w.length := by
  constructor
  · exact fun h => congrArg List.length (collapse_eq_self h)
  · intro h
    induction w with
    | nil => exact .nil
    | cons c w ih =>
      rw [collapse] at h
      have hle : (collapse isSep w).length ≤ w.length := length_collapse_le w
      split_ifs at h with hc
      · rw [List.length_cons] at h
        omega
      · rw [List.length_cons, List.length_cons] at h
        exact noDouble_cons.mpr ⟨by simpa using hc, ih (Nat.succ.inj h)⟩

/-! ## The trailing slash -/

/-- A name without its trailing slash, unless it is that slash alone. -/
def trimSlash (w : List UInt8) : List UInt8 :=
  if 1 < w.length ∧ w.getLast? = some slash then w.dropLast else w

/-- The step back, in a name in which no two slashes follow each other. -/
theorem mangleBack_eq (h : NoDouble (· = slash) out) (i : Int) :
    mangleBack out out.length i =
      ((trimSlash out).length, i + (out.length - (trimSlash out).length)) := by
  obtain rfl | ⟨xs, c, rfl⟩ := List.eq_nil_or_concat out
  · simp [mangleBack, trimSlash]
  · have hlast : (xs ++ [c]).getD xs.length 0 = c := by simp
    rw [List.concat_eq_append, List.length_append, List.length_singleton, mangleBack, hlast]
    by_cases hc : c = slash
    · subst hc
      rw [if_neg (not_not.mpr rfl)]
      obtain rfl | ⟨ys, b, rfl⟩ := List.eq_nil_or_concat xs
      · simp [trimSlash]
      · -- the character in front is no slash
        have hb : b ≠ slash := by
          rw [List.concat_eq_append, List.concat_eq_append, List.append_assoc,
            List.singleton_append, NoDouble, List.isChain_append_cons_cons] at h
          simpa using h.2.1
        have hprev : (ys.concat b ++ [slash]).getD ys.length 0 = b := by simp
        have htrim : trimSlash (ys.concat b ++ [slash]) = ys.concat b := by
          rw [trimSlash, if_pos]
          · rw [List.dropLast_concat]
          · simp
        rw [htrim, List.length_concat, if_neg (Nat.succ_ne_zero _), mangleBack, hprev, if_pos hb]
        congr 1
        omega
    · have htrim : trimSlash (xs ++ [c]) = xs ++ [c] := by
        rw [trimSlash, if_neg]
        simpa using fun _ => hc
      rw [if_pos hc, htrim, List.length_append, List.length_singleton]
      simp

/-- Only the end of a word is cut. -/
theorem take_trimSlash (w : List UInt8) : w.take (trimSlash w).length = trimSlash w := by
  rw [trimSlash]
  split_ifs
  · rw [List.length_dropLast, ← List.dropLast_eq_take]
  · exact List.take_length

/-- At most one character is trimmed. -/
theorem length_trimSlash (w : List UInt8) :
    (trimSlash w).length ≤ w.length ∧ w.length ≤ (trimSlash w).length + 1 := by
  rw [trimSlash]
  split_ifs
  · rw [List.length_dropLast]
    omega
  · omega

/-- What is left was in the word. -/
theorem mem_of_mem_trimSlash {c : UInt8} (h : c ∈ trimSlash w) : c ∈ w := by
  rw [← take_trimSlash] at h
  exact List.mem_of_mem_take h

/-! ## What is stored -/

/-- The padding puts zeros behind the name. -/
theorem manglePad_eq {n d : Nat} (h : d ≤ out.length) :
    manglePad n out d = out.take d ++ List.replicate n 0 ++ out.drop (d + n) := by
  induction n generalizing out d with
  | zero =>
    rw [manglePad, List.replicate_zero, List.append_nil, Nat.add_zero, List.take_append_drop]
  | succ n ih =>
    have hstore : storeByte out d 0 = out.take d ++ 0 :: out.drop (d + 1) := by
      rw [storeByte]
      split_ifs with hd
      · exact List.set_eq_take_append_cons_drop.trans (if_pos hd)
      · have hend : d = out.length := by omega
        rw [hend, List.take_length, List.drop_of_length_le (Nat.le_succ _)]
    have hlen : (out.take d).length = d := by
      rw [List.length_take]
      omega
    have htake : (out.take d ++ 0 :: out.drop (d + 1)).take (d + 1) = out.take d ++ [0] := by
      rw [List.take_append, hlen, List.take_of_length_le (by omega), Nat.add_sub_cancel_left]
      rfl
    have hdrop : (out.take d ++ 0 :: out.drop (d + 1)).drop (d + 1 + n) =
        out.drop (d + (n + 1)) := by
      rw [List.drop_append, hlen, List.drop_of_length_le (by omega), List.nil_append,
        show d + 1 + n - d = n + 1 by omega, List.drop_succ_cons, List.drop_drop]
      congr 1
      omega
    have hle : d + 1 ≤ (storeByte out d 0).length := by
      rw [hstore, List.length_append, hlen, List.length_cons]
      omega
    rw [manglePad, ih hle, hstore, htake, hdrop, List.replicate_succ]
    simp

/-- What both functions store: the name without redundant slashes, and zeros in the room that `i`
has counted. Where there is no room the trailing slash stays. -/
theorem mangleWith_eq (hsep : ∀ c, isSep c = true → notWhitespace c = true)
    (hslash : isSep slash = true) (src : List UInt8) :
    mangleWith isSep src =
      trimSlash (collapse isSep (wordOf src)) ++
        List.replicate (filenameMax + ((collapse isSep (wordOf src)).length -
          (trimSlash (collapse isSep (wordOf src))).length) - (wordOf src).length) 0 ++
        (collapse isSep (wordOf src)).drop
          ((trimSlash (collapse isSep (wordOf src))).length +
            (filenameMax + ((collapse isSep (wordOf src)).length -
              (trimSlash (collapse isSep (wordOf src))).length) - (wordOf src).length)) := by
  have hdouble : NoDouble (· = slash) (collapse isSep (wordOf src)) := by
    have hchain : NoDouble isSep (collapse isSep (wordOf src)) := noDouble_collapse (wordOf src)
    refine hchain.imp fun a b h hab => h ?_
    obtain ⟨ha, hb⟩ := hab
    rw [of_decide_eq_true ha, of_decide_eq_true hb]
    exact ⟨hslash, hslash⟩
  obtain ⟨hle, -⟩ := length_trimSlash (collapse isSep (wordOf src))
  have hroom : ((filenameMax : Int) - 1 - (wordOf src).length +
      ((collapse isSep (wordOf src)).length - (trimSlash (collapse isSep (wordOf src))).length) +
        1).toNat = filenameMax + ((collapse isSep (wordOf src)).length -
          (trimSlash (collapse isSep (wordOf src))).length) - (wordOf src).length := by
    omega
  rw [mangleWith, mangleCopy_eq hsep, List.nil_append]
  dsimp only
  rw [mangleBack_eq hdouble]
  dsimp only
  rw [hroom, manglePad_eq hle, take_trimSlash]

/-- A name that fits is followed by zeros. -/
theorem mangleWith_fits (hsep : ∀ c, isSep c = true → notWhitespace c = true)
    (hslash : isSep slash = true)
    (h : (wordOf src).length < filenameMax + ((collapse isSep (wordOf src)).length -
      (trimSlash (collapse isSep (wordOf src))).length)) :
    mangleWith isSep src = trimSlash (collapse isSep (wordOf src)) ++
      List.replicate (filenameMax + ((collapse isSep (wordOf src)).length -
        (trimSlash (collapse isSep (wordOf src))).length) - (wordOf src).length) 0 := by
  obtain ⟨-, hle⟩ := length_trimSlash (collapse isSep (wordOf src))
  rw [mangleWith_eq hsep hslash, List.drop_of_length_le (by omega), List.append_nil]

theorem length_mangleWith_le (hsep : ∀ c, isSep c = true → notWhitespace c = true)
    (hslash : isSep slash = true) (h : (wordOf src).length < filenameMax) :
    (mangleWith isSep src).length ≤ filenameMax := by
  have hcollapse : (collapse isSep (wordOf src)).length ≤ (wordOf src).length :=
    length_collapse_le (wordOf src)
  obtain ⟨htrim, -⟩ := length_trimSlash (collapse isSep (wordOf src))
  rw [mangleWith_fits hsep hslash (by omega), List.length_append, List.length_replicate]
  omega

/-- A name that does not fit is stored without an end, and its trailing slash stays. -/
theorem mangleWith_long (hsep : ∀ c, isSep c = true → notWhitespace c = true)
    (hslash : isSep slash = true)
    (h : filenameMax + ((collapse isSep (wordOf src)).length -
      (trimSlash (collapse isSep (wordOf src))).length) ≤ (wordOf src).length) :
    mangleWith isSep src = collapse isSep (wordOf src) := by
  rw [mangleWith_eq hsep hslash, Nat.sub_eq_zero_of_le h, List.replicate_zero, List.append_nil,
    Nat.add_zero]
  nth_rewrite 1 [← take_trimSlash]
  exact List.take_append_drop _ _

/-- A word has no whitespace. -/
theorem mem_wordOf {c : UInt8} (h : c ∈ wordOf src) : notWhitespace c = true :=
  List.mem_takeWhile_imp h

/-- What is left without the doubled separators was in the word. -/
theorem mem_of_mem_collapse {c : UInt8} (h : c ∈ collapse isSep w) : c ∈ w := by
  induction w with
  | nil => exact h
  | cons d w ih =>
    rw [collapse] at h
    split_ifs at h
    · exact List.mem_cons_of_mem d (ih h)
    · obtain rfl | h := List.mem_cons.mp h
      · exact List.mem_cons_self
      · exact List.mem_cons_of_mem d (ih h)

/-! ## The generic version -/

/-- A slash is no whitespace. -/
theorem slash_sep : ∀ c : UInt8, decide (c = slash) = true → notWhitespace c = true := by
  intro c hc
  rw [of_decide_eq_true hc]
  rfl

/-- A buffer that holds a mangled name: the rest of it is zero. -/
structure Mangled (buf name : List UInt8) : Prop where
  padded : buf = name ++ List.replicate (filenameMax - name.length) 0
  short : name.length < filenameMax
  chars : ∀ c ∈ name, notWhitespace c = true
  noDouble : NoDouble (· = slash) name
  trailing : name.getLast? = some slash → name = [slash]

/-- Cutting the end makes no doubled separators. -/
theorem noDouble_trimSlash (h : NoDouble isSep w) : NoDouble isSep (trimSlash w) := by
  rw [← take_trimSlash]
  exact List.IsChain.take h _

/-- Without doubled slashes no slash is left at the end, unless it is alone. -/
theorem trimSlash_trailing (h : NoDouble (· = slash) w)
    (hlast : (trimSlash w).getLast? = some slash) : trimSlash w = [slash] := by
  obtain rfl | ⟨xs, c, rfl⟩ := List.eq_nil_or_concat w
  · simp [trimSlash] at hlast
  · rw [trimSlash] at hlast ⊢
    split_ifs at hlast ⊢ with htrim
    · -- two slashes would follow each other
      rw [List.concat_eq_append, List.dropLast_concat] at hlast
      obtain rfl | ⟨ys, b, rfl⟩ := List.eq_nil_or_concat xs
      · cases hlast
      · rw [List.concat_eq_append, List.concat_eq_append, List.append_assoc,
          List.singleton_append, NoDouble, List.isChain_append_cons_cons] at h
        simp_all
    · have hlen : ¬1 < (xs.concat c).length := fun hlen => htrim ⟨hlen, hlast⟩
      rw [List.length_concat] at hlen
      have hnil : xs = [] := List.eq_nil_of_length_eq_zero (by omega)
      subst hnil
      simpa using hlast

theorem trimSlash_eq_self (h : w.getLast? = some slash → w = [slash]) : trimSlash w = w := by
  rw [trimSlash, if_neg]
  rintro ⟨hlen, hlast⟩
  rw [h hlast] at hlen
  exact absurd hlen (by decide)

/-- A mangled name is mangled to itself. -/
theorem Mangled.again {buf name : List UInt8} (h : Mangled buf name) :
    genericMangleName buf = buf := by
  have hword : wordOf buf = name := by
    obtain ⟨n, hn⟩ : ∃ n, filenameMax - name.length = n + 1 :=
      Nat.exists_eq_add_one.mpr (Nat.sub_pos_of_lt h.short)
    rw [h.padded, hn, List.replicate_succ, wordOf, List.takeWhile_append_of_pos h.chars,
      List.takeWhile_cons, if_neg (by decide), List.append_nil]
  have htrim := trimSlash_eq_self h.trailing
  have hshort := h.short
  rw [genericMangleName, mangleWith_fits slash_sep (decide_eq_true rfl)]
  · rw [hword, collapse_eq_self h.noDouble, htrim, Nat.sub_self, Nat.add_zero]
    exact h.padded.symm
  · rw [hword]
    omega

/-- The whole buffer is stored, with a mangled name, exactly for a name without doubled slashes that
has fewer than 256 characters without its trailing slash. -/
theorem generic_mangle_name_iff (src : List UInt8) :
    ((genericMangleName src).length = filenameMax ∧
        (∃ name, Mangled (genericMangleName src) name) ∧
        genericMangleName (genericMangleName src) = genericMangleName src) ↔
      NoDouble (· = slash) (wordOf src) ∧ (trimSlash (wordOf src)).length < filenameMax := by
  have hslash : decide (slash = slash) = true := decide_eq_true rfl
  obtain ⟨hle, -⟩ := length_trimSlash (collapse (· = slash) (wordOf src))
  constructor
  · rintro ⟨hlen, ⟨name, hname⟩, -⟩
    by_cases hfits : (wordOf src).length < filenameMax +
      ((collapse (· = slash) (wordOf src)).length -
        (trimSlash (collapse (· = slash) (wordOf src))).length)
    · rw [genericMangleName, mangleWith_fits slash_sep hslash hfits, List.length_append,
        List.length_replicate] at hlen
      have hle' : (collapse (· = slash) (wordOf src)).length ≤ (wordOf src).length :=
        length_collapse_le _
      have hdouble : NoDouble (· = slash) (wordOf src) := noDouble_iff.mpr (by omega)
      rw [collapse_eq_self hdouble] at hfits hlen hle
      exact ⟨hdouble, by omega⟩
    · -- a null character would be part of the name
      have hpad := hname.padded
      have hshort := hname.short
      rw [genericMangleName, mangleWith_long slash_sep hslash (Nat.le_of_not_lt hfits)] at hpad
      have hzero : (0 : UInt8) ∈ collapse (· = slash) (wordOf src) := by
        rw [hpad, List.mem_append, List.mem_replicate]
        exact Or.inr ⟨by omega, rfl⟩
      exact absurd (mem_wordOf (mem_of_mem_collapse hzero)) (by decide)
  · rintro ⟨hdouble, hshort⟩
    have hcollapse := collapse_eq_self hdouble
    rw [hcollapse] at hle
    have hbuf : genericMangleName src = trimSlash (wordOf src) ++
        List.replicate (filenameMax - (trimSlash (wordOf src)).length) 0 := by
      rw [genericMangleName, mangleWith_fits slash_sep hslash]
      · rw [hcollapse]
        congr 2
        omega
      · rw [hcollapse]
        omega
    have hname : Mangled (genericMangleName src) (trimSlash (wordOf src)) :=
      ⟨hbuf, hshort, fun c hc => mem_wordOf (mem_of_mem_trimSlash hc), noDouble_trimSlash hdouble,
        trimSlash_trailing hdouble⟩
    refine ⟨?_, ⟨_, hname⟩, hname.again⟩
    rw [hbuf, List.length_append, List.length_replicate]
    omega

/-- A doubled slash is counted although it is not stored: the last byte of the buffer is left. -/
theorem generic_mangle_name_double : ¬∀ src : List UInt8,
    (genericMangleName src).length = filenameMax ∧
      (∃ name, Mangled (genericMangleName src) name) ∧
      genericMangleName (genericMangleName src) = genericMangleName src := by
  intro h
  have hlen := (h [0x61, slash, slash, 0x62]).1
  exact absurd hlen (by decide +kernel)

/-! ## The version for FAT -/

/-- A backslash converted to a slash. -/
def unBackslash (c : UInt8) : UInt8 := if c = backslash then slash else c

/-- The separators of a FAT volume are no whitespace. -/
theorem vfatSep_sep (c : UInt8) (hc : isVfatSep c = true) : notWhitespace c = true := by
  rw [isVfatSep, Bool.or_eq_true, decide_eq_true_eq, decide_eq_true_eq] at hc
  obtain rfl | rfl := hc <;> rfl

/-- A separator is what becomes a slash. -/
theorem unBackslash_sep (c : UInt8) : decide (unBackslash c = slash) = isVfatSep c := by
  rw [unBackslash, isVfatSep]
  split_ifs with hc
  · rw [hc]
    rfl
  · simp [hc]

/-- Turning a backslash makes and removes no whitespace. -/
theorem notWhitespace_unBackslash (c : UInt8) : notWhitespace (unBackslash c) = notWhitespace c := by
  rw [unBackslash]
  split_ifs with hc
  · rw [hc]
    rfl
  · rfl

/-- The word ends at the same place. -/
theorem wordOf_unBackslash (src : List UInt8) :
    wordOf (src.map unBackslash) = (wordOf src).map unBackslash := by
  rw [wordOf, wordOf, List.takeWhile_map]
  congr 2
  funext c
  exact notWhitespace_unBackslash c

/-- Both versions leave out the same characters. -/
theorem collapse_unBackslash (w : List UInt8) :
    collapse (· = slash) (w.map unBackslash) = (collapse isVfatSep w).map unBackslash := by
  induction w with
  | nil => rfl
  | cons c w ih =>
    have hhead : (w.map unBackslash).head?.any (fun d => decide (d = slash)) =
        w.head?.any isVfatSep := by
      cases w with
      | nil => rfl
      | cons d w => exact unBackslash_sep d
    rw [List.map_cons, collapse, collapse, hhead, unBackslash_sep]
    split_ifs
    · exact ih
    · rw [ih, List.map_cons]

/-- A backslash is copied when no separator follows it. -/
theorem backslash_mem_collapse :
    backslash ∈ collapse isVfatSep w ↔
      ∃ pre rest, w = pre ++ backslash :: rest ∧ rest.head?.any isVfatSep = false := by
  induction w with
  | nil =>
    refine ⟨fun h => absurd h List.not_mem_nil, ?_⟩
    rintro ⟨pre, rest, hw, -⟩
    exact absurd hw.symm (by simp)
  | cons c w ih =>
    have hcons : (∃ pre rest, c :: w = pre ++ backslash :: rest ∧
        rest.head?.any isVfatSep = false) ↔
        (c = backslash ∧ w.head?.any isVfatSep = false) ∨ backslash ∈ collapse isVfatSep w := by
      rw [ih]
      constructor
      · rintro ⟨pre, rest, hw, hrest⟩
        cases pre with
        | nil =>
          obtain ⟨rfl, rfl⟩ := List.cons.inj hw
          exact Or.inl ⟨rfl, hrest⟩
        | cons d pre =>
          obtain ⟨rfl, rfl⟩ := List.cons.inj hw
          exact Or.inr ⟨pre, rest, rfl, hrest⟩
      · rintro (⟨rfl, hrest⟩ | ⟨pre, rest, rfl, hrest⟩)
        · exact ⟨[], w, rfl, hrest⟩
        · exact ⟨c :: pre, rest, rfl, hrest⟩
    rw [hcons, collapse]
    split_ifs with h
    · obtain ⟨-, hw⟩ := Bool.and_eq_true_iff.mp h
      rw [hw]
      simp
    · rw [List.mem_cons]
      refine or_congr ⟨fun hc => ⟨hc.symm, ?_⟩, fun hc => hc.1.symm⟩ Iff.rfl
      rw [← hc] at h
      simpa [isVfatSep] using h

/-- What is stored of a name that is no slash. -/
theorem mem_mangleWith (hsep : ∀ c, isSep c = true → notWhitespace c = true)
    (hslash : isSep slash = true) {c : UInt8} (hc : c ≠ slash) (hzero : c ≠ 0) :
    c ∈ mangleWith isSep src ↔ c ∈ collapse isSep (wordOf src) := by
  have htrim : c ∈ trimSlash (collapse isSep (wordOf src)) ↔ c ∈ collapse isSep (wordOf src) := by
    refine ⟨mem_of_mem_trimSlash, fun hmem => ?_⟩
    rw [trimSlash]
    split_ifs with h
    · have hlast := List.dropLast_append_getLast? slash h.2
      rw [← hlast, List.mem_append, List.mem_singleton] at hmem
      exact hmem.resolve_right hc
    · exact hmem
  by_cases hfits : (wordOf src).length < filenameMax + ((collapse isSep (wordOf src)).length -
      (trimSlash (collapse isSep (wordOf src))).length)
  · rw [mangleWith_fits hsep hslash hfits, List.mem_append, htrim, List.mem_replicate]
    exact or_iff_left fun h => hzero h.2
  · rw [mangleWith_long hsep hslash (Nat.le_of_not_lt hfits)]

/-- The FAT version stores what the generic one stores of the converted name exactly when each
backslash of the name is followed by another separator, so that none is copied. -/
theorem vfat_mangle_name_iff (src : List UInt8) :
    (vfatMangleName src = genericMangleName (src.map unBackslash) ∧
        backslash ∉ vfatMangleName src) ↔
      ∀ pre rest, wordOf src = pre ++ backslash :: rest → rest.head?.any isVfatSep = true := by
  have hmem : backslash ∈ vfatMangleName src ↔ backslash ∈ collapse isVfatSep (wordOf src) :=
    mem_mangleWith vfatSep_sep rfl (by decide) (by decide)
  have hnone : backslash ∉ collapse isVfatSep (wordOf src) ↔
      ∀ pre rest, wordOf src = pre ++ backslash :: rest → rest.head?.any isVfatSep = true := by
    rw [backslash_mem_collapse]
    push Not
    simp only [Bool.not_eq_false]
  rw [← hnone, ← hmem]
  refine ⟨fun h => h.2, fun h => ⟨?_, h⟩⟩
  rw [hmem] at h
  have hcollapse : collapse (· = slash) (wordOf (src.map unBackslash)) =
      collapse isVfatSep (wordOf src) := by
    rw [wordOf_unBackslash, collapse_unBackslash]
    refine (List.map_congr_left fun c hc => ?_).trans (List.map_id _)
    rw [unBackslash, if_neg]
    · rfl
    · rintro rfl
      exact h hc
  have hlen : (wordOf (src.map unBackslash)).length = (wordOf src).length := by
    rw [wordOf_unBackslash, List.length_map]
  have hvfat := mangleWith_eq vfatSep_sep rfl src
  have hgeneric := mangleWith_eq slash_sep (decide_eq_true rfl) (src.map unBackslash)
  rw [hcollapse, hlen] at hgeneric
  exact hvfat.trans hgeneric.symm

/-- A backslash between two letters is stored as it is. -/
theorem vfat_mangle_name_backslash : ¬∀ src : List UInt8,
    vfatMangleName src = genericMangleName (src.map unBackslash) ∧
      backslash ∉ vfatMangleName src := by
  intro h
  exact (h [0x61, backslash, 0x62]).2 (by decide +kernel)

end Liigboot.Fs
