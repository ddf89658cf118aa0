import Liigboot.Boot.Shuffle
import Mathlib.Algebra.Group.Nat.Defs
import Mathlib.Logic.Function.Iterate

/-!
# Copying in protected mode

`pm_bcopy` of `bcopyxx.inc` copies up or down, or stores zeros, in dwords as far as it can, with
bytes and words in front of them for the alignment and behind them for the rest. The alignment may
be missed; each of the three ways copies every byte once.
-/

namespace Liigboot.Boot

/-! ## The source -/

/-- Memory, and the registers `esi` and `edi`. -/
structure Copier where
  mem : Memory
  esi : UInt32
  edi : UInt32

/-- `movsb`, `movsw` or `movsd`, with the direction flag clear. -/
def Copier.movs (n : UInt32) (c : Copier) : Copier where
  mem := Move.run ⟨c.edi.toNat, c.esi.toNat, n.toNat⟩ c.mem
  esi := c.esi + n
  edi := c.edi + n

/-- The same with the direction flag set. -/
def Copier.movsDown (n : UInt32) (c : Copier) : Copier where
  mem := Move.run ⟨c.edi.toNat, c.esi.toNat, n.toNat⟩ c.mem
  esi := c.esi - n
  edi := c.edi - n

/-- Some zeros at an address. -/
def zeros (a n : Nat) (mem : Memory) : Memory := fun b => if a ≤ b ∧ b < a + n then 0 else mem b

/-- `stosb`, `stosw` or `stosd`, of zeros. -/
def Copier.stos (n : UInt32) (c : Copier) : Copier :=
  { c with mem := zeros c.edi.toNat n.toNat c.mem, edi := c.edi + n }

/-- `inc` and `dec`, `add` and `sub` of both pointers. -/
def Copier.adjust (n : UInt32) (c : Copier) : Copier :=
  { c with esi := c.esi + n, edi := c.edi + n }

/-- The two ways up, which differ in the string instruction. -/
def ascending (op : UInt32 → Copier → Copier) (ecx : UInt32) (c : Copier) : Copier :=
  -- Initial alignment
  let edx := c.edi
  let (c, ecx) := if edx &&& 1 ≠ 0 then (op 1 c, ecx - 1) else (c, ecx)
  let al := ecx.toUInt8
  let tiny (al : UInt8) (c : Copier) := if al &&& 1 ≠ 0 then op 1 c else c
  if ecx < 2 then tiny al c
  else
    let (c, ecx) := if edx >>> 1 &&& 1 ≠ 0 then (op 2 c, ecx - 2) else (c, ecx)
    -- Bulk transfer
    let al := ecx.toUInt8 -- Save low bits
    let c := (op 4)^[(ecx >>> 2).toNat] c
    tiny al (if al &&& 2 ≠ 0 then op 2 c else c)

/-- `.forward`. -/
def forward (ecx : UInt32) (c : Copier) : Copier := ascending Copier.movs ecx c

/-- `.bzero`. -/
def bzero (ecx : UInt32) (c : Copier) : Copier := ascending Copier.stos ecx c

/-- `.reverse`, where the ranges overlap. -/
def reverse (ecx : UInt32) (c : Copier) : Copier :=
  let c := c.adjust (ecx - 1)
  -- Initial alignment
  let edx := c.edi
  let (c, ecx) := if edx &&& 1 = 0 then (c.movsDown 1, ecx - 1) else (c, ecx)
  let c := c.adjust (-1)
  let al := ecx.toUInt8
  let tiny (al : UInt8) (c : Copier) :=
    let c := c.adjust 1
    if al &&& 1 ≠ 0 then c.movsDown 1 else c
  if ecx < 2 then tiny al c
  else
    let (c, ecx) := if edx >>> 1 &&& 1 = 0 then (c.movsDown 2, ecx - 2) else (c, ecx)
    -- Bulk copy
    let c := c.adjust (-2)
    let al := ecx.toUInt8 -- Save low bits
    let c := (Copier.movsDown 4)^[(ecx >>> 2).toNat] c
    -- Final alignment
    let c := c.adjust 2
    tiny al (if al &&& 2 ≠ 0 then c.movsDown 2 else c)

/-- `pm_bcopy` for a descriptor, in registers. -/
def pmBcopyRegs (d : Descriptor) (mem : Memory) : Memory :=
  let c : Copier := ⟨mem, d.src, d.dst⟩
  let ecx := d.len
  if c.esi = 0xFFFFFFFF then (bzero ecx c).mem
  else if c.esi < c.edi then
    -- If source < destination, we might have to copy backwards
    let eax := c.esi + ecx - 1
    if c.edi > eax then (forward ecx c).mem else (reverse ecx c).mem
  else (forward ecx c).mem

/-! ## Bits of the length -/

/-- The lowest bit is the one of an odd number. -/
theorem low_bit (x : UInt32) : x.toUInt8 &&& 1 ≠ 0 ↔ x.toNat % 2 = 1 := by
  have hall : ∀ n < 256, UInt8.ofNat n &&& 1 ≠ 0 ↔ n % 2 = 1 := by decide +kernel
  have hbyte := hall x.toUInt8.toNat x.toUInt8.toNat_lt
  rw [UInt8.ofNat_toNat, UInt32.toNat_toUInt8] at hbyte
  rw [hbyte]
  omega

/-- The bit above it. -/
theorem second_bit (x : UInt32) : x.toUInt8 &&& 2 ≠ 0 ↔ 2 ≤ x.toNat % 4 := by
  have hall : ∀ n < 256, UInt8.ofNat n &&& 2 ≠ 0 ↔ 2 ≤ n % 4 := by decide +kernel
  have hbyte := hall x.toUInt8.toNat x.toUInt8.toNat_lt
  rw [UInt8.ofNat_toNat, UInt32.toNat_toUInt8] at hbyte
  rw [hbyte]
  omega

theorem toNat_dwords (x : UInt32) : (x >>> 2).toNat = x.toNat / 4 := by
  have htwo : (2 : UInt32).toNat % 32 = 2 := rfl
  rw [UInt32.toNat_shiftRight, htwo, Nat.shiftRight_eq_div_pow]

theorem one_le_of_ne_zero {x : UInt32} (h : x ≠ 0) : (1 : UInt32) ≤ x := by
  rw [UInt32.le_iff_toNat_le]
  exact Nat.pos_of_ne_zero fun hzero => h (UInt32.toNat_inj.mp hzero)

/-- A count that is not below two. -/
theorem le_of_not_lt_two {x : UInt32} (h : ¬x < 2) : (2 : UInt32) ≤ x := UInt32.not_lt.mp h

/-- One byte or none is left. -/
theorem count_tiny {ecx : UInt32} {k total : Nat} (htiny : ecx < 2)
    (hk : k + ecx.toNat = total) :
    total = if ecx.toUInt8 &&& 1 ≠ 0 then k + 1 else k := by
  have hlt : ecx.toNat < 2 := UInt32.lt_iff_toNat_lt.mp htiny
  have hlow := low_bit ecx
  split_ifs with hbit
  · have hodd := hlow.mp hbit
    omega
  · have heven := mt hlow.mpr hbit
    omega

/-- What is done behind the dwords and the word. -/
def wordEnd (ecx : UInt32) (k : Nat) : Nat :=
  if ecx.toUInt8 &&& 2 ≠ 0 then k + 4 * (ecx.toNat / 4) + 2 else k + 4 * (ecx.toNat / 4)

/-- What is left behind the words is one byte or none. -/
theorem count_word {ecx : UInt32} {k total : Nat} (hk : k + ecx.toNat = total) :
    wordEnd ecx k + ecx.toNat % 2 = total := by
  have hsecond := second_bit ecx
  rw [wordEnd]
  split_ifs with hbit
  · have htwo := hsecond.mp hbit
    omega
  · have hless := mt hsecond.mpr hbit
    omega

/-- The byte behind the words completes the count. -/
theorem count_byte {ecx : UInt32} {k total : Nat} (hk : k + ecx.toNat = total) :
    total = if ecx.toUInt8 &&& 1 ≠ 0 then wordEnd ecx k + 1 else wordEnd ecx k := by
  have hword := count_word hk
  have hlow := low_bit ecx
  split_ifs with hbit
  · have hodd := hlow.mp hbit
    omega
  · have heven := mt hlow.mpr hbit
    omega

/-! ## Pieces -/

section Pieces

variable {len ecx : UInt32} {op : UInt32 → Copier → Copier} {P : Nat → Copier → Prop} {k : Nat}
  {c : Copier}

/-- A string instruction goes on with a copy of which some bytes are done. -/
def Extends (len : UInt32) (op : UInt32 → Copier → Copier) (P : Nat → Copier → Prop)
    (n : UInt32) : Prop :=
  ∀ k c, k + n.toNat ≤ len.toNat → P k c → P (k + n.toNat) (op n c)

/-- A piece for the alignment, if there is one. -/
theorem Extends.aligned {n : UInt32} (hop : Extends len op P n) (b : Prop) [Decidable b]
    (h : P k c) (hk : k + ecx.toNat = len.toNat) (hle : n ≤ ecx) :
    ∃ k', P k' (if b then (op n c, ecx - n) else (c, ecx)).1 ∧
      k' + (if b then (op n c, ecx - n) else (c, ecx)).2.toNat = len.toNat := by
  have hsub := UInt32.toNat_sub_of_le _ _ hle
  have hle' := UInt32.le_iff_toNat_le.mp hle
  split
  · exact ⟨k + n.toNat, hop k c (by omega) h, by dsimp only; omega⟩
  · exact ⟨k, h, hk⟩

/-- A number of dwords. -/
theorem Extends.bulk (hop : Extends len op P 4) (q : Nat) (h : P k c)
    (hk : k + 4 * q ≤ len.toNat) : P (k + 4 * q) ((op 4)^[q] c) := by
  induction q with
  | zero => exact h
  | succ q ih =>
    rw [Function.iterate_succ_apply']
    exact hop _ _ hk (ih (by omega))

/-- A word or a byte behind the dwords, if there is one. -/
theorem Extends.rest {n : UInt32} (hop : Extends len op P n) {b : Prop} [Decidable b] {m : Nat}
    (h : P k c) (hm : m = if b then k + n.toNat else k) (hk : m ≤ len.toNat) :
    P m (if b then op n c else c) := by
  subst hm
  split_ifs at hk ⊢ with hb
  · exact hop k c hk h
  · exact h

/-- The ways up do every byte. -/
theorem ascending_spec (hone : Extends len op P 1) (htwo : Extends len op P 2)
    (hfour : Extends len op P 4) (hlen : len ≠ 0) (h : P 0 c) :
    P len.toNat (ascending op len c) := by
  have hlen' := one_le_of_ne_zero hlen
  rw [ascending]
  dsimp only
  obtain ⟨k₁, h₁, hk₁⟩ := hone.aligned (c.edi &&& 1 ≠ 0) h (Nat.zero_add _) hlen'
  generalize (if c.edi &&& 1 ≠ 0 then (op 1 c, len - 1) else (c, len)) = s₁ at h₁ hk₁ ⊢
  by_cases htiny : s₁.2 < 2
  · rw [if_pos htiny]
    exact hone.rest h₁ (count_tiny htiny hk₁) le_rfl
  · rw [if_neg htiny, toNat_dwords]
    obtain ⟨k₂, h₂, hk₂⟩ := htwo.aligned (c.edi >>> 1 &&& 1 ≠ 0) h₁ hk₁ (le_of_not_lt_two htiny)
    generalize (if c.edi >>> 1 &&& 1 ≠ 0 then (op 2 s₁.1, s₁.2 - 2) else (s₁.1, s₁.2)) = s₂
      at h₂ hk₂ ⊢
    have hword := count_word hk₂
    have hbulk := hfour.bulk (s₂.2.toNat / 4) h₂ (by omega)
    exact hone.rest (htwo.rest hbulk rfl (show wordEnd s₂.2 k₂ ≤ len.toNat by omega))
      (count_byte hk₂) le_rfl

end Pieces

/-! ## The three ways -/

variable {src dst len : UInt32} {mem : Memory} {k : Nat} {c : Copier}

/-- The address behind some bytes of a range. -/
theorem toNat_add_ofNat {a : UInt32} (h : a.toNat + k < 2 ^ 32) :
    (a + UInt32.ofNat k).toNat = a.toNat + k := by
  rw [UInt32.toNat_add, UInt32.toNat_ofNat_of_lt' (show k < 2 ^ 32 by omega)]
  exact Nat.mod_eq_of_lt h

/-- Pointers go on by what was copied. -/
theorem add_ofNat_add (a n : UInt32) (k : Nat) :
    a + UInt32.ofNat k + n = a + UInt32.ofNat (k + n.toNat) := by
  rw [UInt32.ofNat_add, UInt32.ofNat_toNat, UInt32.add_assoc]

/-- The first bytes are copied. -/
structure MovedUp (src dst : UInt32) (mem : Memory) (k : Nat) (c : Copier) : Prop where
  esi : c.esi = src + UInt32.ofNat k
  edi : c.edi = dst + UInt32.ofNat k
  mem : c.mem = Move.run ⟨dst.toNat, src.toNat, k⟩ mem

/-- An instruction that copies upwards copies one unit more. -/
theorem copiedUp_extends (hsrc : src.toNat + len.toNat ≤ 2 ^ 32)
    (hdst : dst.toNat + len.toNat ≤ 2 ^ 32)
    (hway : dst.toNat ≤ src.toNat ∨ src.toNat + len.toNat ≤ dst.toNat) {n : UInt32}
    (hn : 0 < n.toNat) : Extends len Copier.movs (MovedUp src dst mem) n := by
  intro k c hk h
  have hesi := @toNat_add_ofNat k src (by omega)
  have hedi := @toNat_add_ofNat k dst (by omega)
  refine ⟨?_, ?_, ?_⟩
  · rw [Copier.movs, h.esi, add_ofNat_add]
  · rw [Copier.movs, h.edi, add_ofNat_add]
  · rw [Copier.movs, h.esi, h.edi, h.mem, hesi, hedi, Move.run_up (by omega)]

/-- The copy upwards is that of the bytes, one after the other. -/
theorem forward_spec (hsrc : src.toNat + len.toNat ≤ 2 ^ 32)
    (hdst : dst.toNat + len.toNat ≤ 2 ^ 32) (hlen : len ≠ 0)
    (hway : dst.toNat ≤ src.toNat ∨ src.toNat + len.toNat ≤ dst.toNat) :
    (forward len ⟨mem, src, dst⟩).mem = Move.run ⟨dst.toNat, src.toNat, len.toNat⟩ mem := by
  have hstart : MovedUp src dst mem 0 ⟨mem, src, dst⟩ :=
    ⟨(UInt32.add_zero src).symm, (UInt32.add_zero dst).symm, Move.run_zero.symm⟩
  have hextends {n : UInt32} (hn : 0 < n.toNat) :=
    @copiedUp_extends src dst len mem hsrc hdst hway n hn
  exact (ascending_spec (hextends (by decide)) (hextends (by decide)) (hextends (by decide)) hlen
    hstart).mem

/-- The first bytes are zeros. -/
structure ZeroedUp (dst : UInt32) (mem : Memory) (k : Nat) (c : Copier) : Prop where
  edi : c.edi = dst + UInt32.ofNat k
  mem : c.mem = zeros dst.toNat k mem

/-- Zeros behind zeros. -/
theorem zeros_add (a k n : Nat) (mem : Memory) :
    zeros (a + k) n (zeros a k mem) = zeros a (k + n) mem := by
  funext b
  simp only [zeros]
  by_cases hpiece : a + k ≤ b ∧ b < a + k + n
  · rw [if_pos hpiece, if_pos (by omega)]
  · rw [if_neg hpiece]
    by_cases hbefore : a ≤ b ∧ b < a + k
    · rw [if_pos hbefore, if_pos (by omega)]
    · rw [if_neg hbefore, if_neg (by omega)]

theorem zeros_zero (a : Nat) (mem : Memory) : zeros a 0 mem = mem := by
  funext b
  rw [zeros, if_neg (by omega)]

/-- An instruction that clears clears one unit more. -/
theorem zeroedUp_extends (hdst : dst.toNat + len.toNat ≤ 2 ^ 32) {n : UInt32}
    (hn : 0 < n.toNat) : Extends len Copier.stos (ZeroedUp dst mem) n := by
  intro k c hk h
  have hedi := @toNat_add_ofNat k dst (by omega)
  constructor
  · rw [Copier.stos, h.edi, add_ofNat_add]
  · rw [Copier.stos, h.edi, h.mem, hedi, zeros_add]

/-- The clearing is that of the bytes. -/
theorem bzero_spec (hdst : dst.toNat + len.toNat ≤ 2 ^ 32) (hlen : len ≠ 0) :
    (bzero len ⟨mem, src, dst⟩).mem = zeros dst.toNat len.toNat mem := by
  have hstart : ZeroedUp dst mem 0 ⟨mem, src, dst⟩ :=
    ⟨(UInt32.add_zero dst).symm, (zeros_zero _ _).symm⟩
  have hextends {n : UInt32} (hn : 0 < n.toNat) := @zeroedUp_extends dst len mem hdst n hn
  exact (ascending_spec (hextends (by decide)) (hextends (by decide)) (hextends (by decide)) hlen
    hstart).mem

/-- The last bytes are copied, and the pointers are some bytes in front of the next one. -/
structure MovedDown (src dst len : UInt32) (mem : Memory) (bias k : Nat) (c : Copier) : Prop where
  esi : c.esi + UInt32.ofNat (k + 1 + bias) = src + len
  edi : c.edi + UInt32.ofNat (k + 1 + bias) = dst + len
  mem : c.mem = Move.run
    ⟨dst.toNat + (len.toNat - k), src.toNat + (len.toNat - k), k⟩ mem

/-- The pointers are adjusted to another width. -/
theorem MovedDown.adjust {bias bias' : Nat} (h : MovedDown src dst len mem bias k c)
    (n : UInt32) (hn : n + UInt32.ofNat bias' = UInt32.ofNat bias) :
    MovedDown src dst len mem bias' k (c.adjust n) := by
  have hsum (a : UInt32) : a + n + UInt32.ofNat (k + 1 + bias') =
      a + UInt32.ofNat (k + 1 + bias) := by
    rw [UInt32.ofNat_add, UInt32.ofNat_add (k + 1) bias, ← hn, UInt32.add_assoc, UInt32.add_comm n,
      UInt32.add_assoc, UInt32.add_comm n]
  exact ⟨(hsum _).trans h.esi, (hsum _).trans h.edi, h.mem⟩

/-- The address some bytes in front of the end of a range. -/
theorem toNat_of_add_eq {a b : UInt32} (h : b + UInt32.ofNat k = a + len)
    (hle : a.toNat + len.toNat ≤ 2 ^ 32) (hk : k ≤ len.toNat) (hpos : 0 < k) :
    b.toNat = a.toNat + (len.toNat - k) := by
  have hlen : len = UInt32.ofNat (len.toNat - k) + UInt32.ofNat k := by
    rw [← UInt32.ofNat_add, Nat.sub_add_cancel hk, UInt32.ofNat_toNat]
  rw [hlen, ← UInt32.add_assoc] at h
  rw [(UInt32.add_left_inj _).mp h]
  exact toNat_add_ofNat (by omega)

/-- An instruction that copies downwards copies one unit more. -/
theorem copiedDown_extends (hsrc : src.toNat + len.toNat ≤ 2 ^ 32)
    (hdst : dst.toNat + len.toNat ≤ 2 ^ 32) (hway : src.toNat ≤ dst.toNat) {n : UInt32}
    {bias : Nat} (hn : bias + 1 = n.toNat) :
    Extends len Copier.movsDown (MovedDown src dst len mem bias) n := by
  intro k c hk h
  have hsum : k + 1 + bias = k + n.toNat := by omega
  have hesi := h.esi
  have hedi := h.edi
  rw [hsum] at hesi hedi
  have hesi' := toNat_of_add_eq hesi hsrc hk (by omega)
  have hedi' := toNat_of_add_eq hedi hdst hk (by omega)
  have hback (a : UInt32) : a - n + UInt32.ofNat (k + n.toNat + 1 + bias) =
      a + UInt32.ofNat (k + n.toNat) := by
    have hmore : k + n.toNat + 1 + bias = n.toNat + (k + n.toNat) := by omega
    rw [hmore, UInt32.ofNat_add, UInt32.ofNat_toNat, ← UInt32.add_assoc, UInt32.sub_add_cancel]
  refine ⟨(hback _).trans hesi, (hback _).trans hedi, ?_⟩
  have hat (a : Nat) : a + (len.toNat - k) = a + (len.toNat - (k + n.toNat)) + n.toNat := by omega
  rw [Copier.movsDown, hesi', hedi', h.mem, hat, hat, Move.run_down (by omega),
    Nat.add_comm n.toNat]

/-- The copy downwards is that of the bytes, from the last one on. -/
theorem reverse_spec (hsrc : src.toNat + len.toNat ≤ 2 ^ 32)
    (hdst : dst.toNat + len.toNat ≤ 2 ^ 32) (hlen : len ≠ 0) (hway : src.toNat ≤ dst.toNat) :
    (reverse len ⟨mem, src, dst⟩).mem = Move.run ⟨dst.toNat, src.toNat, len.toNat⟩ mem := by
  have hlen' := one_le_of_ne_zero hlen
  have hback (a : UInt32) : a + (len - 1) + UInt32.ofNat (0 + 1 + 0) = a + len := by
    rw [UInt32.add_assoc]
    exact congrArg (a + ·) (UInt32.sub_add_cancel len 1)
  have hstart : MovedDown src dst len mem 0 0 (Copier.adjust (len - 1) ⟨mem, src, dst⟩) :=
    ⟨hback src, hback dst, Move.run_zero.symm⟩
  have hone := @copiedDown_extends src dst len mem hsrc hdst hway 1 0 rfl
  have htwo := @copiedDown_extends src dst len mem hsrc hdst hway 2 1 rfl
  have hfour := @copiedDown_extends src dst len mem hsrc hdst hway 4 3 rfl
  suffices h : MovedDown src dst len mem 0 len.toNat (reverse len ⟨mem, src, dst⟩) by
    rw [h.mem, Nat.sub_self, Nat.add_zero, Nat.add_zero]
  rw [reverse]
  dsimp only
  generalize Copier.adjust (len - 1) ⟨mem, src, dst⟩ = c at hstart ⊢
  obtain ⟨k₁, h₁, hk₁⟩ := hone.aligned (c.edi &&& 1 = 0) hstart (Nat.zero_add _) hlen'
  generalize (if c.edi &&& 1 = 0 then (c.movsDown 1, len - 1) else (c, len)) = s₁ at h₁ hk₁ ⊢
  have hminus : MovedDown src dst len mem 1 k₁ (s₁.1.adjust (-1)) :=
    h₁.adjust (-1) (by decide)
  by_cases htiny : s₁.2 < 2
  · rw [if_pos htiny]
    exact hone.rest (hminus.adjust 1 (by decide)) (count_tiny htiny hk₁) le_rfl
  · rw [if_neg htiny, toNat_dwords]
    obtain ⟨k₂, h₂, hk₂⟩ := htwo.aligned (c.edi >>> 1 &&& 1 = 0) hminus hk₁
      (le_of_not_lt_two htiny)
    generalize (if c.edi >>> 1 &&& 1 = 0 then ((s₁.1.adjust (-1)).movsDown 2, s₁.2 - 2)
      else (s₁.1.adjust (-1), s₁.2)) = s₂ at h₂ hk₂ ⊢
    have hword := count_word hk₂
    have hbulk := hfour.bulk (s₂.2.toNat / 4) (h₂.adjust (-2) (by decide)) (by omega)
    have hwords := htwo.rest (hbulk.adjust 2 (by decide)) rfl
      (show wordEnd s₂.2 k₂ ≤ len.toNat by omega)
    exact hone.rest (hwords.adjust 1 (by decide)) (count_byte hk₂) le_rfl

/-- In registers, the code does what is said of it. -/
theorem pmBcopyRegs_eq {d : Descriptor} (hlen : d.len ≠ 0)
    (hsrc : d.src = 0xFFFFFFFF ∨ d.src.toNat + d.len.toNat ≤ 2 ^ 32)
    (hdst : d.dst.toNat + d.len.toNat ≤ 2 ^ 32) (mem : Memory) :
    pmBcopyRegs d mem = pmBcopy d mem := by
  rw [pmBcopyRegs, pmBcopy]
  dsimp only
  by_cases hzero : d.src = 0xFFFFFFFF
  · rw [if_pos hzero, if_pos hzero, bzero_spec hdst hlen]
    rfl
  have hsrc' := hsrc.resolve_left hzero
  have hpos : 0 < d.len.toNat := Nat.pos_of_ne_zero fun h => hlen (UInt32.toNat_inj.mp h)
  have heax : (d.src + d.len - 1).toNat = d.src.toNat + d.len.toNat - 1 := by
    have hsub : d.src + d.len - 1 = d.src + (d.len - 1) := by
      rw [UInt32.sub_eq_add_neg, UInt32.add_assoc, ← UInt32.sub_eq_add_neg]
    have hone : (1 : UInt32).toNat = 1 := rfl
    rw [hsub, UInt32.toNat_add, UInt32.toNat_sub_of_le _ _ (one_le_of_ne_zero hlen), hone]
    omega
  rw [if_neg hzero, if_neg hzero, Descriptor.move]
  by_cases hbelow : d.src < d.dst
  · have hbelow' := UInt32.lt_iff_toNat_lt.mp hbelow
    rw [if_pos hbelow]
    by_cases hbehind : d.dst > d.src + d.len - 1
    · have hbehind' := UInt32.lt_iff_toNat_lt.mp hbehind
      rw [heax] at hbehind'
      rw [if_pos hbehind, forward_spec hsrc' hdst hlen (by omega)]
    · rw [if_neg hbehind, reverse_spec hsrc' hdst hlen hbelow'.le]
  · rw [if_neg hbelow,
      forward_spec hsrc' hdst hlen (Or.inl (UInt32.le_iff_toNat_le.mp (UInt32.not_lt.mp hbelow)))]

/-- `pm_bcopy` leaves in the target what was in the source, or zeros when the source is -1, and
everything else as it was. -/
theorem pm_bcopy_memmove (d : Descriptor) (hlen : d.len ≠ 0)
    (hsrc : d.src = 0xFFFFFFFF ∨ d.src.toNat + d.len.toNat ≤ 2 ^ 32)
    (hdst : d.dst.toNat + d.len.toNat ≤ 2 ^ 32) (mem : Memory) :
    (∀ i < d.len.toNat, pmBcopyRegs d mem (d.dst.toNat + i) =
        if d.src = 0xFFFFFFFF then 0 else mem (d.src.toNat + i)) ∧
      ∀ a, a < d.dst.toNat ∨ d.dst.toNat + d.len.toNat ≤ a → pmBcopyRegs d mem a = mem a := by
  rw [pmBcopyRegs_eq hlen hsrc hdst, pmBcopy]
  by_cases hzero : d.src = 0xFFFFFFFF
  · rw [if_pos hzero]
    refine ⟨fun i hi => ?_, fun a ha => if_neg (by omega)⟩
    rw [if_pos (by omega), if_pos hzero]
  · rw [if_neg hzero]
    refine ⟨fun i hi => ?_, fun a ha => ?_⟩
    · rw [if_neg hzero]
      exact Move.run_dst hi
    · rw [Descriptor.move, Move.run, if_neg (by dsimp only; omega)]

/-- Nine bytes moved up by three, from an odd address. -/
theorem pm_bcopy_memmove_sample :
    (∀ i < 9, pmBcopyRegs ⟨0x10004, 0x10001, 9⟩ (fun a => UInt8.ofNat a) (0x10004 + i) =
        if (0x10001 : UInt32) = 0xFFFFFFFF then 0 else UInt8.ofNat (0x10001 + i)) ∧
      ∀ a, a < 0x10004 ∨ 0x10004 + 9 ≤ a →
        pmBcopyRegs ⟨0x10004, 0x10001, 9⟩ (fun a => UInt8.ofNat a) a = UInt8.ofNat a :=
  pm_bcopy_memmove ⟨0x10004, 0x10001, 9⟩ (by decide) (Or.inr (by decide)) (by decide)
    fun a => UInt8.ofNat a

end Liigboot.Boot
