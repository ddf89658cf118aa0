import Mathlib.Algebra.Group.Int.Defs
import Mathlib.Algebra.Group.Nat.Defs
import Mathlib.Data.List.Basic
import Mathlib.Order.Nat
import Mathlib.Tactic.Common

/-!
# Byte strings read and written at offsets

A buffer is a list, indexed from zero. `slice` reads a window of it, `blit` stores
a window into it and `overlay` is the same store on a file, which grows when
the window reaches past its end. Every law is stated pointwise, through `[i]?`,
so that two windows are compared by index arithmetic alone.
-/

namespace Liigboot

variable {α : Type*}

/-- The `len` entries from offset `off`, fewer when the buffer ends before. -/
def slice (xs : List α) (off len : Nat) : List α := (xs.drop off).take len

@[simp] theorem length_slice (xs : List α) (off len : Nat) :
    (slice xs off len).length = min len (xs.length - off) := by
  simp only [slice, List.length_take, List.length_drop]

/-- The entries of a slice. -/
theorem getElem?_slice (xs : List α) (off len i : Nat) :
    (slice xs off len)[i]? = if i < len then xs[off + i]? else none := by
  simp only [slice, List.getElem?_take, List.getElem?_drop]

/-- Store `ys` at offset `off`, as `memcpy` into the middle of a buffer does. -/
def blit (xs : List α) (off : Nat) (ys : List α) : List α :=
  xs.take off ++ ys ++ xs.drop (off + ys.length)

theorem length_blit {xs ys : List α} {off : Nat} (h : off + ys.length ≤ xs.length) :
    (blit xs off ys).length = xs.length := by
  simp only [blit, List.length_append, List.length_take, List.length_drop]
  omega

/-- Inside the stored window the buffer reads the new bytes, outside it the old ones. -/
theorem getElem?_blit {xs ys : List α} {off : Nat} (h : off ≤ xs.length) (i : Nat) :
    (blit xs off ys)[i]? =
      if i < off then xs[i]? else if i < off + ys.length then ys[i - off]? else xs[i]? := by
  have htake : (xs.take off).length = off := by rw [List.length_take]; omega
  by_cases hi : i < off
  · rw [if_pos hi, blit, List.append_assoc, List.getElem?_append_left (by omega),
      List.getElem?_take, if_pos hi]
  · rw [if_neg hi, blit, List.append_assoc, List.getElem?_append_right (by omega), htake]
    by_cases hy : i < off + ys.length
    · rw [if_pos hy, List.getElem?_append_left (by omega)]
    · rw [if_neg hy, List.getElem?_append_right (by omega), List.getElem?_drop]
      congr 1
      omega

/-- The entries in front. -/
theorem getElem?_blit_of_lt {xs ys : List α} {off i : Nat} (h : off ≤ xs.length) (hi : i < off) :
    (blit xs off ys)[i]? = xs[i]? := by
  rw [getElem?_blit h, if_pos hi]

/-- The entries behind. -/
theorem getElem?_blit_of_ge {xs ys : List α} {off i : Nat} (h : off ≤ xs.length)
    (hi : off + ys.length ≤ i) : (blit xs off ys)[i]? = xs[i]? := by
  rw [getElem?_blit h, if_neg (by omega), if_neg (by omega)]

/-- The entries that are written. -/
theorem getElem?_blit_of_mem {xs ys : List α} {off i : Nat} (h : off ≤ xs.length)
    (hlo : off ≤ i) (hhi : i < off + ys.length) : (blit xs off ys)[i]? = ys[i - off]? := by
  rw [getElem?_blit h, if_neg (by omega), if_pos hhi]

/-- Store `ys` at offset `off` of a file. A file shorter than `off` is first filled
with `fill` up to it, as a sparse write does. -/
def overlay (fill : α) (xs : List α) (off : Nat) (ys : List α) : List α :=
  blit (xs ++ List.replicate (off - xs.length) fill) off ys

/-- A store that starts inside the file or at its end needs no filling. -/
theorem getElem?_overlay (fill : α) {xs : List α} (ys : List α) {off : Nat}
    (h : off ≤ xs.length) (i : Nat) :
    (overlay fill xs off ys)[i]? =
      if i < off then xs[i]? else if i < off + ys.length then ys[i - off]? else xs[i]? := by
  have hz : off - xs.length = 0 := by omega
  rw [overlay, hz, List.replicate_zero, List.append_nil, getElem?_blit h]

theorem length_overlay {fill : α} {xs ys : List α} {off : Nat} (h : off ≤ xs.length) :
    (overlay fill xs off ys).length = max xs.length (off + ys.length) := by
  have hz : off - xs.length = 0 := by omega
  rw [overlay, hz, List.replicate_zero, List.append_nil, blit]
  simp only [List.length_append, List.length_take, List.length_drop]
  omega

/-! ## Little-endian numbers -/

/-- The number a little-endian byte string spells. -/
def leNat : List UInt8 → Nat
  | [] => 0
  | b :: bs => b.toNat + 256 * leNat bs

/-- The `len`-byte little-endian number at offset `off`. -/
def readLe (xs : List UInt8) (off len : Nat) : Nat := leNat (slice xs off len)

/-- A number of some bytes is bounded. -/
theorem leNat_lt (bs : List UInt8) : leNat bs < 256 ^ bs.length := by
  induction bs with
  | nil => simp [leNat]
  | cons b bs ih =>
    have hb := b.toNat_lt
    simp only [leNat, List.length_cons, Nat.pow_succ]
    omega

/-- So is one that is read. -/
theorem readLe_lt (xs : List UInt8) (off len : Nat) : readLe xs off len < 256 ^ len :=
  Nat.lt_of_lt_of_le (leNat_lt _)
    (Nat.pow_le_pow_right (by decide) (by rw [length_slice]; exact Nat.min_le_left _ _))

/-- The `len` bytes of a number, the low one first. -/
def leBytes (n len : Nat) : List UInt8 := (List.range len).map fun i => UInt8.ofNat (n / 256 ^ i)

@[simp] theorem length_leBytes (n len : Nat) : (leBytes n len).length = len := by
  simp only [leBytes, List.length_map, List.length_range]

/-- The bytes of a number spell it, as far as there are enough of them. -/
theorem leNat_leBytes (n len : Nat) : leNat (leBytes n len) = n % 256 ^ len := by
  induction len generalizing n with
  | zero => rw [Nat.pow_zero, Nat.mod_one]; rfl
  | succ len ih =>
    have hcons : leBytes n (len + 1) = UInt8.ofNat n :: leBytes (n / 256) len := by
      simp only [leBytes, List.range_succ_eq_map, List.map_cons, List.map_map, Nat.pow_zero,
        Nat.div_one, List.cons.injEq, true_and]
      refine List.map_congr_left fun i _ => ?_
      simp only [Function.comp_apply, Nat.pow_succ', Nat.div_div_eq_div_mul]
    rw [hcons, leNat, ih, Nat.pow_succ', Nat.mod_mul, UInt8.toNat_ofNat']

/-- A buffer holds some bytes at an offset. -/
def HoldsAt (xs : List α) (off : Nat) (ys : List α) : Prop :=
  ∀ i c, ys[i]? = some c → xs[off + i]? = some c

/-- The first of two parts is at the place. -/
theorem HoldsAt.left {xs ys zs : List α} {off : Nat} (h : HoldsAt xs off (ys ++ zs)) :
    HoldsAt xs off ys := by
  intro i c hc
  have hi := (List.getElem?_eq_some_iff.mp hc).1
  exact h i c ((List.getElem?_append_left hi).trans hc)

/-- The second is behind it. -/
theorem HoldsAt.right {xs ys zs : List α} {off : Nat} (h : HoldsAt xs off (ys ++ zs)) :
    HoldsAt xs (off + ys.length) zs := by
  intro i c hc
  rw [Nat.add_assoc]
  refine h (ys.length + i) c ?_
  rw [List.getElem?_append_right (Nat.le_add_right _ _), Nat.add_sub_cancel_left]
  exact hc

/-- A part of a part. -/
theorem HoldsAt.trans {xs ys zs : List α} {off off' : Nat} (h : HoldsAt xs off ys)
    (h' : HoldsAt ys off' zs) : HoldsAt xs (off + off') zs := by
  intro i c hc
  rw [Nat.add_assoc]
  exact h (off' + i) c (h' i c hc)

/-- What a buffer holds spells the same numbers there. -/
theorem HoldsAt.readLe {xs ys : List UInt8} {at' : Nat} (h : HoldsAt xs at' ys) {off len : Nat}
    (hlen : off + len ≤ ys.length) : readLe xs (at' + off) len = readLe ys off len := by
  have hs : slice xs (at' + off) len = slice ys off len := by
    apply List.ext_getElem?
    intro i
    rw [getElem?_slice, getElem?_slice]
    by_cases hi : i < len
    · rw [if_pos hi, if_pos hi, Nat.add_assoc,
        h (off + i) _ (List.getElem?_eq_getElem (by omega)), List.getElem?_eq_getElem]
    · rw [if_neg hi, if_neg hi]
  rw [Liigboot.readLe, Liigboot.readLe, hs]

/-- The signed number a little-endian byte string spells, in two's complement. -/
def leInt (bs : List UInt8) : Int :=
  if bs.getLastD 0 < 0x80 then leNat bs else leNat bs - 256 ^ bs.length

/-- Two buffers that agree on a window spell the same number there. -/
theorem readLe_congr (xs ys : List UInt8) {off len : Nat}
    (h : ∀ i, i < len → xs[off + i]? = ys[off + i]?) : readLe xs off len = readLe ys off len := by
  have hs : slice xs off len = slice ys off len := by
    apply List.ext_getElem?
    intro i
    rw [getElem?_slice, getElem?_slice]
    by_cases hi : i < len
    · simp only [hi, if_true, h i hi]
    · simp only [hi, if_false]
  rw [readLe, readLe, hs]

end Liigboot
