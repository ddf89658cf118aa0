import Liigboot.Lib.StringOps
import Mathlib.Algebra.Group.Nat.Defs

/-!
# Writing with a 16-bit pointer

A routine that stores through `di` moves on with each byte, and wraps at the end of the segment.
What it stores from some base on is told by two numbers: how far everything was written, and behind
which byte nothing was. It stays in a buffer exactly when the buffer has room for the bytes.
-/

namespace Liigboot

/-- `di`, and what was stored so far. -/
structure Writer where
  di : UInt16
  stores : List (Nat × UInt8)

/-- A writer that has stored nothing. -/
def Writer.at (base : UInt16) : Writer := ⟨base, []⟩

/-- A store at an address. -/
def Writer.store (w : Writer) (a : UInt16) (b : UInt8) : Writer :=
  { w with stores := w.stores ++ [(a.toNat, b)] }

/-- `stosb`. -/
def Writer.stosb (w : Writer) (al : UInt8) : Writer := { w.store w.di al with di := w.di + 1 }

/-- `rep movsb`, with the bytes at `si`, or `rep stosb`. -/
def Writer.movsb (w : Writer) (bs : List UInt8) : Writer := bs.foldl Writer.stosb w

/-- `strcpy`, with the bytes from `si` on. -/
def Writer.strcpy (w : Writer) : List UInt8 → Option Writer
  | [] => none
  | al :: raw => if al = 0 then some (w.stosb al) else (w.stosb al).strcpy raw

/-- A text with a NUL behind it. -/
structure CText where
  text : List UInt8
  ne_zero : ∀ b ∈ text, b ≠ 0

def CText.empty : CText := ⟨[], List.forall_mem_nil _⟩

/-- The bytes of the text and its NUL. -/
def CText.raw (s : CText) : List UInt8 := s.text ++ [0]

/-- A C text takes its characters and the NUL. -/
theorem CText.length_raw (s : CText) : s.raw.length = s.text.length + 1 := by
  rw [CText.raw, List.length_append, List.length_singleton]

/-- A text without zeros is copied with its NUL. -/
theorem Writer.strcpy_raw (w : Writer) (s : CText) : w.strcpy s.raw = some (w.movsb s.raw) := by
  obtain ⟨text, hne⟩ := s
  dsimp only [CText.raw]
  induction text generalizing w with
  | nil => exact if_pos rfl
  | cons b text ih =>
    rw [List.forall_mem_cons] at hne
    rw [List.cons_append, strcpy, if_neg hne.1]
    exact ih (w.stosb b) hne.2

/-- The address some bytes behind a base. -/
def behind (base : UInt16) (k : Nat) : UInt16 := base + UInt16.ofNat k

/-- All stores are at addresses of a buffer. -/
def Inside (lo hi : Nat) (stores : List (Nat × UInt8)) : Prop :=
  ∀ x ∈ stores, lo ≤ x.1 ∧ x.1 < hi

/-- The first `n` bytes from a base on were written, and none from the byte `m` on. -/
structure Written (base : UInt16) (w : Writer) (n m : Nat) : Prop where
  di : w.di = behind base n
  dense : ∀ k < n, ∃ x ∈ w.stores, x.1 = (behind base k).toNat
  below : ∀ x ∈ w.stores, ∃ k < m, x.1 = (behind base k).toNat

variable {base : UInt16} {w : Writer} {n m lo hi : Nat}

/-- One further place behind a base is the next address. -/
theorem behind_succ (base : UInt16) (k : Nat) : behind base (k + 1) = behind base k + 1 := by
  rw [behind, behind, UInt16.ofNat_add, UInt16.add_assoc]
  rfl

theorem toNat_behind (base : UInt16) (k : Nat) :
    (behind base k).toNat = (base.toNat + k) % 2 ^ 16 := by
  rw [behind, UInt16.toNat_add, UInt16.toNat_ofNat', Nat.add_mod_mod]

theorem toNat_behind_of_lt {k : Nat} (h : base.toNat + k < 2 ^ 16) :
    (behind base k).toNat = base.toNat + k := by
  rw [toNat_behind, Nat.mod_eq_of_lt h]

/-- The stores of both parts are inside if those of each are. -/
theorem inside_append {xs ys : List (Nat × UInt8)} :
    Inside lo hi (xs ++ ys) ↔ Inside lo hi xs ∧ Inside lo hi ys := List.forall_mem_append

/-- Values stored one behind the other are inside exactly when there is room for them. -/
theorem inside_storesAt_iff {a : Nat} {bs : List UInt8} (hlo : lo ≤ a) (hhi : a ≤ hi) :
    Inside lo hi (storesAt a bs) ↔ a + bs.length ≤ hi := by
  induction bs generalizing a with
  | nil => exact iff_of_true (List.forall_mem_nil _) hhi
  | cons b bs ih =>
    rw [storesAt, Inside, List.forall_mem_cons, List.length_cons]
    constructor
    · rintro ⟨⟨-, hlt⟩, hrest⟩
      have hlen := (ih (by omega) hlt).mp hrest
      omega
    · intro hlen
      exact ⟨⟨hlo, by omega⟩, (ih (by omega) (by omega)).mpr (by omega)⟩

/-! ## How far it is written -/

/-- A writer that starts at the base has written nothing. -/
theorem Written.at (base : UInt16) : Written base (Writer.at base) 0 0 where
  di := (UInt16.add_zero base).symm
  dense k hk := absurd hk (Nat.not_lt_zero k)
  below _ hx := absurd hx List.not_mem_nil

/-- A store at any place behind the base leaves the pointer where it is. -/
theorem Written.store (h : Written base w n m) (k : Nat) (b : UInt8) :
    Written base (w.store (behind base k) b) n (max m (k + 1)) := by
  refine ⟨h.di, fun i hi => ?_, fun x hx => ?_⟩
  · obtain ⟨x, hx, haddr⟩ := h.dense i hi
    exact ⟨x, List.mem_append_left _ hx, haddr⟩
  · rcases List.mem_append.mp hx with hx | hx
    · obtain ⟨i, hi, haddr⟩ := h.below x hx
      exact ⟨i, Nat.lt_of_lt_of_le hi (Nat.le_max_left _ _), haddr⟩
    · rw [List.mem_singleton.mp hx]
      exact ⟨k, Nat.le_max_right _ _, rfl⟩

/-- `stosb` goes on by one place. -/
theorem Written.stosb (h : Written base w n m) (b : UInt8) :
    Written base (w.stosb b) (n + 1) (max m (n + 1)) := by
  have hstore := h.store n b
  rw [← h.di] at hstore
  refine ⟨?_, fun i hi => ?_, hstore.below⟩
  · rw [Writer.stosb, h.di, ← behind_succ]
  · by_cases hlast : i = n
    · refine ⟨(w.di.toNat, b), List.mem_append_right _ (List.mem_singleton.mpr rfl), ?_⟩
      rw [hlast, ← h.di]
    · exact hstore.dense i (by omega)

/-- `rep movsb` goes on by the length of what it copies. -/
theorem Written.movsb (h : Written base w n m) (bs : List UInt8) (hm : n ≤ m) :
    Written base (w.movsb bs) (n + bs.length) (max m (n + bs.length)) := by
  induction bs generalizing w n m with
  | nil =>
    rw [List.length_nil, Nat.add_zero, Nat.max_eq_left hm]
    exact h
  | cons b bs ih =>
    have hrest := ih (h.stosb b) (Nat.le_max_right _ _)
    have hlen : n + 1 + bs.length = n + (b :: bs).length := by rw [List.length_cons]; omega
    rw [hlen, Nat.max_assoc, Nat.max_eq_right (show n + 1 ≤ n + (b :: bs).length by omega)]
      at hrest
    exact hrest

/-- What one move writes. -/
theorem Written.movsb_at (base : UInt16) (bs : List UInt8) :
    Written base ((Writer.at base).movsb bs) bs.length bs.length := by
  have h := (Written.at base).movsb bs (Nat.le_refl 0)
  rw [Nat.zero_add, Nat.zero_max] at h
  exact h

/-- Everything is written into a buffer exactly when there is room for it. -/
theorem Written.inside_iff (h : Written base w n n) (hlo : lo ≤ base.toNat)
    (hbase : base.toNat ≤ hi) (hhi : hi ≤ 2 ^ 16) (hwrap : hi < 2 ^ 16 ∨ 0 < lo) :
    Inside lo hi w.stores ↔ base.toNat + n ≤ hi := by
  constructor
  · intro hin
    by_contra hlong
    -- the first byte that has no room goes behind the buffer, or wraps
    obtain ⟨x, hx, haddr⟩ := h.dense (hi - base.toNat) (by omega)
    have hinside := hin x hx
    rw [haddr, toNat_behind, Nat.add_sub_cancel' hbase] at hinside
    omega
  · intro hle x hx
    obtain ⟨k, hk, haddr⟩ := h.below x hx
    rw [haddr, toNat_behind_of_lt (by omega)]
    omega

/-! ## What is written -/

/-- `di` is behind a text, and the segment has the text if it has room for it. -/
structure Built (seg : Nat → UInt8) (base : UInt16) (w : Writer) (text : List UInt8) : Prop where
  di : w.di = behind base text.length
  holds : base.toNat + text.length ≤ 2 ^ 16 → Holds (putAll seg w.stores) base.toNat text

variable {seg : Nat → UInt8} {text : List UInt8}

/-- A writer that starts at the base has built the empty text. -/
theorem Built.at (seg : Nat → UInt8) (base : UInt16) : Built seg base (Writer.at base) [] :=
  ⟨(UInt16.add_zero base).symm, fun _ => holds_nil _ _⟩

/-- `stosb` appends its byte to the text. -/
theorem Built.stosb (h : Built seg base w text) (b : UInt8) :
    Built seg base (w.stosb b) (text ++ [b]) := by
  constructor
  · rw [Writer.stosb, h.di, List.length_append, List.length_singleton, behind_succ]
  · intro hle
    rw [List.length_append, List.length_singleton] at hle
    have hstores : (w.stosb b).stores = w.stores ++ [(base.toNat + text.length, b)] := by
      rw [← toNat_behind_of_lt (by omega), ← h.di]
      rfl
    rw [hstores, putAll_append, holds_append, holds_cons]
    refine ⟨(h.holds (by omega)).congr fun c _ hc => put_of_ne _ hc.ne, put_self _ _, ?_⟩
    exact holds_nil _ _

/-- A store behind the text leaves it alone, also where it wraps. -/
theorem Built.store_end (h : Built seg base w text) (hpos : 0 < base.toNat) (b : UInt8) :
    Built seg base (w.store w.di b) text := by
  refine ⟨h.di, fun hle => ?_⟩
  rw [Writer.store, putAll_append]
  refine (h.holds hle).congr fun c hc hlt => put_of_ne _ ?_
  rw [h.di, toNat_behind]
  omega

/-- A store in place of the last byte. -/
theorem Built.store_last {a : UInt8} (h : Built seg base w (text ++ [a])) (b : UInt8) :
    Built seg base (w.store (w.di - 1) b) (text ++ [b]) := by
  refine ⟨?_, fun hle => ?_⟩
  · rw [Writer.store, h.di, List.length_append, List.length_append]
    rfl
  · have hold := h.holds (by rw [List.length_append] at hle ⊢; exact hle)
    rw [List.length_append, List.length_singleton] at hle
    have hdi : w.di - 1 = behind base text.length := by
      rw [h.di, List.length_append, List.length_singleton, behind_succ, UInt16.add_sub_cancel]
    rw [hdi, Writer.store, toNat_behind_of_lt (by omega), putAll_append, holds_append, holds_cons]
    refine ⟨(holds_append.mp hold).1.congr fun c _ hc => put_of_ne _ hc.ne, put_self _ _, ?_⟩
    exact holds_nil _ _

/-- `rep movsb` appends what it copies to the text. -/
theorem Built.movsb (h : Built seg base w text) (bs : List UInt8) :
    Built seg base (w.movsb bs) (text ++ bs) := by
  induction bs generalizing w text with
  | nil =>
    rw [List.append_nil]
    exact h
  | cons b bs ih =>
    have hrest := ih (h.stosb b)
    rw [List.append_assoc] at hrest
    exact hrest

/-- The stores of a writer on a buffer. -/
theorem Built.blit {bs : List UInt8}
    (h : Built seg base w text) (hw : Written base w text.length text.length)
    (hbs : Holds seg 0 bs) (hle : base.toNat + text.length ≤ bs.length)
    (hlt : bs.length < 2 ^ 16) : Holds (putAll seg w.stores) 0 (blit bs base.toNat text) := by
  have hin := (hw.inside_iff le_rfl (Nat.le_add_right _ text.length) (by omega)
    (Or.inl (by omega))).mpr le_rfl
  refine hbs.blit hle (h.holds (by omega)) fun c hc => putAll_of_ne fun x hx heq => ?_
  have hbounds := hin x hx
  omega

end Liigboot
